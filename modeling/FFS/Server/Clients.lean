import FFS.FM.Rep
import FFS.Server.Serving

/-!
# Clients that register and fetch formats

A client sends one request at a time and reads the reply before it sends the next.  What the
clients were answered is kept: every registration, and with every fetch the registrations
that had been answered when it was sent.
-/

namespace FFS

open Machine

/-- `ID_length` -/
def idLengths : List Nat := [8, 10, 12]

inductive Request where
  | register (rep : List UInt8)
  | fetch (id : List UInt8)
deriving DecidableEq

/-- A registration that was answered. -/
structure Assigned where
  rep : List UInt8
  id : List UInt8
deriving DecidableEq

/-- A fetch that was answered, with the registrations answered before it was sent. -/
structure Fetch where
  id : List UInt8
  before : List Assigned
  rep : Option (List UInt8)

structure Clients where
  serving : Serving
  waiting : Nat → Option (Request × List Assigned)
  registrations : List Assigned
  fetches : List Fetch

inductive ClientEvent where
  | register (client : Nat) (format : FMFormat)
  | fetch (client : Nat) (id : List UInt8)
  | handle (client : Nat) (address : UInt64)
  | receive (client : Nat)

def ClientEvent.reps : ClientEvent → List (List UInt8)
  | .register _ format => (buildServerFormatRep format).toList
  | _ => []

/-- The representations that clients present in a run. -/
def registeredReps (events : List ClientEvent) : List (List UInt8) := events.flatMap (·.reps)

/-! ## The client's side of the protocol -/

/-- What `server_register_format` sends: of the representation, as much as its two bytes of
length say. -/
def registerRequest (rep : List UInt8) : Option (List UInt8) := do
  let length ← repLength rep
  return [chr 'f', 2] ++ (← span rep 0 2) ++ (← span rep 2 (length - 2))

/-- How much of an ID `server_get_format` sends. -/
def fetchedIDLength (id : List UInt8) : Option Nat := do
  let version ← versionOfServerID (some id)
  return if 0 ≤ version then idLengths.getD version.toNat 8 else 8

/-- What `server_get_format` sends. -/
def fetchRequest (id : List UInt8) : Option (List UInt8) := do
  let length ← fetchedIDLength id
  return [chr 'g', UInt8.ofNat length] ++ (← span id 0 length)

def Request.bytes : Request → Option (List UInt8)
  | .register rep => registerRequest rep
  | .fetch id => fetchRequest id

/-- The reply to a registration and what is behind it. -/
def readID : List UInt8 → Option (List UInt8 × List UInt8)
  | info :: length :: rest => do
    guard ((info = chr 'I' ∨ info = chr 'P') ∧ 0 ≤ charValue length)
    return (← span rest 0 length.toNat, rest.drop length.toNat)
  | _ => none

/-- The reply to a fetch behind its first byte. -/
def readBlock : List UInt8 → Option (Option (List UInt8) × List UInt8)
  | blockVersion :: rest => do
    guard (blockVersion = 1)
    let length ← valueAt true rest 0 2
    if length = 0 then return (none, rest.drop 2)
    else
      guard (2 ≤ length)
      return (some (beBytes 2 length ++ (← span rest 2 (length - 2))), rest.drop length)
  | [] => none

def readRep : List UInt8 → Option (Option (List UInt8) × List UInt8)
  | returnChar :: rest =>
    if returnChar = chr 'P' then
      match rest with
      | returnChar :: rest => if returnChar = chr 'f' then readBlock rest else none
      | [] => none
    else if returnChar = chr 'f' then readBlock rest
    else none
  | [] => none

/-! ## Steps -/

def Clients.start (server : FormatServer) : Clients :=
  { serving := .start server, waiting := fun _ => none, registrations := [], fetches := [] }

/-- A client that is not waiting sends a request. -/
def Clients.ask (hash : List UInt8 → UInt32 × UInt32) (s : Clients) (client : Nat)
    (request : Request) : Option Clients :=
  match s.waiting client, request.bytes with
  | none, some bytes => do
    let serving ← s.serving.step hash (.send client bytes)
    return { s with
      serving, waiting := Function.update s.waiting client (some (request, s.registrations)) }
  | _, _ => some s

/-- A client reads the reply it is waiting for. -/
def Clients.receive (s : Clients) (client : Nat) : Clients :=
  let connection := s.serving.connections client
  let answered (rest : List UInt8) : Clients := { s with
    serving := s.serving.setConnection client { connection with toClient := rest },
    waiting := Function.update s.waiting client none }
  match s.waiting client with
  | none => s
  | some (.register rep, _) =>
    match readID connection.toClient with
    | none => s
    | some (id, rest) =>
      { answered rest with registrations := s.registrations ++ [{ rep, id }] }
  | some (.fetch id, before) =>
    match readRep connection.toClient with
    | none => s
    | some (rep, rest) => { answered rest with fetches := s.fetches ++ [{ id, before, rep }] }

/-- A step of the clients or of the server, which is no proxy. -/
def Clients.step (hash : List UInt8 → UInt32 × UInt32) (s : Clients) :
    ClientEvent → Option Clients
  | .register client format =>
    match buildServerFormatRep format with
    | none => some s
    | some rep => s.ask hash client (.register rep)
  | .fetch client id => s.ask hash client (.fetch id)
  | .handle client address => do
    let serving ← s.serving.step hash (.handle client { address, masterAnswers := false })
    return { s with serving }
  | .receive client => some (s.receive client)

end FFS
