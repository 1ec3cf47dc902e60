import FFS.FM.Context

/-!
# The format server

Clients register representations and fetch them again by their IDs.  The server keeps one
list of formats for all clients.  `formatServerHandleData` is what the handler of a client
does with the next request on its connection: the bytes it reads, the blocks it allocates
for them and the search of the list, which happens under the server's lock.
-/

namespace FFS

open Machine

/-- Why a handler does not go on. -/
inductive Stop where
  /-- The connection has fewer bytes than the handler reads. -/
  | waiting
  /-- The handler closes the connection. -/
  | close
  /-- The process ends. -/
  | exit
  /-- The handler reads or writes outside a block. -/
  | violation
deriving DecidableEq, Repr

/-- An entry of the server's list.  An ID without a value is a null pointer.  The
representation is the block allocated for it, whatever length is recorded in it. -/
structure IOFormatRep where
  serverID : Option (List UInt8)
  serverFormatRep : List UInt8
deriving DecidableEq

structure FormatServer where
  formats : List IOFormatRep
  serverFormatCount : Nat
  pendingUnregistered : Nat
  pid : Nat
  port : Nat
  ipAddr : Nat
deriving DecidableEq

/-- `format_server_create` -/
def FormatServer.create (pid port ipAddr : Nat) : FormatServer :=
  { formats := [], serverFormatCount := 0, pendingUnregistered := 0, pid, port, ipAddr }

/-- What a step of the server takes from elsewhere: the address of the entry it allocates,
and whether the master of a proxy answers a request for an unknown format. -/
structure ServerEnv where
  address : UInt64
  masterAnswers : Bool

/-! ## IDs -/

/-- The value of a `char`. -/
def charValue (b : UInt8) : Int := signed 1 b.toNat

/-- Whether the next bytes are all zero, read up to the first that is not. -/
def zeroBytes : Nat → List UInt8 → Option Bool
  | 0, _ => some true
  | _ + 1, [] => none
  | n + 1, b :: bs => if b = 0 then zeroBytes n bs else some false

/-- `version_of_format_ID` on a block that may be too short for it. -/
def versionOfServerID : Option (List UInt8) → Option Int
  | none => some (-1)
  | some id => do
    if ← zeroBytes 4 (id.drop 4) then return 0 else return charValue (← id.head?)

/-- `server_ID.length` -/
def IOFormatRep.idLength (entry : IOFormatRep) : Nat := (entry.serverID.getD []).length

/-- `format_rep_length` in host order. -/
def repLength (rep : List UInt8) : Option Nat := valueAt true rep 0 2

/-- `generate_format3_server_ID` on a block that may be too short for it. -/
def generatedServerID (hash : List UInt8 → UInt32 × UInt32) (rep : List UInt8) :
    Option (List UInt8) := do
  let length ← recordedRepLength rep
  guard (length ≤ rep.length)
  generateFormat3ServerID hash rep

/-! ## The list -/

/-- `format_eq` of an ID and a representation, either of which may be missing, and an entry of
the list. -/
def formatEq (id rep : Option (List UInt8)) (entry : IOFormatRep) : Option Bool :=
  let value := id.getD []
  if value ≠ [] ∧ value.length ≠ entry.idLength then some false
  else if value.any (· ≠ 0) ∧ value = entry.serverID.getD [] then some true
  else match rep with
    | none => some false
    | some rep => do
      let length ← repLength rep
      let entryLength ← repLength entry.serverFormatRep
      if length ≠ entryLength then return false
      else return (← span rep 0 length) = (← span entry.serverFormatRep 0 length)

/-- The search of `find_format`.  For an entry that is equal the IDs are compared once more, for
the log. -/
def searchFormats (id rep : Option (List UInt8)) (version : Int) :
    List IOFormatRep → Option (Option IOFormatRep)
  | [] => some none
  | entry :: rest => do
    let entryVersion ← versionOfServerID entry.serverID
    let equal ← formatEq id rep entry
    if equal ∧ version = entryVersion then
      guard (id.all fun value => entry.idLength ≤ value.length)
      return some entry
    else searchFormats id rep version rest

/-- The ID of a format that is entered under a version. -/
def FormatServer.newID (hash : List UInt8 → UInt32 × UInt32) (fs : FormatServer)
    (address : UInt64) (version : Int) (id : Option (List UInt8)) (rep : List UInt8) :
    Option (Option (List UInt8)) :=
  if version = 0 then some (some (0 :: (leBytes 8 (address.toNat + fs.pid % 8)).tail))
  else if version = 1 then
    some (some ([1, UInt8.ofNat fs.pid] ++ leBytes 2 fs.port ++ leBytes 4 fs.ipAddr
      ++ leBytes 2 fs.serverFormatCount))
  else if version = 2 then do
    let generated ← generatedServerID hash rep
    match id with
    | none => return some generated
    | some value => do
      guard (generated.length ≤ value.length)
      return some value
  else some id

/-- What `find_format` finds in the mode for new formats. -/
inductive Found where
  | known (entry : IOFormatRep)
  | fresh (entry : IOFormatRep)
deriving DecidableEq

/-- `find_format` in the mode for new formats, up to the entering of the format. -/
def FormatServer.findFormat (hash : List UInt8 → UInt32 × UInt32) (fs : FormatServer)
    (address : UInt64) (version : Int) (id : Option (List UInt8)) (rep : List UInt8) :
    Option Found := do
  let _ ← versionOfServerID id
  match ← searchFormats id (some rep) version fs.formats with
  | some entry => return .known entry
  | none => return .fresh { serverID := ← fs.newID hash address version id rep,
                            serverFormatRep := rep }

/-- A format behind the last one of the list. -/
def FormatServer.enter (fs : FormatServer) (entry : IOFormatRep) : FormatServer :=
  { fs with
    formats := fs.formats ++ [entry], serverFormatCount := fs.serverFormatCount + 1 }

/-- The end of `find_format` and `register_format_to_master` on a server that has no connection
to a master. -/
def FormatServer.settle (fs : FormatServer) : Found → FormatServer × IOFormatRep
  | .known entry => (fs, entry)
  | .fresh entry =>
    ({ fs.enter entry with pendingUnregistered := fs.pendingUnregistered + 1 }, entry)

/-! ## Requests -/

def orViolation {α : Type} : Option α → Except Stop α
  | some a => .ok a
  | none => .error .violation

/-- `LogAtomicRead` of a connection that has these bytes. -/
def atomicRead (n : Nat) (input : List UInt8) : Except Stop (List UInt8 × List UInt8) :=
  if n ≤ input.length then .ok (input.take n, input.drop n) else .error .waiting

def readByte : List UInt8 → Except Stop (UInt8 × List UInt8)
  | [] => .error .waiting
  | b :: rest => .ok (b, rest)

/-- A length of two bytes in network order. -/
def readShort (input : List UInt8) : Except Stop (Nat × List UInt8) := do
  let (bytes, rest) ← atomicRead 2 input
  return (beValue bytes, rest)

/-- What is left when a request has been served: the server, the reply and the input behind
the request. -/
structure Served where
  server : FormatServer
  reply : List UInt8
  rest : List UInt8

/-- `'f'`: a format is registered.  The length is stored in a block of that many bytes before
anything else. -/
def handleRegister (hash : List UInt8 → UInt32 × UInt32) (env : ServerEnv) (fs : FormatServer)
    (input : List UInt8) : Except Stop Served := do
  let (version, input) ← readByte input
  if 2 < charValue version then .error .close
  else
    let (length, input) ← readShort input
    if length < 2 then .error .violation
    else
      let (body, input) ← atomicRead (length - 2) input
      let rep := beBytes 2 length ++ body
      let found ← orViolation (fs.findFormat hash env.address (charValue version) none rep)
      let (fs, entry) := fs.settle found
      return { server := fs,
               reply := [chr 'I', UInt8.ofNat entry.idLength] ++ entry.serverID.getD [],
               rest := input }

/-- `'P'`: a format is pushed together with its ID. -/
def handlePush (hash : List UInt8 → UInt32 × UInt32) (env : ServerEnv) (fs : FormatServer)
    (input : List UInt8) : Except Stop Served := do
  let (version, input) ← readByte input
  if charValue version ≤ 1 then .error .close
  else
    let (idLength, input) ← readShort input
    let (id, input) ← atomicRead idLength input
    let (length, input) ← readShort input
    if length < 2 then .error .violation
    else
      let (rep, input) ← atomicRead length input
      let found ← orViolation (fs.findFormat hash env.address (charValue version) (some id) rep)
      return { server := (fs.settle found).1, reply := [], rest := input }

/-- `'g'`: a format is fetched.  The length of the ID is a `char`, and no block has a negative
size.  When the master of a proxy answers, `find_format` returns an entry it has freed. -/
def handleGet (env : ServerEnv) (fs : FormatServer) (input : List UInt8) : Except Stop Served := do
  let (idLength, input) ← readByte input
  if charValue idLength < 0 then .error .exit
  else
    let (id, input) ← atomicRead idLength.toNat input
    let version ← orViolation (versionOfServerID (some id))
    match ← orViolation (searchFormats (some id) none version fs.formats) with
    | some entry =>
      let length ← orViolation (repLength entry.serverFormatRep)
      let body ← orViolation (span entry.serverFormatRep 2 (length - 2))
      return { server := fs, reply := [chr 'f', 1] ++ beBytes 2 length ++ body, rest := input }
    | none =>
      if env.masterAnswers then .error .violation
      else return { server := fs, reply := [chr 'f', 1, 0, 0], rest := input }

/-- `format_server_handle_data`, for the requests that concern formats. -/
def formatServerHandleData (hash : List UInt8 → UInt32 × UInt32) (env : ServerEnv)
    (fs : FormatServer) (input : List UInt8) : Except Stop Served := do
  let (nextAction, input) ← readByte input
  if nextAction = chr 'T' then return { server := fs, reply := [], rest := input }
  else if nextAction = chr 'f' then handleRegister hash env fs input
  else if nextAction = chr 'P' then handlePush hash env fs input
  else if nextAction = chr 'g' then handleGet env fs input
  else .error .close

end FFS
