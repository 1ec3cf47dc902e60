import Mathlib.Logic.Function.Basic
import FFS.Machine.Runs
import FFS.Server.FormatServer

/-!
# The server and its clients

The server has a connection for each client.  A client sends any bytes at any time and may
end its side at any time; the handler of a client serves one request when all of it has
arrived.  A handler that leaves a block has no next state.
-/

namespace FFS

open Machine

/-- A connection: what the client has sent and the server has not read, what the server has
replied and the client has not read, whether the client has ended its side and whether the
server has closed its own. -/
structure Connection where
  toServer : List UInt8
  toClient : List UInt8
  ended : Bool
  closed : Bool

structure Serving where
  server : FormatServer
  connections : Nat → Connection
  running : Bool

inductive ServingEvent where
  | send (client : Nat) (bytes : List UInt8)
  | cutOff (client : Nat)
  | handle (client : Nat) (env : ServerEnv)

def Serving.start (server : FormatServer) : Serving :=
  { server, running := true,
    connections := fun _ => { toServer := [], toClient := [], ended := false, closed := false } }

def Serving.setConnection (s : Serving) (client : Nat) (connection : Connection) : Serving :=
  { s with connections := Function.update s.connections client connection }

/-- The handler of a client.  One that waits on a connection that has ended closes it. -/
def Serving.handle (hash : List UInt8 → UInt32 × UInt32) (s : Serving) (client : Nat)
    (env : ServerEnv) : Option Serving :=
  let connection := s.connections client
  if !s.running || connection.closed then some s
  else match formatServerHandleData hash env s.server connection.toServer with
    | .ok served =>
      some ({ s with server := served.server }.setConnection client
        { connection with
          toServer := served.rest, toClient := connection.toClient ++ served.reply })
    | .error .waiting =>
      if connection.ended then some (s.setConnection client { connection with closed := true })
      else some s
    | .error .close => some (s.setConnection client { connection with closed := true })
    | .error .exit => some { s with running := false }
    | .error .violation => none

def Serving.step (hash : List UInt8 → UInt32 × UInt32) (s : Serving) :
    ServingEvent → Option Serving
  | .send client bytes =>
    let connection := s.connections client
    if connection.ended then some s
    else some (s.setConnection client
      { connection with toServer := connection.toServer ++ bytes })
  | .cutOff client =>
    some (s.setConnection client { s.connections client with ended := true })
  | .handle client env => s.handle hash client env

@[simp] theorem Serving.setConnection_server (s : Serving) (client : Nat)
    (connection : Connection) : (s.setConnection client connection).server = s.server := rfl

@[simp] theorem Serving.setConnection_running (s : Serving) (client : Nat)
    (connection : Connection) : (s.setConnection client connection).running = s.running := rfl

theorem Serving.handle_of_ok {hash : List UInt8 → UInt32 × UInt32} {s : Serving} {client : Nat}
    {env : ServerEnv} {served : Served} (hrunning : s.running = true)
    (hclosed : (s.connections client).closed = false)
    (h : formatServerHandleData hash env s.server (s.connections client).toServer = .ok served) :
    s.handle hash client env = some ({ s with server := served.server }.setConnection client
      { s.connections client with
        toServer := served.rest, toClient := (s.connections client).toClient ++ served.reply }) := by
  rw [Serving.handle, if_neg (by simp [hrunning, hclosed]), h]

/-- A handler to which nothing has been sent waits. -/
theorem Serving.handle_of_nil {hash : List UInt8 → UInt32 × UInt32} {s : Serving} {client : Nat}
    {env : ServerEnv} (hended : (s.connections client).ended = false)
    (h : (s.connections client).toServer = []) : s.handle hash client env = some s := by
  have hwaiting : formatServerHandleData hash env s.server [] = .error .waiting := rfl
  rw [Serving.handle, h, hwaiting]
  simp [hended]

/-- What a handler does is safe and what it leaves in the list is good. -/
theorem Serving.handle_iff {hash : List UInt8 → UInt32 × UInt32} {s : Serving} {client : Nat}
    {env : ServerEnv} {good : FormatServer → Prop} (hgood : good s.server) :
    (∃ s', s.handle hash client env = some s' ∧ good s'.server) ↔
      (s.running = true → (s.connections client).closed = false →
        Outcome (· ≠ .violation) (fun served => good served.server)
          (formatServerHandleData hash env s.server (s.connections client).toServer)) := by
  rw [Serving.handle]
  by_cases hopen : (!s.running || (s.connections client).closed) = true
  · rw [if_pos hopen]
    constructor
    · intro _ hrunning hclosed
      simp [hrunning, hclosed] at hopen
    · intro _
      exact ⟨s, rfl, hgood⟩
  · rw [if_neg hopen]
    rw [Bool.or_eq_true, not_or, Bool.not_eq_true, Bool.not_eq_true, Bool.not_eq_false'] at hopen
    rw [imp_iff_right hopen.1, imp_iff_right hopen.2]
    cases formatServerHandleData hash env s.server (s.connections client).toServer with
    | ok served => simp
    | error e =>
      cases e with
      | waiting => by_cases hended : (s.connections client).ended = true <;> simp [hended, hgood]
      | close => simp [hgood]
      | exit => simp [hgood]
      | violation => simp

end FFS
