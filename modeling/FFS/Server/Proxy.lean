import FFS.FM.Hash
import FFS.Machine.Runs
import FFS.Server.FormatServer

/-!
# A proxy and its master

A proxy serves its clients from its own list and pushes every format to a master.  It has no
record of what it has pushed: a connection that it makes begins with a push of the whole list,
and a format that is entered later is pushed by itself.  Everything here happens under the
server's lock.

The master is what answers the calls of the proxy: what the clock shows, whether a connection
is accepted and how many bytes a write takes.  The loss of a connection is a write that takes
fewer bytes than it is given.
-/

namespace FFS

open Machine

/-- What a call to the outside world finds. -/
structure MasterAnswer where
  now : Nat
  connects : Bool
  accepts : Nat

/-- A proxy with the number of the connection that it has open, and all that has been written
over the connections it has had. -/
structure Proxy where
  server : FormatServer
  lastTry : Nat
  connection : Option Nat
  written : List (List UInt8)
  calls : Nat
deriving DecidableEq

/-- How the master replies to a fetch. -/
inductive MasterReply where
  /-- A reply that makes the proxy close the connection. -/
  | broken
  | unknown
  | format
deriving DecidableEq

inductive ProxyEvent where
  | register (address : UInt64) (version : Int) (id : Option (List UInt8)) (rep : List UInt8)
      (depth : Nat) (master : Nat → MasterAnswer)
  | fetch (id : List UInt8) (depth : Nat) (master : Nat → MasterAnswer) (reply : MasterReply)
  | poll (depth : Nat) (master : Nat → MasterAnswer)

namespace Proxy

/-- `close` of the connection. -/
def lose (p : Proxy) : Proxy := { p with connection := none }

/-- `ffs_server_write_func`, with whether everything was written. -/
def write (master : Nat → MasterAnswer) (p : Proxy) (bytes : List UInt8) : Bool × Proxy :=
  match p.connection with
  | none => (bytes.isEmpty, p)
  | some k =>
    let taken := bytes.take (master p.calls).accepts
    (taken.length = bytes.length,
     { p with written := p.written.modify k (· ++ taken), calls := p.calls + 1 })

/-- Writes one after the other.  What cannot be read cannot be written, and the first write
that fails closes the connection. -/
def writeAll (master : Nat → MasterAnswer) (p : Proxy) :
    List (Option (List UInt8)) → Option Proxy
  | [] => some p
  | none :: _ => none
  | some bytes :: rest =>
    match p.write master bytes with
    | (true, p) => p.writeAll master rest
    | (false, p) => some p.lose

/-- What `register_format_to_master` writes. -/
def pushes (entry : IOFormatRep) : List (Option (List UInt8)) :=
  [some ([chr 'P', 2] ++ beBytes 2 entry.idLength), some (entry.serverID.getD []),
   span entry.serverFormatRep 0 2,
   (repLength entry.serverFormatRep).bind fun length => span entry.serverFormatRep 0 length]

/-- `register_format_to_master` -/
def registerFormatToMaster (connect : Proxy → Option (Bool × Proxy))
    (master : Nat → MasterAnswer) (p : Proxy) (entry : IOFormatRep) : Option Proxy := do
  let (connected, p) ← connect p
  if connected then p.writeAll master (pushes entry)
  else return { p with
    server := { p.server with pendingUnregistered := p.server.pendingUnregistered + 1 } }

/-- `register_all_to_master` -/
def registerAllToMaster (connect : Proxy → Option (Bool × Proxy))
    (master : Nat → MasterAnswer) (p : Proxy) : Option Proxy := do
  let (connected, p) ← connect p
  if connected then
    let p ← p.server.formats.foldlM (registerFormatToMaster connect master) p
    return { p with server := { p.server with pendingUnregistered := 0 } }
  else return p

/-- `try_master_connect`.  It calls itself through `register_all_to_master`, and beyond the given
depth the master accepts no connection. -/
def tryMasterConnect (master : Nat → MasterAnswer) (depth : Nat) (p : Proxy) :
    Option (Bool × Proxy) :=
  if p.connection ≠ none then some (true, p)
  else
    let answer := master p.calls
    let p := { p with calls := p.calls + 1 }
    if p.lastTry ≠ 0 ∧ answer.now ≤ p.lastTry + 300 then some (false, p)
    else
      let p := { p with lastTry := answer.now }
      match depth with
      | 0 => some (false, p)
      | depth + 1 =>
        if answer.connects then do
          let p := { p with connection := some p.written.length, written := p.written ++ [[]] }
          let p ← p.registerAllToMaster (tryMasterConnect master depth) master
          return (true, p)
        else some (false, p)

/-- What `get_format_from_master` writes.  The length of the ID is a `char`. -/
def gets (id : List UInt8) : List (Option (List UInt8)) :=
  [some [chr 'g', UInt8.ofNat id.length],
   span id 0 (charValue (UInt8.ofNat id.length)).toNat]

/-- `get_format_from_master`.  A format that the master has is in an entry that is freed before
it is used. -/
def getFormatFromMaster (connect : Proxy → Option (Bool × Proxy))
    (master : Nat → MasterAnswer) (p : Proxy) (id : List UInt8) (reply : MasterReply) :
    Option Proxy := do
  let (connected, p) ← connect p
  if connected then
    let p ← p.writeAll master (gets id)
    if p.connection = none then return p
    else match reply with
      | .broken => return p.lose
      | .unknown => return p
      | .format => none
  else return p

/-- A step of the proxy: a client registers or fetches a format, or the server polls. -/
def step (hash : List UInt8 → UInt32 × UInt32) (p : Proxy) : ProxyEvent → Option Proxy
  | .register address version id rep depth master => do
    match ← p.server.findFormat hash address version id rep with
    | .known _ => return p
    | .fresh entry =>
      registerFormatToMaster (tryMasterConnect master depth) master
        { p with server := p.server.enter entry } entry
  | .fetch id depth master reply => do
    let version ← versionOfServerID (some id)
    match ← searchFormats (some id) none version p.server.formats with
    | some _ => return p
    | none => p.getFormatFromMaster (tryMasterConnect master depth) master id reply
  | .poll depth master =>
    if p.server.pendingUnregistered = 0 then some p
    else (p.tryMasterConnect master depth).map Prod.snd

def start (server : FormatServer) : Proxy :=
  { server, lastTry := 0, connection := none, written := [], calls := 0 }

/-! ## What has been written -/

/-- The bytes of a request that is written in parts. -/
def joined (parts : List (Option (List UInt8))) : Option (List UInt8) :=
  (parts.mapM fun part => part).map List.flatten

/-- The representation that a block holds: as many bytes as it records. -/
structure IsRepresentation (rep block : List UInt8) : Prop where
  recorded : repLength block = some rep.length
  held : rep <+: block

/-- A push as a server reads it: its version, the length of the ID and the ID, the length of the
representation and the representation. -/
def pushRequest (id rep : List UInt8) : List UInt8 :=
  [chr 'P', 2] ++ beBytes 2 id.length ++ id ++ beBytes 2 rep.length ++ rep

/-- A fetch as a server reads it, with as many bytes of an ID as its `char` says. -/
def IsGetRequest (bytes : List UInt8) : Prop :=
  ∃ size id, bytes = [chr 'g', size] ++ id ∧ id.length = (charValue size).toNat

/-- A request as a whole. -/
def IsRequest (bytes : List UInt8) : Prop :=
  (∃ id rep, rep.length < 2 ^ 16 ∧ bytes = pushRequest id rep) ∨ IsGetRequest bytes

/-- Some connection has carried a number of whole requests, one of which pushes the ID and the
representation of the entry, and behind them whatever it has. -/
def Pushed (p : Proxy) (entry : IOFormatRep) : Prop :=
  ∃ rep, IsRepresentation rep entry.serverFormatRep ∧
    ∃ stream ∈ p.written, ∃ requests rest, stream = List.flatten requests ++ rest ∧
      (∀ r ∈ requests, IsRequest r) ∧ pushRequest (entry.serverID.getD []) rep ∈ requests

/-- On the connection that is open whole requests have been written. -/
def Whole (p : Proxy) : Prop :=
  ∀ k, p.connection = some k → ∃ requests, p.written[k]? = some (List.flatten requests) ∧
    ∀ r ∈ requests, IsRequest r

/-- Nothing that has been written is taken back, and the list stays. -/
structure Extends (p p' : Proxy) : Prop where
  formats : p'.server.formats = p.server.formats
  written : ∀ stream ∈ p.written, ∃ more, stream ++ more ∈ p'.written

theorem Extends.refl (p : Proxy) : Extends p p :=
  ⟨rfl, fun stream h => ⟨[], by rwa [List.append_nil]⟩⟩

theorem Extends.trans {p p' p'' : Proxy} (h : Extends p p') (h' : Extends p' p'') :
    Extends p p'' := by
  refine ⟨h'.formats.trans h.formats, fun stream hstream => ?_⟩
  obtain ⟨more, hmore⟩ := h.written stream hstream
  obtain ⟨more', hmore'⟩ := h'.written _ hmore
  exact ⟨more ++ more', by rwa [← List.append_assoc]⟩

theorem Pushed.mono {p p' : Proxy} (h : Extends p p') {entry : IOFormatRep}
    (hpushed : Pushed p entry) : Pushed p' entry := by
  obtain ⟨rep, hrep, stream, hstream, requests, rest, rfl, hrequests, hmem⟩ := hpushed
  obtain ⟨more, hmore⟩ := h.written _ hstream
  exact ⟨rep, hrep, _, hmore, requests, rest ++ more, List.append_assoc _ _ _, hrequests, hmem⟩

def AllPushed (p : Proxy) : Prop := ∀ entry ∈ p.server.formats, Pushed p entry

theorem AllPushed.mono {p p' : Proxy} (h : Extends p p') (hall : AllPushed p) : AllPushed p' := by
  intro entry hentry
  rw [h.formats] at hentry
  exact (hall entry hentry).mono h

/-! ## The requests that are written -/

theorem joined_cons {part : Option (List UInt8)} {parts : List (Option (List UInt8))}
    {bytes : List UInt8} (h : joined (part :: parts) = some bytes) :
    ∃ first rest, part = some first ∧ joined parts = some rest ∧ bytes = first ++ rest := by
  obtain ⟨all, hall, rfl⟩ := Option.map_eq_some_iff.mp h
  simp only [List.mapM_cons, Option.bind_eq_bind, Option.bind_eq_some_iff, Option.pure_def,
    Option.some.injEq] at hall
  obtain ⟨first, hfirst, others, hothers, rfl⟩ := hall
  exact ⟨first, _, hfirst, Option.map_eq_some_iff.mpr ⟨others, hothers, rfl⟩, rfl⟩

theorem joined_singleton {part : Option (List UInt8)} {bytes : List UInt8}
    (h : joined [part] = some bytes) : part = some bytes := by
  obtain ⟨first, rest, hfirst, hrest, rfl⟩ := joined_cons h
  cases (show some [] = some rest from hrest)
  rw [hfirst, List.append_nil]

/-- What the proxy writes for an entry is a push of its ID and its representation. -/
theorem joined_pushes {entry : IOFormatRep} {bytes : List UInt8}
    (h : joined (pushes entry) = some bytes) :
    ∃ rep, IsRepresentation rep entry.serverFormatRep ∧ rep.length < 2 ^ 16 ∧
      bytes = pushRequest (entry.serverID.getD []) rep := by
  obtain ⟨head, behind, hhead, hbehind, hbytes⟩ := joined_cons h
  obtain ⟨id, behind', hid, hbehind', rfl⟩ := joined_cons hbehind
  obtain ⟨size, rep, hsize, hrep, rfl⟩ := joined_cons hbehind'
  obtain ⟨length, hlength, hrep⟩ := Option.bind_eq_some_iff.mp (joined_singleton hrep)
  rw [repLength, valueAt, hsize, Option.map_some, Option.some.injEq] at hlength
  subst hlength
  have hsizeLength : size.length = 2 := length_of_span hsize
  have hrepLength : rep.length = beValue size := length_of_span hrep
  refine ⟨rep, ⟨?_, ?_⟩, ?_, ?_⟩
  · rw [repLength, valueAt, hsize, hrepLength]
    rfl
  · rw [← (take_of_span hrep).2]
    exact List.take_prefix _ _
  · have hlt := beValue_lt size
    rw [hsizeLength] at hlt
    rwa [hrepLength]
  · have hstored : beBytes 2 (beValue size) = size := by
      rw [← hsizeLength, beBytes_beValue]
    cases hhead
    cases hid
    rw [hbytes, pushRequest, hrepLength, hstored]
    simp [IOFormatRep.idLength]

/-- What the proxy writes for an ID is a fetch. -/
theorem joined_gets {id bytes : List UInt8} (h : joined (gets id) = some bytes) :
    IsGetRequest bytes := by
  obtain ⟨head, rest, hhead, hid, hbytes⟩ := joined_cons h
  cases hhead
  exact ⟨_, rest, hbytes, length_of_span (joined_singleton hid)⟩

/-! ## What the calls do -/

variable {master : Nat → MasterAnswer} {p p' : Proxy}

theorem extends_modify {k : Nat} {more : List UInt8} {calls : Nat} {connection : Option Nat} :
    Extends p { p with written := p.written.modify k (· ++ more), calls, connection } := by
  refine ⟨rfl, fun stream hstream => ?_⟩
  obtain ⟨i, hi⟩ := List.mem_iff_getElem?.mp hstream
  by_cases hik : k = i
  · refine ⟨more, List.mem_iff_getElem?.mpr ⟨i, ?_⟩⟩
    show (p.written.modify k (· ++ more))[i]? = _
    rw [List.getElem?_modify, hi, hik]
    simp
  · refine ⟨[], List.mem_iff_getElem?.mpr ⟨i, ?_⟩⟩
    show (p.written.modify k (· ++ more))[i]? = _
    rw [List.getElem?_modify, hi]
    simp [hik]

/-- Writes on an open connection: the last one closes it or all bytes are written. -/
theorem writeAll_open {k : Nat} {stream : List UInt8} {parts : List (Option (List UInt8))}
    (hconnection : p.connection = some k) (hstream : p.written[k]? = some stream)
    (h : p.writeAll master parts = some p') :
    Extends p p' ∧ (p'.connection = none ∨ p'.connection = some k ∧
      ∃ bytes, joined parts = some bytes ∧ p'.written[k]? = some (stream ++ bytes)) := by
  induction parts generalizing p stream with
  | nil =>
    cases h
    exact ⟨.refl _, Or.inr ⟨hconnection, [], rfl, by rwa [List.append_nil]⟩⟩
  | cons part parts ih =>
    cases part with
    | none => cases h
    | some bytes =>
      have hwrite : p.write master bytes =
          (decide ((bytes.take (master p.calls).accepts).length = bytes.length),
           { p with
             written := p.written.modify k (· ++ bytes.take (master p.calls).accepts),
             calls := p.calls + 1 }) := by
        rw [write, hconnection]
      rw [writeAll, hwrite] at h
      by_cases htaken : (bytes.take (master p.calls).accepts).length = bytes.length
      · rw [decide_eq_true htaken] at h
        have hall : bytes.take (master p.calls).accepts = bytes := by
          rw [List.length_take] at htaken
          exact List.take_of_length_le (by omega)
        rw [hall] at h
        obtain ⟨hextends, hwritten⟩ := @ih { p with
          written := p.written.modify k (· ++ bytes), calls := p.calls + 1 } (stream ++ bytes)
          hconnection (by rw [List.getElem?_modify_eq, hstream]; rfl) h
        refine ⟨extends_modify.trans hextends, hwritten.imp_right fun hwritten => ?_⟩
        obtain ⟨hopen, rest, hrest, hstream'⟩ := hwritten
        refine ⟨hopen, bytes ++ rest, ?_, by rwa [← List.append_assoc]⟩
        obtain ⟨parts', hparts', rfl⟩ := Option.map_eq_some_iff.mp hrest
        exact Option.map_eq_some_iff.mpr ⟨bytes :: parts', by simp [hparts'], rfl⟩
      · rw [decide_eq_false htaken] at h
        cases h
        exact ⟨extends_modify, Or.inl rfl⟩

/-- Without a connection nothing is written. -/
theorem writeAll_closed {parts : List (Option (List UInt8))} (hconnection : p.connection = none)
    (h : p.writeAll master parts = some p') : Extends p p' ∧ p'.connection = none := by
  induction parts with
  | nil =>
    cases h
    exact ⟨.refl _, hconnection⟩
  | cons part parts ih =>
    cases part with
    | none => cases h
    | some bytes =>
      have hwrite : p.write master bytes = (bytes.isEmpty, p) := by rw [write, hconnection]
      rw [writeAll, hwrite] at h
      cases hempty : bytes.isEmpty with
      | true =>
        rw [hempty] at h
        exact ih h
      | false =>
        rw [hempty] at h
        cases h
        exact ⟨⟨rfl, (Extends.refl p).written⟩, rfl⟩

/-- What a call that connects to the master does: when it has made the connection, everything in
the list has been pushed. -/
structure Connects (p : Proxy) (connected : Bool) (p' : Proxy) : Prop where
  keeps : Extends p p'
  whole : Whole p'
  refused : connected = false → p'.connection = none
  pushed : p'.connection ≠ none → p' = p ∨ AllPushed p'

def ConnectSpec (connect : Proxy → Option (Bool × Proxy)) : Prop :=
  ∀ {p connected p'}, Whole p → connect p = some (connected, p') → Connects p connected p'

/-- A request that is written behind whole requests. -/
theorem writeAll_request {parts : List (Option (List UInt8))} (hwhole : Whole p)
    (hparts : ∀ bytes, joined parts = some bytes → IsRequest bytes)
    (h : p.writeAll master parts = some p') :
    Extends p p' ∧ Whole p' ∧ (p'.connection ≠ none → p.connection ≠ none ∧
      ∃ bytes, joined parts = some bytes ∧
        ∃ stream ∈ p'.written, ∃ requests, stream = List.flatten requests ∧
          (∀ r ∈ requests, IsRequest r) ∧ bytes ∈ requests) := by
  cases hconnection : p.connection with
  | none =>
    obtain ⟨hextends, hclosed⟩ := writeAll_closed hconnection h
    refine ⟨hextends, fun k hk => ?_, fun hopen => absurd hclosed hopen⟩
    rw [hclosed] at hk
    cases hk
  | some k =>
    obtain ⟨requests, hstream, hrequests⟩ := hwhole k hconnection
    obtain ⟨hextends, hclosed | ⟨hopen, bytes, hbytes, hstream'⟩⟩ :=
      writeAll_open hconnection hstream h
    · refine ⟨hextends, fun k hk => ?_, fun hopen => absurd hclosed hopen⟩
      rw [hclosed] at hk
      cases hk
    · have hall : ∀ r ∈ requests ++ [bytes], IsRequest r := by
        intro r hr
        rcases List.mem_append.mp hr with hr | hr
        · exact hrequests r hr
        · rw [List.mem_singleton.mp hr]
          exact hparts bytes hbytes
      have hflatten : (requests ++ [bytes]).flatten = requests.flatten ++ bytes := by simp
      refine ⟨hextends, fun k' hk' => ?_, fun _ => ⟨Option.some_ne_none k, bytes, hbytes, _,
        List.mem_of_getElem? hstream', requests ++ [bytes], hflatten.symm, hall,
        List.mem_append_right _ List.mem_cons_self⟩⟩
      rw [hopen, Option.some.injEq] at hk'
      subst hk'
      exact ⟨requests ++ [bytes], by rw [hflatten, hstream'], hall⟩

/-- `register_format_to_master` leaves the connection closed or the format pushed. -/
theorem registerFormatToMaster_spec {connect : Proxy → Option (Bool × Proxy)}
    (hconnect : ConnectSpec connect) (hwhole : Whole p) {entry : IOFormatRep}
    (h : registerFormatToMaster connect master p entry = some p') :
    Extends p p' ∧ Whole p' ∧
      (p'.connection ≠ none → Pushed p' entry ∧ (p.connection ≠ none ∨ AllPushed p')) := by
  simp only [registerFormatToMaster, Option.bind_eq_bind, Option.bind_eq_some_iff, Prod.exists] at h
  obtain ⟨connected, p₁, hconnected, h⟩ := h
  have hspec := hconnect hwhole hconnected
  cases connected with
  | false =>
    cases h
    have hclosed := hspec.refused rfl
    exact ⟨⟨hspec.keeps.formats, hspec.keeps.written⟩, hspec.whole,
      fun hopen => absurd hclosed hopen⟩
  | true =>
    rw [if_pos rfl] at h
    obtain ⟨hextends, hwhole', hopen⟩ :=
      writeAll_request hspec.whole (fun bytes hbytes => by
        obtain ⟨rep, -, hlength, hbytes⟩ := joined_pushes hbytes
        exact Or.inl ⟨_, rep, hlength, hbytes⟩) h
    refine ⟨hspec.keeps.trans hextends, hwhole', fun hconnection => ?_⟩
    obtain ⟨hopen₁, bytes, hbytes, stream, hstream, requests, rfl, hrequests, hmem⟩ :=
      hopen hconnection
    obtain ⟨rep, hrep, -, rfl⟩ := joined_pushes hbytes
    refine ⟨⟨rep, hrep, _, hstream, requests, [], (List.append_nil _).symm, hrequests, hmem⟩, ?_⟩
    rcases hspec.pushed hopen₁ with rfl | hall
    · exact Or.inl hopen₁
    · exact Or.inr (hall.mono hextends)

/-- The loop over the list.  When the connection breaks in it and is made again, that has pushed
the whole list. -/
theorem registerAll_loop {connect : Proxy → Option (Bool × Proxy)} (hconnect : ConnectSpec connect)
    {entries : List IOFormatRep} (hwhole : Whole p)
    (h : entries.foldlM (registerFormatToMaster connect master) p = some p') :
    Extends p p' ∧ Whole p' ∧ (p'.connection ≠ none →
      AllPushed p' ∨ p.connection ≠ none ∧ ∀ entry ∈ entries, Pushed p' entry) := by
  induction entries generalizing p with
  | nil =>
    cases h
    exact ⟨.refl _, hwhole, fun hopen => Or.inr ⟨hopen, fun entry h => absurd h List.not_mem_nil⟩⟩
  | cons entry entries ih =>
    simp only [List.foldlM_cons, Option.bind_eq_bind, Option.bind_eq_some_iff] at h
    obtain ⟨p₁, hfirst, hrest⟩ := h
    obtain ⟨hextends₁, hwhole₁, hopen₁⟩ := registerFormatToMaster_spec hconnect hwhole hfirst
    obtain ⟨hextends, hwhole', hopen⟩ := ih hwhole₁ hrest
    refine ⟨hextends₁.trans hextends, hwhole', fun hconnection => ?_⟩
    rcases hopen hconnection with hall | ⟨hconnection₁, hentries⟩
    · exact Or.inl hall
    · obtain ⟨hpushed, hconnection | hall⟩ := hopen₁ hconnection₁
      · refine Or.inr ⟨hconnection, fun e he => ?_⟩
        rcases List.mem_cons.mp he with rfl | he
        · exact hpushed.mono hextends
        · exact hentries e he
      · exact Or.inl (hall.mono hextends)

/-- `register_all_to_master` leaves the connection closed or everything pushed. -/
theorem registerAllToMaster_spec {connect : Proxy → Option (Bool × Proxy)}
    (hconnect : ConnectSpec connect) (hwhole : Whole p)
    (h : registerAllToMaster connect master p = some p') :
    Extends p p' ∧ Whole p' ∧ (p'.connection ≠ none → AllPushed p') := by
  simp only [registerAllToMaster, Option.bind_eq_bind, Option.bind_eq_some_iff, Prod.exists] at h
  obtain ⟨connected, p₁, hconnected, h⟩ := h
  have hspec := hconnect hwhole hconnected
  cases connected with
  | false =>
    cases h
    exact ⟨hspec.keeps, hspec.whole, fun hopen => absurd (hspec.refused rfl) hopen⟩
  | true =>
    simp only [if_true, Option.bind_eq_some_iff, Option.pure_def, Option.some.injEq] at h
    obtain ⟨p₂, hloop, rfl⟩ := h
    obtain ⟨hextends, hwhole₂, hopen⟩ := registerAll_loop hconnect hspec.whole hloop
    refine ⟨hspec.keeps.trans ⟨hextends.formats, hextends.written⟩, hwhole₂,
      fun hconnection => ?_⟩
    rcases hopen hconnection with hall | ⟨-, hentries⟩
    · exact hall
    · intro entry hentry
      replace hentry : entry ∈ p₂.server.formats := hentry
      rw [hextends.formats] at hentry
      exact hentries entry hentry

theorem Connects.of_refused (hclosed : p'.connection = none) (hserver : p'.server = p.server)
    (hwritten : p'.written = p.written) : Connects p false p' where
  keeps := ⟨congrArg FormatServer.formats hserver, by
    intro stream hstream
    exact ⟨[], by rwa [hwritten, List.append_nil]⟩⟩
  whole k hk := by
    rw [hclosed] at hk
    cases hk
  refused _ := hclosed
  pushed hopen := absurd hclosed hopen

/-- A connection is made only with a push of the whole list. -/
theorem tryMasterConnect_spec (master : Nat → MasterAnswer) (depth : Nat) :
    ConnectSpec (tryMasterConnect master depth) := by
  induction depth with
  | zero =>
    intro p connected p' hwhole h
    rw [tryMasterConnect] at h
    by_cases hopen : p.connection ≠ none
    · rw [if_pos hopen] at h
      cases h
      exact ⟨.refl _, hwhole, fun h => (by cases h), fun _ => Or.inl rfl⟩
    · have hclosed : p.connection = none := not_not.mp hopen
      rw [if_neg hopen] at h
      by_cases hsoon : p.lastTry ≠ 0 ∧ (master p.calls).now ≤ p.lastTry + 300
      · rw [if_pos hsoon] at h
        cases h
        exact .of_refused hclosed rfl rfl
      · rw [if_neg hsoon] at h
        cases h
        exact .of_refused hclosed rfl rfl
  | succ depth ih =>
    intro p connected p' hwhole h
    rw [tryMasterConnect] at h
    by_cases hopen : p.connection ≠ none
    · rw [if_pos hopen] at h
      cases h
      exact ⟨.refl _, hwhole, fun h => (by cases h), fun _ => Or.inl rfl⟩
    · have hclosed : p.connection = none := not_not.mp hopen
      rw [if_neg hopen] at h
      by_cases hsoon : p.lastTry ≠ 0 ∧ (master p.calls).now ≤ p.lastTry + 300
      · rw [if_pos hsoon] at h
        cases h
        exact .of_refused hclosed rfl rfl
      · rw [if_neg hsoon] at h
        dsimp only at h
        split at h
        · simp only [Option.bind_eq_bind, Option.bind_eq_some_iff, Option.pure_def,
            Option.some.injEq, Prod.mk.injEq] at h
          obtain ⟨p₂, hall, rfl, rfl⟩ := h
          -- the new connection has carried nothing
          have hwhole₁ : Whole { p with
              calls := p.calls + 1, lastTry := (master p.calls).now,
              connection := some p.written.length, written := p.written ++ [[]] } := by
            intro k hk
            cases hk
            exact ⟨[], by simp, fun r hr => absurd hr List.not_mem_nil⟩
          obtain ⟨hextends, hwhole₂, hpushed⟩ := registerAllToMaster_spec ih hwhole₁ hall
          refine ⟨⟨hextends.formats, fun stream hstream => ?_⟩, hwhole₂, fun h => (by cases h),
            fun hconnection => Or.inr (hpushed hconnection)⟩
          exact hextends.written stream (List.mem_append_left _ hstream)
        · cases h
          exact .of_refused hclosed rfl rfl

/-! ## Runs -/

/-- While the proxy has a connection everything in its list has been pushed. -/
structure Inv (p : Proxy) : Prop where
  whole : Whole p
  pushed : p.connection ≠ none → AllPushed p

theorem Inv.of_connects (hp : Inv p) {connected : Bool} (h : Connects p connected p') :
    Inv p' := by
  refine ⟨h.whole, fun hconnection => ?_⟩
  rcases h.pushed hconnection with rfl | hall
  · exact hp.pushed hconnection
  · exact hall

theorem Inv.getFormatFromMaster (hp : Inv p) {depth : Nat} {id : List UInt8} {reply : MasterReply}
    (h : p.getFormatFromMaster (tryMasterConnect master depth) master id reply = some p') :
    Inv p' := by
  simp only [Proxy.getFormatFromMaster, Option.bind_eq_bind, Option.bind_eq_some_iff,
    Prod.exists] at h
  obtain ⟨connected, p₁, hconnected, h⟩ := h
  have hspec := tryMasterConnect_spec master depth hp.whole hconnected
  have hp₁ := hp.of_connects hspec
  cases connected with
  | false =>
    cases h
    exact hp₁
  | true =>
    rw [if_pos rfl] at h
    simp only [Option.bind_eq_some_iff] at h
    obtain ⟨p₂, hwrites, h⟩ := h
    obtain ⟨hextends, hwhole₂, hopen⟩ :=
      writeAll_request hp₁.whole (fun bytes hbytes => Or.inr (joined_gets hbytes)) hwrites
    have hp₂ : Inv p₂ := ⟨hwhole₂, fun h => (hp₁.pushed (hopen h).1).mono hextends⟩
    split at h
    · cases h
      exact hp₂
    · cases reply with
      | broken =>
        cases h
        exact ⟨fun k hk => (by cases hk), fun h => absurd rfl h⟩
      | unknown =>
        cases h
        exact hp₂
      | format => cases h

/-- What one event does. -/
theorem Inv.step {hash : List UInt8 → UInt32 × UInt32} (hp : Inv p) {e : ProxyEvent}
    (h : p.step hash e = some p') : Inv p' := by
  cases e with
  | register address version id rep depth master =>
    simp only [Proxy.step, Option.bind_eq_bind, Option.bind_eq_some_iff] at h
    obtain ⟨found, hfind, h⟩ := h
    cases found with
    | known entry =>
      cases h
      exact hp
    | fresh entry =>
      -- the entry is in the list before it is pushed
      obtain ⟨hextends, hwhole, hopen⟩ :=
        registerFormatToMaster_spec (p := { p with server := p.server.enter entry })
          (tryMasterConnect_spec master depth) hp.whole h
      refine ⟨hwhole, fun hconnection => ?_⟩
      obtain ⟨hpushed, hconnected | hall⟩ := hopen hconnection
      · intro e he
        rw [hextends.formats] at he
        rcases List.mem_append.mp he with he | he
        · exact (hp.pushed hconnected e he).mono hextends
        · rw [List.mem_singleton.mp he]
          exact hpushed
      · exact hall
  | fetch id depth master reply =>
    simp only [Proxy.step, Option.bind_eq_bind, Option.bind_eq_some_iff] at h
    obtain ⟨version, -, found, -, h⟩ := h
    cases found with
    | some entry =>
      cases h
      exact hp
    | none => exact hp.getFormatFromMaster h
  | poll depth master =>
    rw [Proxy.step] at h
    split at h
    · cases h
      exact hp
    · obtain ⟨result, hconnected, rfl⟩ := Option.map_eq_some_iff.mp h
      exact hp.of_connects (tryMasterConnect_spec master depth hp.whole hconnected)

theorem start_inv (server : FormatServer) : Inv (start server) :=
  ⟨fun k hk => (by cases hk), fun h => absurd rfl h⟩

/-- In every state that a proxy reaches with a connection, every format of its list has been pushed
as a whole over some connection, whether the count of what is pending is zero or not. -/
theorem pushed_of_run (hash : List UInt8 → UInt32 × UInt32) (pid port ipAddr : Nat)
    (events : List ProxyEvent) (p : Proxy)
    (h : run (step hash) (start (.create pid port ipAddr)) events = some p)
    (hconnection : p.connection ≠ none) : ∀ entry ∈ p.server.formats, Pushed p entry :=
  (foldlM_invariant Inv (fun hp hstep => hp.step hstep) (start_inv _) h).pushed hconnection

/-- A master that takes everything. -/
def openMaster (_ : Nat) : MasterAnswer := { now := 1000, connects := true, accepts := 1000 }

def oneRegistration : List ProxyEvent := [.register 0 2 none [0, 8, 0, 0, 0, 0, 0, 0] 1 openMaster]

theorem pushed_of_run_one : ∃ p,
    run (step hashlittle2) (start (.create 1 5347 1)) oneRegistration = some p ∧
      p.connection = some 0 ∧ p.server.formats.length = 1 ∧
      ∀ entry ∈ p.server.formats, Pushed p entry := by
  have hrun : (run (step hashlittle2) (start (.create 1 5347 1)) oneRegistration).map
      (fun p => (p.connection, p.server.formats.length)) = some (some 0, 1) := by
    decide
  obtain ⟨p, hp, hstate⟩ := Option.map_eq_some_iff.mp hrun
  rw [Prod.mk.injEq] at hstate
  refine ⟨p, hp, hstate.1, hstate.2, ?_⟩
  refine pushed_of_run hashlittle2 1 5347 1 oneRegistration p hp ?_
  rw [hstate.1]
  exact Option.some_ne_none 0

end Proxy

end FFS
