import FFS.File.ReaderRuns
import FFS.Machine.Runs

/-!
# The calls of a reader

Each call takes the first record of its kind off those ahead, with the ones in front of it.
`FFSread_format` stops at an index block.  In a file that is a sequence of whole records every
sequence of calls goes through, and the bytes of a length that is below its prefix are what it may
stop at.
-/

namespace FFS

open Machine

/-- A call on a file that is open for reading, with the room that its destination has.  That of
`read` may be a null pointer. -/
inductive ReaderCall where
  | nextRecordType
  | readComment
  | readFormat
  | read (room : Option Nat)
  | readRaw (bufferSize : Nat)
  | readToBuffer (room : Nat)
  | readIndex
deriving DecidableEq, Repr

namespace FFSReader

def MAGIC_NUMBER : Nat := 0x4356ffa9

/-- `open_FFSfd` for reading, of a file with `body` behind its magic number. -/
def opened (rawFlag : Bool) (context : FFSContext) (body : List UInt8) : FFSReader :=
  { file := { disk := ⟨beBytes 4 MAGIC_NUMBER ++ body, 4⟩, fileOrg := .simple, fpos := 0,
              dataCount := 0, curIndex := none, readIndex := none },
    context, status := .openForRead, rawFlag, readAhead := false, nextRecordType := none,
    nextFidLen := 0, nextDataLen := 0, nextDataHandle := none, nextActualHandle := none,
    tmpBuffer := [], indexes := [], dataBlockNo := 0, written := [] }

section

variable (ignoreDefaultValues : Bool)
  (strToVal : List UInt8 → FMDataType → Int32 → Option (List UInt8))
  (convFunc : IOConversion → List UInt8 → Nat → Bool)

/-- The reader behind a call. -/
def call (fuel : Nat) (r : FFSReader) : ReaderCall → Except ReaderStop FFSReader
  | .nextRecordType => (r.next ignoreDefaultValues strToVal fuel).map Prod.snd
  | .readComment => (r.readComment ignoreDefaultValues strToVal fuel).map Prod.snd
  | .readFormat => (r.readFormat ignoreDefaultValues strToVal fuel).map Prod.snd
  | .read room => (r.readInto ignoreDefaultValues strToVal convFunc fuel room).map Prod.snd
  | .readRaw bufferSize => (r.readRaw ignoreDefaultValues strToVal fuel bufferSize).map Prod.snd
  | .readToBuffer room =>
    (r.readToBuffer ignoreDefaultValues strToVal convFunc fuel room).map Prod.snd
  | .readIndex => (r.readIndex ignoreDefaultValues strToVal fuel).map Prod.snd

/-- A call that returns. -/
def step (fuel : Nat) (r : FFSReader) (c : ReaderCall) : Option FFSReader :=
  (r.call ignoreDefaultValues strToVal convFunc fuel c).toOption

end

end FFSReader

open FFSReader

/-! ## The records that a call leaves -/

/-- What `FFSread_format` skips. -/
def FileItem.isSkipped (item : FileItem) : Bool :=
  item.type = .ffsComment ∨ item.type = .ffsData

namespace ReaderCall

/-- The records ahead, from the one that a call comes to. -/
def reach (items : List FileItem) : ReaderCall → List FileItem
  | nextRecordType => items
  | readComment => recordsFrom .ffsComment items
  | readFormat => items.dropWhile (·.isSkipped)
  | read _ | readRaw _ | readToBuffer _ => recordsFrom .ffsData items
  | readIndex => recordsFrom .ffsIndex items

/-- The records that are ahead behind a call.  `FFSread_format` leaves an index block. -/
def rest (items : List FileItem) : ReaderCall → List FileItem
  | nextRecordType => items
  | readFormat =>
    match readFormat.reach items with
    | .index item :: items => .index item :: items
    | items => items.tail
  | c => (c.reach items).tail

/-- The caller's buffer has room for the record that is read or decoded into it. -/
def HasRoom (convFunc : IOConversion → List UInt8 → Nat → Bool) (items : List FileItem) :
    ReaderCall → Prop
  | readRaw bufferSize => ∀ d rest, recordsFrom .ffsData items = .data d :: rest →
      d.size ≤ bufferSize
  | read (some room) => ∀ d rest, recordsFrom .ffsData items = .data d :: rest →
      d.Decodes convFunc false room
  | readToBuffer room => ∀ d rest, recordsFrom .ffsData items = .data d :: rest →
      d.Decodes convFunc true room
  | _ => True

/-- Each of the calls has room, and goes no further than the records ahead, unless nothing follows
them. -/
def AllFit (convFunc : IOConversion → List UInt8 → Nat → Bool) (complete : Prop) :
    List FileItem → List ReaderCall → Prop
  | _, [] => True
  | items, c :: calls => c.HasRoom convFunc items ∧ (c.reach items = [] → complete) ∧
      AllFit convFunc complete (c.rest items) calls

end ReaderCall

namespace FFSReader

variable {ignoreDefaultValues : Bool}
  {strToVal : List UInt8 → FMDataType → Int32 → Option (List UInt8)} {bytes : List UInt8}
  {rawFlag : Bool} {complete : Prop} {r : FFSReader} {items : List FileItem}

/-! ## The loop of `FFSread_format` -/

section

variable {e : Cursor} {Q : FFSReader → Prop}

/-- Comments and data records are taken. -/
theorem skipToFormat_settled (hsmall : SmallFile bytes)
    (hdest : items.dropWhile (·.isSkipped) = [] →
      Destination ignoreDefaultValues strToVal bytes rawFlag e Q)
    (h : Settled ignoreDefaultValues strToVal bytes rawFlag Q e r items) {fuel : Nat}
    (hfuel : items.length + (bytes.length + 9) ≤ fuel) :
    ∃ r' fuel', r.skipToFormat ignoreDefaultValues strToVal fuel =
        r'.skipToFormat ignoreDefaultValues strToVal (fuel' + 1) ∧
      Settled ignoreDefaultValues strToVal bytes rawFlag Q e r'
        (items.dropWhile (·.isSkipped)) := by
  induction items generalizing r fuel with
  | nil =>
    obtain ⟨k, rfl⟩ : ∃ k, fuel = k + 1 := ⟨fuel - 1, by omega⟩
    exact ⟨r, k, rfl, h⟩
  | cons item items ih =>
    obtain ⟨k, rfl⟩ : ∃ k, fuel = k + 3 := ⟨fuel - 3, by omega⟩
    rw [List.length_cons] at hfuel
    have hnext : ∀ {r' : FFSReader} {mid : Cursor},
        (items = [] → Destination ignoreDefaultValues strToVal bytes rawFlag e Q) →
        r'.After bytes rawFlag mid →
        Reads ignoreDefaultValues strToVal bytes rawFlag mid items e → ∃ type r'',
          r'.next ignoreDefaultValues strToVal (k + 2) = .ok (type, r'') ∧
            Settled ignoreDefaultValues strToVal bytes rawFlag Q e r'' items :=
      fun hdone hafter hreads => settles_of_after hsmall hdone hreads hafter (by omega)
    cases item with
    | comment text =>
      have hdone := fun hnone : items = [] => hdest (by rw [hnone]; rfl)
      obtain ⟨hahead, mid, hpeeked, hreads⟩ := h
      obtain ⟨r₁, htake, hbetween⟩ := takeComment_spec (.inl hsmall) hpeeked
      obtain ⟨type, r₂, hread, hsettled⟩ := hnext hdone (.inl hbetween) hreads
      obtain ⟨r₃, fuel', hskip, hsettled'⟩ := ih hdest hsettled (show _ ≤ k + 2 by omega)
      refine ⟨r₃, fuel', ?_, hsettled'⟩
      rw [skipToFormat, hpeeked.type]
      exact (bind_eq_of_eq_ok
        ((readComment_peeked hpeeked.status hahead hpeeked.type k).trans htake)
        (bind_eq_of_eq_ok hread rfl)).trans hskip
    | data d =>
      have hdone := fun hnone : items = [] => hdest (by rw [hnone]; rfl)
      obtain ⟨hahead, mid, hpeeked, hreads⟩ := h
      obtain ⟨found, r₁, htake, hafter⟩ := takeData_spec hsmall hpeeked (keeps_ok d)
      obtain ⟨type, r₂, hread, hsettled⟩ := hnext hdone hafter hreads
      obtain ⟨r₃, fuel', hskip, hsettled'⟩ := ih hdest hsettled (show _ ≤ k + 2 by omega)
      refine ⟨r₃, fuel', ?_, hsettled'⟩
      rw [skipToFormat, hpeeked.type]
      exact (bind_eq_of_eq_ok
        ((read_peeked hpeeked.status hahead hpeeked.type .ok k).trans htake)
        (bind_eq_of_eq_ok hread rfl)).trans hskip
    | format id rep => exact ⟨r, k + 2, rfl, h⟩
    | index found => exact ⟨r, k + 2, rfl, h⟩

theorem reachFormat_heading (hsmall : SmallFile bytes)
    (hdest : items.dropWhile (·.isSkipped) = [] →
      Destination ignoreDefaultValues strToVal bytes rawFlag e Q)
    (h : Heading ignoreDefaultValues strToVal bytes rawFlag Q e r items) {fuel : Nat}
    (hfuel : 2 * bytes.length + 10 ≤ fuel) :
    ∃ r₀ r₁ k, r.peek ignoreDefaultValues strToVal fuel = .ok r₀ ∧
      r₀.skipToFormat ignoreDefaultValues strToVal fuel =
        r₁.skipToFormat ignoreDefaultValues strToVal (k + 1) ∧
      Settled ignoreDefaultValues strToVal bytes rawFlag Q e r₁
        (items.dropWhile (·.isSkipped)) := by
  obtain ⟨r₀, hpeek, hsettled⟩ := peek_heading hsmall
    (fun hnone => hdest (by rw [hnone]; rfl)) h (show _ ≤ fuel by omega)
  have hcount := hsettled.length_le
  obtain ⟨r₁, k, hskip, hreached⟩ :=
    skipToFormat_settled hsmall hdest hsettled (show _ ≤ fuel by omega)
  exact ⟨r₀, r₁, k, hpeek, hskip, hreached⟩

end

/-! ## The calls -/

theorem Ahead.pos_lt (hsmall : SmallFile bytes)
    (h : Ahead ignoreDefaultValues strToVal bytes rawFlag complete r items) :
    ∃ pos, r.file.disk = ⟨bytes, pos⟩ ∧ pos < 2 ^ 31 := by
  obtain ⟨e, -, ⟨cur, hbetween, -⟩ | hsettled⟩ := h
  · exact ⟨cur.pos, hbetween.stands.disk, lt_of_le_of_lt hbetween.within hsmall⟩
  · cases items with
    | nil =>
      obtain ⟨cur, hfinished, -⟩ := hsettled
      exact ⟨cur.pos, hfinished.stands.disk, lt_of_le_of_lt hfinished.atEnd.le hsmall⟩
    | cons item items =>
      obtain ⟨-, mid, hpeeked, -⟩ := hsettled
      exact hpeeked.pos_lt hsmall

variable (ignoreDefaultValues strToVal bytes rawFlag complete) in
/-- A call returns, and leaves these records ahead. -/
def Leaves (items : List FileItem) (result : Except ReaderStop FFSReader) : Prop :=
  ∃ r', result = .ok r' ∧ Ahead ignoreDefaultValues strToVal bytes rawFlag complete r' items

section

variable {convFunc : IOConversion → List UInt8 → Nat → Bool} {fuel : Nat}

theorem leaves_nextRecordType (hsmall : SmallFile bytes)
    (h : Ahead ignoreDefaultValues strToVal bytes rawFlag complete r items)
    (hfinds : items = [] → complete) (hfuel : bytes.length + 6 ≤ fuel) :
    Leaves ignoreDefaultValues strToVal bytes rawFlag complete items
      (r.call ignoreDefaultValues strToVal convFunc fuel .nextRecordType) := by
  obtain ⟨e, hends, hheading⟩ := h
  obtain ⟨type, r', hnext, hsettled⟩ := next_heading hsmall
    (fun hnone => destination_of_ends hsmall (hends (hfinds hnone))) hheading hfuel
  refine ⟨r', ?_, e, hends, .inr hsettled⟩
  rw [call, hnext]
  rfl

/-- A call that takes the first record of a type, if there is one. -/
theorem leaves_taken (hsmall : SmallFile bytes)
    (h : Ahead ignoreDefaultValues strToVal bytes rawFlag complete r items) (type : FFSRecordType)
    (htype : type ≠ .ffsEnd) {α : Type} (missing : α)
    (take : FFSReader → Except ReaderStop (α × FFSReader))
    (htake : ∀ {item rest r₁ mid}, recordsFrom type items = item :: rest → item.type = type →
      r₁.Peeked bytes rawFlag item mid →
      ∃ found r₂, take r₁ = .ok (found, r₂) ∧ r₂.After bytes rawFlag mid)
    (hfinds : recordsFrom type items = [] → complete) (hfuel : 2 * bytes.length + 10 ≤ fuel) :
    Leaves ignoreDefaultValues strToVal bytes rawFlag complete (recordsFrom type items).tail
      (Except.map Prod.snd do
        let r ← r.peek ignoreDefaultValues strToVal fuel
        let result ← r.skipTo ignoreDefaultValues strToVal fuel type
        if result.1 then take result.2 else return (missing, result.2)) := by
  obtain ⟨r₀, hpeek, hreach⟩ := reach_ahead hsmall h type htype hfinds hfuel
  rcases hreach with ⟨item, rest, r₁, mid, e, hfrom, hitem, hskip, hpeeked, hreads, hends⟩ |
    ⟨hfrom, r₁, hskip, hahead⟩
  · rw [hfrom]
    obtain ⟨found, r₂, htaken, hafter⟩ := htake hfrom hitem hpeeked
    refine ⟨r₂, ?_, ahead_of_after hafter hreads hends⟩
    rw [bind_eq_of_eq_ok hpeek (bind_eq_of_eq_ok hskip htaken)]
    rfl
  · rw [hfrom]
    refine ⟨r₁, ?_, hahead⟩
    rw [bind_eq_of_eq_ok hpeek (bind_eq_of_eq_ok hskip rfl)]
    rfl

theorem leaves_readComment (hsmall : SmallFile bytes)
    (h : Ahead ignoreDefaultValues strToVal bytes rawFlag complete r items)
    (hfinds : recordsFrom .ffsComment items = [] → complete)
    (hfuel : 2 * bytes.length + 10 ≤ fuel) :
    Leaves ignoreDefaultValues strToVal bytes rawFlag complete (recordsFrom .ffsComment items).tail
      (r.call ignoreDefaultValues strToVal convFunc (fuel + 1) .readComment) := by
  rw [call, readComment, if_neg (not_not_intro h.status)]
  refine leaves_taken hsmall h .ffsComment (by decide) none takeComment ?_ hfinds hfuel
  intro item rest r₁ mid _ hitem hpeeked
  cases item with
  | comment text =>
    obtain ⟨r₂, htake, hbetween⟩ := takeComment_spec (.inl hsmall) hpeeked
    exact ⟨_, r₂, htake, .inl hbetween⟩
  | format => cases hitem
  | data => cases hitem
  | index => cases hitem

/-- A data record is taken with what is done to it, as long as that leaves the reader alone. -/
theorem leaves_read (hsmall : SmallFile bytes)
    (h : Ahead ignoreDefaultValues strToVal bytes rawFlag complete r items)
    {decode : FFSReader → Except ReaderStop FFSReader}
    (hkeeps : ∀ d rest, recordsFrom .ffsData items = .data d :: rest →
      Keeps decode bytes rawFlag d)
    (hfinds : recordsFrom .ffsData items = [] → complete)
    (hfuel : 2 * bytes.length + 10 ≤ fuel) :
    Leaves ignoreDefaultValues strToVal bytes rawFlag complete (recordsFrom .ffsData items).tail
      ((r.read ignoreDefaultValues strToVal (fuel + 1) decode).map Prod.snd) := by
  rw [read, if_neg (not_not_intro h.status)]
  refine leaves_taken hsmall h .ffsData (by decide) false (takeData decode) ?_ hfinds hfuel
  intro item rest r₁ mid hfrom hitem hpeeked
  cases item with
  | data d => exact takeData_spec hsmall hpeeked (hkeeps d rest hfrom)
  | comment => cases hitem
  | format => cases hitem
  | index => cases hitem

theorem leaves_readRaw (hsmall : SmallFile bytes)
    (h : Ahead ignoreDefaultValues strToVal bytes rawFlag complete r items) {bufferSize : Nat}
    (hroom : ReaderCall.HasRoom convFunc items (.readRaw bufferSize))
    (hfinds : recordsFrom .ffsData items = [] → complete)
    (hfuel : 2 * bytes.length + 10 ≤ fuel) :
    Leaves ignoreDefaultValues strToVal bytes rawFlag complete (recordsFrom .ffsData items).tail
      (r.call ignoreDefaultValues strToVal convFunc fuel (.readRaw bufferSize)) := by
  rw [call, readRaw, if_neg (not_not_intro h.status)]
  refine leaves_taken hsmall h .ffsData (by decide) false (takeRaw · bufferSize) ?_ hfinds hfuel
  intro item rest r₁ mid hfrom hitem hpeeked
  cases item with
  | data d => exact takeRaw_spec hsmall hpeeked (hroom d rest hfrom)
  | comment => cases hitem
  | format => cases hitem
  | index => cases hitem

theorem leaves_readIndex (hsmall : SmallFile bytes)
    (h : Ahead ignoreDefaultValues strToVal bytes rawFlag complete r items)
    (hfinds : recordsFrom .ffsIndex items = [] → complete)
    (hfuel : 2 * bytes.length + 10 ≤ fuel) :
    Leaves ignoreDefaultValues strToVal bytes rawFlag complete (recordsFrom .ffsIndex items).tail
      (r.call ignoreDefaultValues strToVal convFunc (fuel + 1) .readIndex) := by
  obtain ⟨pos, hdisk, hpos⟩ := h.pos_lt hsmall
  obtain ⟨hend, hback⟩ := seek_back hsmall hdisk hpos
  rw [call, readIndex]
  dsimp only
  rw [hback, hend]
  refine leaves_taken hsmall h .ffsIndex (by decide) none (takeIndex · bytes.length) ?_ hfinds hfuel
  intro item rest r₁ mid _ hitem hpeeked
  cases item with
  | index found =>
    obtain ⟨r₂, htake, hbetween⟩ := takeIndex_spec hsmall hpeeked
    exact ⟨_, r₂, htake, .inl hbetween⟩
  | comment => cases hitem
  | format => cases hitem
  | data => cases hitem

/-- `FFSread_format` stops where neither a comment nor a data record comes next. -/
theorem skipToFormat_stops (h : r.nextRecordType = some .ffsEnd ∨
      r.nextRecordType = some .ffsIndex) (k : Nat) :
    r.skipToFormat ignoreDefaultValues strToVal (k + 1) = .ok (false, r) := by
  rcases h with h | h <;> rw [skipToFormat, h]

theorem leaves_readFormat (hsmall : SmallFile bytes)
    (h : Ahead ignoreDefaultValues strToVal bytes rawFlag complete r items)
    (hfinds : items.dropWhile (·.isSkipped) = [] → complete)
    (hfuel : 2 * bytes.length + 10 ≤ fuel) :
    Leaves ignoreDefaultValues strToVal bytes rawFlag complete (ReaderCall.readFormat.rest items)
      (r.call ignoreDefaultValues strToVal convFunc (fuel + 1) .readFormat) := by
  obtain ⟨e, hends, hheading⟩ := h
  obtain ⟨r₀, r₁, k, hpeek, hskip, hreached⟩ := reachFormat_heading hsmall
    (fun hnone => destination_of_ends hsmall (hends (hfinds hnone))) hheading hfuel
  rw [call, readFormat, ReaderCall.rest, ReaderCall.reach]
  have hstops : (r₁.nextRecordType = some .ffsEnd ∨ r₁.nextRecordType = some .ffsIndex) →
      r.readFormat ignoreDefaultValues strToVal (fuel + 1) = .ok (none, r₁) := by
    intro htype
    rw [readFormat]
    exact bind_eq_of_eq_ok hpeek (bind_eq_of_eq_ok
      (hskip.trans (skipToFormat_stops htype k)) rfl)
  rw [readFormat] at hstops
  cases hleft : items.dropWhile (·.isSkipped) with
  | nil =>
    rw [hleft] at hreached
    refine ⟨r₁, ?_, e, hends, .inr hreached⟩
    obtain ⟨cur, hfinished, -⟩ := hreached
    rw [hstops (.inl hfinished.type)]
    rfl
  | cons item rest =>
    rw [hleft] at hreached
    cases item with
    | format id rep =>
      obtain ⟨hahead, mid, hpeeked, hreads⟩ := hreached
      have hfound : r₁.skipToFormat ignoreDefaultValues strToVal (k + 1) = .ok (true, r₁) := by
        rw [skipToFormat, hpeeked.type]
        rfl
      obtain ⟨handle, r₂, htake, hbetween, -⟩ := takeFormat_spec (.inl hsmall) hpeeked
      refine ⟨r₂, ?_, ahead_of_after (.inl hbetween) hreads hends⟩
      rw [bind_eq_of_eq_ok hpeek (bind_eq_of_eq_ok (hskip.trans hfound) htake)]
      rfl
    | index found =>
      refine ⟨r₁, ?_, e, hends, .inr hreached⟩
      obtain ⟨-, mid, hpeeked, -⟩ := hreached
      rw [hstops (.inr hpeeked.type)]
      rfl
    | comment text =>
      have hnot := List.head?_dropWhile_not (fun i : FileItem => i.isSkipped) items
      rw [hleft] at hnot
      cases hnot
    | data n =>
      have hnot := List.head?_dropWhile_not (fun i : FileItem => i.isSkipped) items
      rw [hleft] at hnot
      cases hnot

/-- Every call returns. -/
theorem leaves_call (hsmall : SmallFile bytes)
    (h : Ahead ignoreDefaultValues strToVal bytes rawFlag complete r items) {c : ReaderCall}
    (hroom : c.HasRoom convFunc items) (hfinds : c.reach items = [] → complete)
    (hfuel : 2 * bytes.length + 11 ≤ fuel) :
    Leaves ignoreDefaultValues strToVal bytes rawFlag complete (c.rest items)
      (r.call ignoreDefaultValues strToVal convFunc fuel c) := by
  obtain ⟨k, rfl⟩ : ∃ k, fuel = k + 1 := ⟨fuel - 1, by omega⟩
  cases c with
  | nextRecordType => exact leaves_nextRecordType hsmall h hfinds (by omega)
  | readComment => exact leaves_readComment hsmall h hfinds (by omega)
  | readFormat => exact leaves_readFormat hsmall h hfinds (by omega)
  | read room =>
    cases room with
    | none => exact leaves_read hsmall h (fun d _ _ => keeps_ok d) hfinds (by omega)
    | some room =>
      exact leaves_read hsmall h (fun d rest hfrom => keeps_decodeInto (hroom d rest hfrom)) hfinds
        (by omega)
  | readRaw bufferSize => exact leaves_readRaw hsmall h hroom hfinds (by omega)
  | readToBuffer room =>
    exact leaves_read hsmall h (fun d rest hfrom => keeps_decodeInto (hroom d rest hfrom)) hfinds
      (by omega)
  | readIndex => exact leaves_readIndex hsmall h hfinds (by omega)

/-- The calls return one after another. -/
theorem run_of_ahead (hsmall : SmallFile bytes)
    (h : Ahead ignoreDefaultValues strToVal bytes rawFlag complete r items)
    {calls : List ReaderCall} (hfit : ReaderCall.AllFit convFunc complete items calls)
    (hfuel : 2 * bytes.length + 11 ≤ fuel) :
    ∃ r', run (step ignoreDefaultValues strToVal convFunc fuel) r calls = some r' := by
  induction calls generalizing r items with
  | nil => exact ⟨r, rfl⟩
  | cons c calls ih =>
    obtain ⟨hroom, hfinds, hothers⟩ := hfit
    obtain ⟨r', hcall, hahead⟩ := leaves_call hsmall h hroom hfinds hfuel
    have hstep : step ignoreDefaultValues strToVal convFunc fuel r c = some r' := by
      rw [step, hcall]
      rfl
    rw [run_cons calls hstep]
    exact ih hahead hothers

theorem between_opened {context : FFSContext} (hproper : ProperContext context) (rawFlag : Bool)
    (body : List UInt8) : (opened rawFlag context body).Between
      (beBytes 4 MAGIC_NUMBER ++ body) rawFlag ⟨context, [], 4, .simple⟩ where
  stands := { status := rfl, raw := rfl, disk := rfl, org := rfl, context := rfl, indexes := rfl,
              buffer := .inl rfl, proper := hproper,
              resumed := fun hlast => by simp at hlast }
  ahead := rfl
  within := by
    rw [List.length_append, length_beBytes]
    exact Nat.le_add_right _ _

end

/-- A format of one string. -/
def textBody : StoredFormat :=
  { format :=
      { top :=
          { formatName := cstr ['t'] (.refl false), recordLength := 8, byteReversal := false,
            floatFormat := 1, pointerSize := 8, ioVersion := 4,
            fieldList := [
              { fieldName := cstr ['x'] (.refl false),
                fieldType := cstr ['s', 't', 'r', 'i', 'n', 'g'] (.refl false),
                fieldSize := 8, fieldOffset := 0 }],
            optInfo := [], alignment := 8, columnMajorArrays := false, variant := true,
            recursive := false, varList := [], fieldSubformats := [none] },
        subformats := [] },
    serverFormatRep := [], serverID := [2, 0, 0, 1, 1, 2, 3, 4, 5, 6, 7, 8], formatIndex := 0 }

/-- Its messages are decoded by a copy. -/
def textHandle : FFSTypeHandle :=
  { body := textBody, conversion := none, status := .conversionSet, conversionTarget := some 0,
    isFixedTarget := true }

def textContext : FFSContext :=
  { fmc := { formatList := [textBody], nativeColumnMajorArrays := false },
    handleList := [some textHandle] }

/-- A message of 35 bytes, 11 of them behind the header, as its header says. -/
def textMessage : List UInt8 :=
  textBody.serverID ++ leBytes 8 11 ++ [0, 0, 0, 0] ++ [8, 0, 0, 0, 0, 0, 0, 0, 104, 105, 0]

/-- A comment and two messages. -/
def textFile : List UInt8 :=
  [1, 0, 0, 2, 72, 105] ++ ([3, 0, 0, 0, 0, 0, 0, 35] ++ textMessage) ++
    ([3, 0, 0, 0, 0, 0, 0, 35] ++ textMessage)

/-- Where a reader of the file is. -/
def textCursor (pos : Nat) : Cursor := ⟨textContext, [], pos, .simple⟩

theorem recordAt_text {pos : Nat} (hpos : pos = 10 ∨ pos = 53) :
    RecordAt false (fun _ _ _ => none) (beBytes 4 MAGIC_NUMBER ++ textFile) false (textCursor pos)
      (some (.data ⟨textHandle, textMessage, 35⟩)) (textCursor (pos + 43)) := by
  have hdecided : DecidedAt false (fun _ _ _ => none) (beBytes 4 MAGIC_NUMBER ++ textFile)
      (textCursor pos) textBody.serverID 35 textContext (some 0) (some 0) :=
    { head := by
        rcases hpos with rfl | rfl
        · exact ⟨⟨0, 35, ⟨3 * 2 ^ 24, by decide, by decide, by decide⟩, by decide,
            by decide⟩, by decide, by decide⟩
        · exact ⟨⟨0, 35, ⟨3 * 2 ^ 24, by decide, by decide, by decide⟩, by decide,
            by decide⟩, by decide, by decide⟩
      decides := ⟨textContext, .known rfl, rfl⟩ }
  have hrecord := RecordAt.data hdecided (.inl rfl : _ ∨ false = true)
    (show textContext.handle 0 = some textHandle from rfl) (by decide) (by decide)
    (by rcases hpos with rfl | rfl <;> decide)
  have hbytes : ((beBytes 4 MAGIC_NUMBER ++ textFile).drop ((textCursor pos).pos + 8)).take 35 =
      textMessage := by
    rcases hpos with rfl | rfl <;> decide
  have hplace : min ((textCursor pos).pos + 8 + 35) (beBytes 4 MAGIC_NUMBER ++ textFile).length =
      pos + 43 := by
    rcases hpos with rfl | rfl <;> decide
  rw [hbytes, hplace] at hrecord
  exact hrecord

/-- Of a record that is dropped less than nothing is left to read. -/
theorem findTarget_negative {cur : Cursor} {id : List UInt8} {dataLen : Nat} {handle : Option Nat}
    (h : Identified bytes rawFlag r cur id dataLen handle) {c : FFSContext}
    (hdecides : cur.context.targetFromEncode ignoreDefaultValues strToVal id = some (c, none))
    (hraw : rawFlag = false) (hid : dataLen < id.length) :
    r.findTarget ignoreDefaultValues strToVal = .error .negativeLength := by
  have hstops : (none : Option Nat).isNone = true ∧ ¬ r.rawFlag = true := by
    rw [h.stands.raw, hraw]
    exact ⟨rfl, Bool.false_ne_true⟩
  have hnegative : (r.nextDataLen : Int) - r.nextFidLen < 0 := by
    rw [h.fidLen, h.len]
    omega
  unfold findTarget
  rw [h.decides_buffer hdecides]
  dsimp only
  rw [if_pos hstops, readTmp, readFunc, if_pos hnegative]
  rfl

theorem next_negative (hsmall : SmallFile bytes) {cur : Cursor} (h : r.Between bytes rawFlag cur)
    {id : List UInt8} {dataLen : Nat} {c : FFSContext} {handle : Option Nat}
    (hdecided : DecidedAt ignoreDefaultValues strToVal bytes cur id dataLen c handle none)
    (hraw : rawFlag = false) (hid : dataLen < id.length) (fuel : Nat) :
    r.next ignoreDefaultValues strToVal (fuel + 5) = .error .negativeLength := by
  obtain ⟨r₁, r₂, c₁, hhead, hfind, hidentified, -, hdecides⟩ :=
    identified_of_decided (.inl hsmall) h hdecided fuel
  have hahead : ¬ r.readAhead = true := by
    rw [h.ahead]
    exact Bool.false_ne_true
  rw [next, if_neg (not_not_intro h.stands.status), if_neg hahead]
  refine bind_eq_of_eq_ok hhead (bind_eq_of_eq_ok hfind ?_)
  rw [findTarget_negative hidentified hdecides hraw hid]
  rfl

end FFSReader

end FFS
