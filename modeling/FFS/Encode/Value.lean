import Mathlib.Data.Option.Basic
import FFS.Encode.Visit
import FFS.Machine.Threads

/-!
# Values

A value of a format is what an application gets when it follows the pointers of a record: the
bytes of its simple fields, its strings, arrays and records, and where a pointer leads again.
`readValue` reads one.  How a pointer is followed is a parameter: in the memory of an application
it is an address, in a message the offset of the next block.  The second reading is a parser of
the format of a message, in which each block lies behind the one before.
-/

namespace FFS

open Machine

/-- A value, wherever it lies.  A scalar has its low byte first.  A pointer in a recursive format
that leads to where an earlier one has led has the number of that one. -/
inductive Value where
  | scalar (bytes : List UInt8)
  | null
  | string (bytes : List UInt8)
  | pointer (target : Value)
  | again (number : Nat)
  | array (elements : List Value)
  | record (fields : List Value)

/-- What a pointer leads to: a chain of a format, and its size. -/
structure Kind where
  fieldList : List FMField
  fieldSubformats : List (Option Nat)
  chain : List FMTypeDesc
  size : Nat
deriving DecidableEq

/-- The state of a reading: the offset behind what was read of a message, and the words that the
pointers of recursive formats had, with what they lead to. -/
structure Reading where
  next : Nat
  seen : List (Nat × Kind)

/-- The number of a word among those that were read, and what it leads to. -/
def Reading.find (r : Reading) (word : Nat) : Option (Nat × Kind) :=
  (r.seen.findIdx? (·.1 = word)).bind fun number =>
    r.seen[number]?.map fun entry => (number, entry.2)

/-- How the word of a pointer is followed.  `locate` has the place of a target that was not seen,
`after` the offset behind it, and `emptyTargets` says whether a pointer to nothing may have a
target. -/
structure Links where
  emptyTargets : Bool
  locate (next : Nat) (recursive : Bool) (alignment word : Nat) : Option Nat
  after (word size : Nat) : Nat

/-- The pointers of an application.  None of a recursive format leads to the record that is read,
which has no offset in a message. -/
def nativeLinks (root : Option Nat) : Links where
  emptyTargets := true
  locate _ recursive _ word := if recursive && root = some word then none else some word
  after _ _ := 0

/-- The pointers of a message, whose part from the offset `start` on lies at `strings`. -/
def messageLinks (strings start : Nat) : Links where
  emptyTargets := false
  locate next _ alignment word :=
    if word = next + alignPad alignment next then some (strings + (word - start)) else none
  after word size := word + size

/-- A target is read that was not seen. -/
def Reading.follow (links : Links) (recursive : Bool) (word : Nat) (kind : Kind) (r : Reading) :
    Reading where
  next := links.after word kind.size
  seen := if recursive then r.seen ++ [(word, kind)] else r.seen

/-! ## Counts -/

/-- The sizes of the dynamic dimensions in a record. -/
abbrev DimenCounts := FMTypeDesc → Option Nat

/-- The count in the control field of a dimension.  It is an integer and not negative. -/
def countAt (f : FMFormatBody) (m : Mem) (record : Nat) : DimenCounts := fun desc => do
  let control ← controlOf f desc
  let size := sizeOfInt control.fieldSize
  guard (size = 1 ∨ size = 2 ∨ size = 4 ∨ size = 8)
  let count := getValue f.byteReversal (m.read (record + sizeOfInt control.fieldOffset) size)
  guard (2 * count < 256 ^ size)
  return count

def dimenCount (counts : DimenCounts) (desc : FMTypeDesc) : Option Nat :=
  if desc.staticSize = 0 then counts desc else some (desc.staticSize % 2 ^ 64).toNat

section

variable (formats : List FMFormatBody)

/-- The bytes that a chain covers. -/
def sizeOfChain (f : FMFormatBody) (counts : DimenCounts) : List FMTypeDesc → Option Nat
  | [] => none
  | desc :: next =>
    match desc.type with
    | .pointer | .string => some f.pointerSize
    | .array => do
      let elements ← dimenCount counts desc
      let size ← sizeOfChain f counts next
      return elements * size
    | .subformat => (subformatOf formats f desc).map fun sub => sizeOfInt sub.recordLength
    | .simple => f.fieldList[desc.fieldIndex]?.map fun field => sizeOfInt field.fieldSize

/-- The number of elements of an array of any rank, and the chain of an element. -/
def elementsOf (counts : DimenCounts) : List FMTypeDesc → Option (Nat × List FMTypeDesc)
  | [] => none
  | desc :: next =>
    if desc.type = .array then do
      let elements ← dimenCount counts desc
      let (count, element) ← elementsOf counts next
      return (elements * count, element)
    else some (1, desc :: next)

/-! ## Reading -/

/-- The word of a pointer. -/
def pointerWord (f : FMFormatBody) (m : Mem) (addr : Nat) : Nat :=
  getValue f.byteReversal (m.read addr f.pointerSize)

def Kind.of (f : FMFormatBody) (chain : List FMTypeDesc) (size : Nat) : Kind :=
  ⟨f.fieldList, f.fieldSubformats, chain, size⟩

/-- The fields of a record. -/
def readEntries (read : DimenCounts → List FMTypeDesc → Nat → Reading → Option (Value × Reading))
    (f : FMFormatBody) (m : Mem) (addr : Nat) (r : Reading) : Option (Value × Reading) := do
  let (values, r) ← threaded (fun entry r =>
    read (countAt f m addr) entry.2.typeDesc (addr + sizeOfInt entry.1.fieldOffset) r)
    (f.fieldList.zip f.varList) r
  return (.record values, r)

/-- The value that a chain describes at an address. -/
def readValue (links : Links) (m : Mem) : Nat → FMFormatBody → DimenCounts → List FMTypeDesc → Nat →
    Reading → Option (Value × Reading)
  | 0, _, _, _, _, _ => none
  | _ + 1, _, _, [], _, _ => none
  | fuel + 1, f, counts, desc :: next, addr, r =>
    match desc.type with
    | .pointer =>
      let word := pointerWord f m addr
      if word = 0 then some (.null, r)
      else do
        let size ← sizeOfChain formats f counts next
        let kind := Kind.of f next size
        match if f.recursive then r.find word else none with
        | some (number, kind') =>
          guard (kind' = kind)
          return (.again number, r)
        | none =>
          let place ← links.locate r.next f.recursive 8 word
          if size = 0 then
            guard links.emptyTargets
            return (.null, r)
          else
            let (target, r) ←
              readValue links m fuel f counts next place (r.follow links f.recursive word kind)
            return (.pointer target, r)
    | .string =>
      let word := pointerWord f m addr
      if word = 0 then some (.null, r)
      else do
        let place ← links.locate r.next false 1 word
        let length ← stringLength m fuel place
        return (.string (m.read place length), { r with next := links.after word (length + 1) })
    | .array => do
      let (count, element) ← elementsOf counts (desc :: next)
      let size ← sizeOfChain formats f counts element
      let (values, r) ← threaded (fun i r =>
        readValue links m fuel f counts element (addr + i * size) r) (List.range count) r
      return (.array values, r)
    | .subformat => do
      let sub ← subformatOf formats f desc
      readEntries (readValue links m fuel sub) sub m addr r
    | .simple => do
      let field ← f.fieldList[desc.fieldIndex]?
      let bytes := m.read addr (sizeOfInt field.fieldSize)
      return (.scalar (if f.byteReversal then bytes.reverse else bytes), r)

end

/-! ## Pointers and strings -/

section

variable {formats : List FMFormatBody} {links : Links} {m : Mem} {fuel : Nat} {f : FMFormatBody}
  {c : DimenCounts} {desc : FMTypeDesc} {next : List FMTypeDesc} {addr : Nat} {r : Reading}

/-- What a pointer reads as. -/
inductive ReadsPointer (formats : List FMFormatBody) (links : Links) (m : Mem) (fuel : Nat)
    (f : FMFormatBody) (c : DimenCounts) (next : List FMTypeDesc) (word : Nat) (r : Reading) :
    Value → Reading → Prop
  | null (hword : word = 0) : ReadsPointer formats links m fuel f c next word r .null r
  | again {size number : Nat} (hword : word ≠ 0) (hsize : sizeOfChain formats f c next = some size)
      (hrecursive : f.recursive = true) (hfind : r.find word = some (number, Kind.of f next size)) :
      ReadsPointer formats links m fuel f c next word r (.again number) r
  | empty {place : Nat} (hword : word ≠ 0) (hsize : sizeOfChain formats f c next = some 0)
      (hnew : f.recursive = true → r.find word = none)
      (hplace : links.locate r.next f.recursive 8 word = some place)
      (hempty : links.emptyTargets = true) :
      ReadsPointer formats links m fuel f c next word r .null r
  | target {size place : Nat} {v : Value} {t : Reading} (hword : word ≠ 0)
      (hsize : sizeOfChain formats f c next = some size) (hpos : size ≠ 0)
      (hnew : f.recursive = true → r.find word = none)
      (hplace : links.locate r.next f.recursive 8 word = some place)
      (htarget : readValue formats links m fuel f c next place
        (r.follow links f.recursive word (Kind.of f next size)) = some (v, t)) :
      ReadsPointer formats links m fuel f c next word r (.pointer v) t

theorem readValue_pointer (hdesc : desc.type = .pointer) {v : Value} {t : Reading} :
    readValue formats links m (fuel + 1) f c (desc :: next) addr r = some (v, t) ↔
      ReadsPointer formats links m fuel f c next (pointerWord f m addr) r v t := by
  rw [readValue]
  simp only [hdesc]
  generalize pointerWord f m addr = word
  constructor
  · intro h
    split at h
    · next hword =>
      cases h
      exact .null hword
    · next hword =>
      simp only [Option.bind_eq_bind, Option.bind_eq_some_iff] at h
      obtain ⟨size, hsize, h⟩ := h
      split at h
      · next number kind hfind =>
        simp only [Option.bind_eq_some_iff, Option.guard_eq_some', Option.pure_def,
          Option.some.injEq, exists_const] at h
        obtain ⟨rfl, heq⟩ := h
        cases heq
        obtain ⟨hrecursive, hfind⟩ := Option.ite_none_right_eq_some.mp hfind
        exact .again hword hsize hrecursive hfind
      · next hfind =>
        have hnew : f.recursive = true → r.find word = none :=
          fun hrecursive => by rwa [if_pos hrecursive] at hfind
        obtain ⟨place, hplace, hrest⟩ := Option.bind_eq_some_iff.mp h
        split at hrest
        · next hzero =>
          subst hzero
          simp only [Option.bind_eq_some_iff, Option.guard_eq_some', Option.pure_def,
            Option.some.injEq, exists_const] at hrest
          obtain ⟨hempty, heq⟩ := hrest
          cases heq
          exact .empty hword hsize hnew hplace hempty
        · next hpos =>
          simp only [Option.bind_eq_some_iff, Option.pure_def, Option.some.injEq] at hrest
          obtain ⟨⟨target, t'⟩, htarget, heq⟩ := hrest
          cases heq
          exact .target hword hsize hpos hnew hplace htarget
  · intro h
    have hnone : (f.recursive = true → r.find word = none) →
        (if f.recursive = true then r.find word else none) = none := by
      intro hnew
      split
      · next hrecursive => exact hnew hrecursive
      · rfl
    cases h with
    | null hword => rw [if_pos hword]
    | again hword hsize hrecursive hfind =>
      simp only [if_neg hword, hsize, if_pos hrecursive, hfind, Option.bind_eq_bind,
        Option.bind_some, Option.pure_def, guard, if_true]
    | empty hword hsize hnew hplace hempty =>
      simp only [if_neg hword, hsize, hnone hnew, hplace, hempty, Option.bind_eq_bind,
        Option.bind_some, Option.pure_def, guard, if_true]
    | target hword hsize hpos hnew hplace htarget =>
      simp only [if_neg hword, hsize, if_neg hpos, hnone hnew, hplace, htarget,
        Option.bind_eq_bind, Option.bind_some, Option.pure_def]

/-- What a string reads as. -/
inductive ReadsString (links : Links) (m : Mem) (fuel word : Nat) (r : Reading) :
    Value → Reading → Prop
  | null (hword : word = 0) : ReadsString links m fuel word r .null r
  | text {place length : Nat} (hword : word ≠ 0)
      (hplace : links.locate r.next false 1 word = some place)
      (hlength : stringLength m fuel place = some length) :
      ReadsString links m fuel word r (.string (m.read place length))
        { r with next := links.after word (length + 1) }

theorem readValue_string (hdesc : desc.type = .string) {v : Value} {t : Reading} :
    readValue formats links m (fuel + 1) f c (desc :: next) addr r = some (v, t) ↔
      ReadsString links m fuel (pointerWord f m addr) r v t := by
  rw [readValue]
  simp only [hdesc]
  generalize pointerWord f m addr = word
  constructor
  · intro h
    split at h
    · next hword =>
      cases h
      exact .null hword
    · next hword =>
      simp only [Option.bind_eq_bind, Option.bind_eq_some_iff, Option.pure_def,
        Option.some.injEq] at h
      obtain ⟨place, hplace, length, hlength, heq⟩ := h
      cases heq
      exact .text hword hplace hlength
  · intro h
    cases h with
    | null hword => rw [if_pos hword]
    | text hword hplace hlength =>
      simp only [if_neg hword, hplace, hlength, Option.bind_eq_bind, Option.bind_some,
        Option.pure_def]

end

/-- The value of the record at `data` in the memory of an application. -/
def applicationValue (mem : Mem) (fuel : Nat) (format : FMFormat) (data : Nat) : Option Value :=
  let top := format.top
  let links := nativeLinks (if top.recursive then some data else none)
  (readEntries (readValue format.bodies links mem fuel top) top mem data ⟨0, []⟩).map Prod.fst

/-- The offset behind the record.  Where blocks follow, they begin at a multiple of 8. -/
def blocksStart (f : FMFormatBody) : Nat :=
  let length := sizeOfInt f.recordLength
  if f.variant then length + alignPad 8 length else length

theorem le_blocksStart (f : FMFormatBody) : sizeOfInt f.recordLength ≤ blocksStart f := by
  simp only [blocksStart]
  split <;> omega

/-- The value of a message whose record lies at `data` and whose blocks lie at `strings`, and the
offset behind it. -/
def messageValue (m : Mem) (fuel : Nat) (format : FMFormat) (data strings : Nat) :
    Option (Value × Nat) :=
  let top := format.top
  let start := blocksStart top
  (readEntries (readValue format.bodies (messageLinks strings start) m fuel top) top m data
    ⟨start, []⟩).map fun (value, r) => (value, r.next)

end FFS
