import FFS.File.ReaderCalls
import FFS.File.Seek

/-!
# The scans of an index end

Each round of a scan reads the block that the last one links to.  Where every link leads to a
block, and the last one out of the file or far enough, the scan ends.  A block that cannot be read
leaves the last one as it was, and only `FFSseek` notices that.
-/

namespace FFS

open Machine FFSReader

section

variable (ignoreDefaultValues : Bool)
  (strToVal : List UInt8 → FMDataType → Int32 → Option (List UInt8)) (bytes : List UInt8)
  (rawFlag : Bool)

/-! ## What stands at a link -/

/-- No block stands at a place: the file ends, or the block is cut off. -/
inductive NoIndexAt (e : Cursor) : Prop where
  | ends (h : EndsAt ignoreDefaultValues strToVal bytes rawFlag e)
  | cut {rest : Nat} (hhead : HeadAt bytes e.pos 0x4 rest) (hrest : 4 < rest)
      (hcut : bytes.length < e.pos + rest)

/-- From a place on the records lead to a block. -/
def IndexFrom (cur : Cursor) (found : FFSIndexItem) (mid : Cursor) : Prop :=
  ∃ items e, recordsFrom .ffsIndex items = [] ∧
    Reads ignoreDefaultValues strToVal bytes rawFlag cur items e ∧
    RecordAt ignoreDefaultValues strToVal bytes rawFlag e (some (.index found)) mid

/-- From a place on the records lead to no block, or nothing is there. -/
def NoIndexFrom (cur : Cursor) : Prop :=
  (bytes.length < cur.pos ∧ cur.pos < 2 ^ 32) ∨
    cur.pos ≤ bytes.length ∧ ∃ items e, recordsFrom .ffsIndex items = [] ∧
      Reads ignoreDefaultValues strToVal bytes rawFlag cur items e ∧
      NoIndexAt ignoreDefaultValues strToVal bytes rawFlag e

/-- From a place on comments and data records lead to a format. -/
def FormatFrom (cur mid : Cursor) : Prop :=
  ∃ items e id rep, items.dropWhile (·.isSkipped) = [] ∧
    Reads ignoreDefaultValues strToVal bytes rawFlag cur items e ∧
    RecordAt ignoreDefaultValues strToVal bytes rawFlag e (some (.format id rep)) mid

/-- A block stands where it is said to, and the last one fits into the memory of a block. -/
def BlockAt (item : FFSIndexItem) : Prop :=
  ∃ place rest, item.thisIndexFpos = (place : Nat) ∧ HeadAt bytes place 0x4 (4 + rest) ∧
    place + 4 + rest ≤ bytes.length ∧
    (item.nextIndexOffset = bytes.length → 4 + rest ≤ INDEX_BLOCK_SIZE)

/-! ## The scans -/

/-- The formats among the elements of a block are where the elements tell. -/
inductive FormatsRead : Cursor → List FFSIndexElement → Cursor → Prop where
  | nil (cur : Cursor) : FormatsRead cur [] cur
  | skip {cur cur' : Cursor} {elem : FFSIndexElement} {elements : List FFSIndexElement}
      (htype : elem.type ≠ some .ffsFormat) (hothers : FormatsRead cur elements cur') :
      FormatsRead cur (elem :: elements) cur'
  | format {cur mid cur' : Cursor} {elem : FFSIndexElement} {elements : List FFSIndexElement}
      {p : Nat} (htype : elem.type = some .ffsFormat) (hfpos : elem.fpos.toInt = p)
      (hformat : FormatFrom ignoreDefaultValues strToVal bytes rawFlag { cur with pos := p } mid)
      (hothers : FormatsRead mid elements cur') : FormatsRead cur (elem :: elements) cur'

/-- The blocks from the last one on, with the formats that they list, up to the one that links to
the end of the file. -/
inductive Scans : Cursor → Cursor → Prop where
  | last {cur cur' : Cursor} {tail : FFSIndexItem} (htail : cur.indexes.getLast? = some tail)
      (hformats : FormatsRead ignoreDefaultValues strToVal bytes rawFlag cur tail.elements cur')
      (hlink : tail.nextIndexOffset = bytes.length) : Scans cur cur'
  | more {cur mid next cur' : Cursor} {tail found : FFSIndexItem} {q : Nat}
      (htail : cur.indexes.getLast? = some tail)
      (hformats : FormatsRead ignoreDefaultValues strToVal bytes rawFlag cur tail.elements mid)
      (hlink : tail.nextIndexOffset = q) (hq : q ≠ bytes.length)
      (hfound : IndexFrom ignoreDefaultValues strToVal bytes rawFlag { mid with pos := q } found
        next)
      (hmore : Scans next cur') : Scans cur cur'

/-- The blocks from the last one on, up to one that has a data record, or `none` where the next
block cannot be read before. -/
inductive Reaches (dataItem : Int) : Cursor → Option Cursor → Prop where
  | here {cur : Cursor} {tail : FFSIndexItem} (htail : cur.indexes.getLast? = some tail)
      (hitem : dataItem ≤ tail.lastDataCount) : Reaches dataItem cur (some cur)
  | missing {cur : Cursor} {tail : FFSIndexItem} {q : Nat}
      (htail : cur.indexes.getLast? = some tail) (hitem : tail.lastDataCount < dataItem)
      (hlink : tail.nextIndexOffset = q)
      (hmissing : NoIndexFrom ignoreDefaultValues strToVal bytes rawFlag { cur with pos := q }) :
      Reaches dataItem cur none
  | more {cur next : Cursor} {place : Option Cursor} {tail found : FFSIndexItem} {q : Nat}
      (htail : cur.indexes.getLast? = some tail) (hitem : tail.lastDataCount < dataItem)
      (hlink : tail.nextIndexOffset = q)
      (hfound : IndexFrom ignoreDefaultValues strToVal bytes rawFlag { cur with pos := q } found
        next)
      (hmore : Reaches dataItem next place) : Reaches dataItem cur place

/-- The blocks from the last one on, up to one whose last element is not in front of a position,
or a link that `lseek` rejects. -/
inductive Covers (fpos : Int) : Cursor → Prop where
  | here {cur : Cursor} {tail : FFSIndexItem} {last : FFSIndexElement}
      (htail : cur.indexes.getLast? = some tail) (hlast : tail.elements.getLast? = some last)
      (hfpos : fpos ≤ last.fpos.toInt) : Covers fpos cur
  | rejected {cur : Cursor} {tail : FFSIndexItem} {last : FFSIndexElement}
      (htail : cur.indexes.getLast? = some tail) (hlast : tail.elements.getLast? = some last)
      (hfpos : last.fpos.toInt < fpos) (hlink : tail.nextIndexOffset = 2 ^ 32 - 1) :
      Covers fpos cur
  | more {cur next : Cursor} {tail found : FFSIndexItem} {last : FFSIndexElement} {q : Nat}
      (htail : cur.indexes.getLast? = some tail) (hlast : tail.elements.getLast? = some last)
      (hfpos : last.fpos.toInt < fpos) (hlink : tail.nextIndexOffset = q)
      (hfound : IndexFrom ignoreDefaultValues strToVal bytes rawFlag { cur with pos := q } found
        next)
      (hmore : Covers fpos next) : Covers fpos cur

/-- `FFSset_fpos` has to scan the index only of an indexed file. -/
def SetsFpos (fpos : Int) (cur : Cursor) : Prop :=
  cur.org = .indexed → Covers ignoreDefaultValues strToVal bytes rawFlag fpos cur

/-- The first block that goes as far as a data record lists it, and its position can be set. -/
def Lists (dataItem : Int) (cur : Cursor) : Prop :=
  ∃ index elem, cur.indexes.find? (dataItem ≤ ·.lastDataCount) = some index ∧
    dataElement (dataItem - index.startDataCount + 1) none index.elements = some elem ∧
    SetsFpos ignoreDefaultValues strToVal bytes rawFlag elem.fpos.toInt cur

/-- A file that is not indexed, or all of whose blocks are read, where the last one lists something
that does not stand in front of it. -/
inductive Opens (cur : Cursor) : List FFSIndexItem → Prop where
  | unindexed {items : List FileItem} {e : Cursor} (hnone : recordsFrom .ffsIndex items = [])
      (hreads : Reads ignoreDefaultValues strToVal bytes rawFlag cur items e)
      (hends : EndsAt ignoreDefaultValues strToVal bytes rawFlag e) : Opens cur []
  | indexed {mid cur' : Cursor} {found : FFSIndexItem}
      (hfound : IndexFrom ignoreDefaultValues strToVal bytes rawFlag cur found mid)
      (hscans : Scans ignoreDefaultValues strToVal bytes rawFlag { mid with org := .indexed }
        cur')
      {tail : FFSIndexItem} {last : FFSIndexElement} (htail : cur'.indexes.getLast? = some tail)
      (hlast : tail.elements.getLast? = some last)
      (hbehind : tail.thisIndexFpos ≤ last.fpos.toInt) : Opens cur cur'.indexes

end

section

variable {ignoreDefaultValues : Bool}
  {strToVal : List UInt8 → FMDataType → Int32 → Option (List UInt8)} {bytes : List UInt8}
  {rawFlag : Bool} {cur e mid : Cursor}

/-! ## What the records keep -/

theorem HeadAt.within {pos kind rest : Nat} (h : HeadAt bytes pos kind rest) :
    pos + 4 ≤ bytes.length := by
  obtain ⟨chunk, hword, -⟩ := h
  exact (beValue_of_word hword).1

theorem HeadAt.rest_lt {pos kind rest : Nat} (h : HeadAt bytes pos kind rest) :
    rest < 2 ^ 31 := by
  obtain ⟨chunk, -, -, hrest⟩ := h
  omega

theorem Reads.pos_le {items : List FileItem}
    (h : Reads ignoreDefaultValues strToVal bytes rawFlag cur items e) : cur.pos ≤ e.pos := by
  induction h with
  | refl => exact Nat.le_refl _
  | drop hrecord _ ih =>
    have hmoves := RecordAt.moves hrecord
    omega
  | item hrecord _ ih =>
    have hmoves := RecordAt.moves hrecord
    omega

/-- Only an index block is added to the indexes. -/
theorem RecordAt.keeps_indexes {item : Option FileItem}
    (h : RecordAt ignoreDefaultValues strToVal bytes rawFlag cur item mid)
    (hitem : ∀ i, item = some i → i.type ≠ .ffsIndex) : mid.indexes = cur.indexes := by
  cases h with
  | index => exact absurd rfl (hitem _ rfl)
  | _ => rfl

theorem RecordAt.adds_index {found : FFSIndexItem}
    (h : RecordAt ignoreDefaultValues strToVal bytes rawFlag cur (some (.index found)) mid) :
    mid.indexes = cur.indexes ++ [found] := by
  cases h
  rfl

theorem Reads.keeps_indexes {items : List FileItem}
    (h : Reads ignoreDefaultValues strToVal bytes rawFlag cur items e)
    (hitems : ∀ i ∈ items, i.type ≠ .ffsIndex) : e.indexes = cur.indexes := by
  induction h with
  | refl => rfl
  | drop hrecord _ ih =>
    refine (ih hitems).trans (RecordAt.keeps_indexes hrecord fun i hi => ?_)
    cases hi
  | item hrecord _ ih =>
    refine (ih fun i hi => hitems i (List.mem_cons_of_mem _ hi)).trans
      (RecordAt.keeps_indexes hrecord fun i hi => ?_)
    cases hi
    exact hitems _ List.mem_cons_self

theorem no_index_of_recordsFrom {items : List FileItem}
    (h : recordsFrom .ffsIndex items = []) : ∀ i ∈ items, i.type ≠ .ffsIndex := by
  intro i hi
  exact of_decide_eq_true (List.dropWhile_eq_nil_iff.mp h i hi)

theorem no_index_of_skipped {items : List FileItem}
    (h : items.dropWhile (·.isSkipped) = []) : ∀ i ∈ items, i.type ≠ .ffsIndex := by
  intro i hi htype
  have hskipped := of_decide_eq_true (List.dropWhile_eq_nil_iff.mp h i hi)
  rw [htype] at hskipped
  rcases hskipped with heq | heq <;> cases heq

namespace IndexFrom

variable {found : FFSIndexItem}

theorem within (h : IndexFrom ignoreDefaultValues strToVal bytes rawFlag cur found mid) :
    cur.pos ≤ bytes.length := by
  obtain ⟨items, e, -, hreads, hrecord⟩ := h
  have hle := Reads.pos_le hreads
  have hmoves := RecordAt.moves hrecord
  omega

theorem adds_index (h : IndexFrom ignoreDefaultValues strToVal bytes rawFlag cur found mid) :
    mid.indexes = cur.indexes ++ [found] := by
  obtain ⟨items, e, hnone, hreads, hrecord⟩ := h
  rw [RecordAt.adds_index hrecord,
    Reads.keeps_indexes hreads (no_index_of_recordsFrom hnone)]

end IndexFrom

theorem IndexFrom.blockAt {found : FFSIndexItem}
    (h : IndexFrom ignoreDefaultValues strToVal bytes rawFlag cur found mid) :
    BlockAt bytes found := by
  obtain ⟨items, e, -, -, hrecord⟩ := h
  cases hrecord with
  | index hhead hblock hparse hlast =>
    exact ⟨e.pos, _, rfl, hhead, (take_of_span hblock).1, hlast⟩

namespace FormatFrom

theorem within (h : FormatFrom ignoreDefaultValues strToVal bytes rawFlag cur mid) :
    cur.pos ≤ bytes.length := by
  obtain ⟨items, e, id, rep, -, hreads, hrecord⟩ := h
  have hle := Reads.pos_le hreads
  have hmoves := RecordAt.moves hrecord
  omega

theorem keeps_indexes (h : FormatFrom ignoreDefaultValues strToVal bytes rawFlag cur mid) :
    mid.indexes = cur.indexes := by
  obtain ⟨items, e, id, rep, hskipped, hreads, hrecord⟩ := h
  have hformat : ∀ i, some (FileItem.format id rep) = some i → i.type ≠ .ffsIndex := by
    intro i hi
    cases hi
    exact fun heq => nomatch heq
  rw [RecordAt.keeps_indexes hrecord hformat,
    Reads.keeps_indexes hreads (no_index_of_skipped hskipped)]

end FormatFrom

theorem FormatsRead.keeps_tail {elements : List FFSIndexElement} {cur' : Cursor}
    (h : FormatsRead ignoreDefaultValues strToVal bytes rawFlag cur elements cur')
    {tail : FFSIndexItem} (htail : cur.indexes.getLast? = some tail) :
    cur'.indexes.getLast? = some tail := by
  induction h with
  | nil => exact htail
  | skip _ _ ih => exact ih htail
  | format _ _ hformat _ ih =>
    refine ih ?_
    rw [hformat.keeps_indexes]
    exact htail

/-- The last of the blocks stands where it is said to, and links to the end of the file. -/
theorem Scans.blockAt {cur' : Cursor}
    (h : Scans ignoreDefaultValues strToVal bytes rawFlag cur cur')
    (hblock : ∀ tail, cur.indexes.getLast? = some tail → BlockAt bytes tail) {tail : FFSIndexItem}
    (htail : cur'.indexes.getLast? = some tail) :
    BlockAt bytes tail ∧ tail.nextIndexOffset = bytes.length := by
  induction h with
  | last hlast hformats hlink =>
    rw [hformats.keeps_tail hlast] at htail
    cases htail
    exact ⟨hblock _ hlast, hlink⟩
  | @more cur mid next cur' _ found q hlast hformats hlink hq hfound _ ih =>
    refine ih (fun last hnext => ?_) htail
    rw [hfound.adds_index, List.getLast?_concat] at hnext
    cases hnext
    exact hfound.blockAt

end

namespace FFSReader

section

variable (ignoreDefaultValues : Bool)
  (strToVal : List UInt8 → FMDataType → Int32 → Option (List UInt8)) (bytes : List UInt8)
  (rawFlag : Bool)

/-- The head of a record was read. -/
def HasHead (item : FileItem) (mid : Cursor) (r : FFSReader) : Prop :=
  r.readAhead = true ∧ r.Peeked bytes rawFlag item mid

/-- The head of a block was read. -/
structure HasIndexHead (rest : Nat) (cur : Cursor) (r : FFSReader) : Prop where
  stands : r.Stands bytes rawFlag cur
  ahead : r.readAhead = true
  type : r.nextRecordType = some .ffsIndex
  len : r.nextDataLen = rest

/-- A reader in front of a block, perhaps with records before it. -/
def FindsIndex (r : FFSReader) (found : FFSIndexItem) (mid : Cursor) : Prop :=
  ∃ items e, recordsFrom .ffsIndex items = [] ∧
    RecordAt ignoreDefaultValues strToVal bytes rawFlag e (some (.index found)) mid ∧
    Heading ignoreDefaultValues strToVal bytes rawFlag (HasHead bytes rawFlag (.index found) mid) e
      r items

/-- A reader with no block in front of it. -/
inductive FindsNoIndex (r : FFSReader) : Cursor → Prop where
  | ends {items : List FileItem} {e : Cursor} (hnone : recordsFrom .ffsIndex items = [])
      (hends : EndsAt ignoreDefaultValues strToVal bytes rawFlag e)
      (hheading : Heading ignoreDefaultValues strToVal bytes rawFlag
        (AtEnd bytes rawFlag e.indexes) e r items) : FindsNoIndex r e
  | cut {items : List FileItem} {e : Cursor} {rest : Nat}
      (hnone : recordsFrom .ffsIndex items = []) (hhead : HeadAt bytes e.pos 0x4 rest)
      (hrest : 4 < rest) (hcut : bytes.length < e.pos + rest)
      (hheading : Heading ignoreDefaultValues strToVal bytes rawFlag
        (HasIndexHead bytes rawFlag rest { e with pos := e.pos + 4 }) e r items) :
      FindsNoIndex r e

/-- A reader for which the blocks lead to a data record, or it is found out that they do not. -/
inductive Seeks (dataItem : Int) (r : FFSReader) : Prop where
  | negative (h : dataItem < 0)
  | unindexed {e : Cursor} (hr : r.indexes = []) (he : e.indexes = [])
      (hfinds : FindsNoIndex ignoreDefaultValues strToVal bytes rawFlag r e)
  | first {found : FFSIndexItem} {mid : Cursor} {place : Option Cursor} (hr : r.indexes = [])
      (hmid : mid.indexes ≠ [])
      (hfinds : FindsIndex ignoreDefaultValues strToVal bytes rawFlag r found mid)
      (hreaches : Reaches ignoreDefaultValues strToVal bytes rawFlag dataItem mid place)
      (hplace : ∀ cur', place = some cur' →
        Lists ignoreDefaultValues strToVal bytes rawFlag dataItem cur')
  | further {cur : Cursor} {place : Option Cursor} (hstands : r.Stands bytes rawFlag cur)
      (hr : r.indexes ≠ [])
      (hreaches : Reaches ignoreDefaultValues strToVal bytes rawFlag dataItem cur place)
      (hplace : ∀ cur', place = some cur' →
        Lists ignoreDefaultValues strToVal bytes rawFlag dataItem cur')

end

variable {ignoreDefaultValues : Bool}
  {strToVal : List UInt8 → FMDataType → Int32 → Option (List UInt8)} {bytes : List UInt8}
  {rawFlag : Bool} {r : FFSReader} {cur e mid : Cursor}

/-! ## Destinations -/

theorem destination_of_record (hsmall : SmallFile bytes) {item : FileItem}
    (hrecord : RecordAt ignoreDefaultValues strToVal bytes rawFlag e (some item) mid) :
    Destination ignoreDefaultValues strToVal bytes rawFlag e (HasHead bytes rawFlag item mid) where
  arrives h fuel := by
    obtain ⟨r', hnext, hahead, hpeeked⟩ :=
      next_record ignoreDefaultValues strToVal hsmall h hrecord fuel
    exact ⟨_, r', hnext, hahead, hpeeked⟩
  stays hpos := by
    have hmoves := RecordAt.moves hrecord
    omega
  keeps h fuel := ⟨_, _, next_of_ahead h.2.status h.1 fuel, h⟩

/-- The head of a block is read whether or not it is cut off. -/
theorem next_indexHead (ignoreDefaultValues : Bool)
    (strToVal : List UInt8 → FMDataType → Int32 → Option (List UInt8))
    (h : r.Between bytes rawFlag cur) {rest : Nat}
    (hhead : HeadAt bytes cur.pos 0x4 rest) (fuel : Nat) :
    ∃ r', r.next ignoreDefaultValues strToVal (fuel + 1) = .ok (.ffsIndex, r') ∧
      HasIndexHead bytes rawFlag rest { cur with pos := cur.pos + 4 } r' := by
  have hread := readHead_index h.stands hhead
  let r' : FFSReader := { r.withDisk ⟨bytes, cur.pos + 4⟩ with
    nextRecordType := some .ffsIndex, nextDataLen := rest, readAhead := true }
  have hstands : r'.Stands bytes rawFlag { cur with pos := cur.pos + 4 } :=
    h.stands.moved rfl rfl rfl rfl rfl rfl rfl h.stands.buffer
  exact ⟨r', next_of_head ignoreDefaultValues strToVal h hread (by decide) fuel,
    ⟨hstands, rfl, rfl, rfl⟩⟩

theorem destination_of_indexHead {rest : Nat}
    (hhead : HeadAt bytes e.pos 0x4 rest) :
    Destination ignoreDefaultValues strToVal bytes rawFlag e
      (HasIndexHead bytes rawFlag rest { e with pos := e.pos + 4 }) where
  arrives h fuel := by
    obtain ⟨r', hnext, hreached⟩ :=
      next_indexHead ignoreDefaultValues strToVal h hhead (fuel + 4)
    exact ⟨_, r', hnext, hreached⟩
  stays hpos := by
    obtain ⟨chunk, hword, -⟩ := hhead
    have hle := (beValue_of_word hword).1
    omega
  keeps h fuel := ⟨_, _, next_of_ahead h.stands.status h.ahead fuel, h⟩

/-! ## Reading a block -/

/-- `FFSread_index` reads the head of the block it comes to, and takes it. -/
theorem readIndex_of_reached (hsmall : SmallFile bytes) {pos : Nat}
    (hdisk : r.file.disk = ⟨bytes, pos⟩) (hpos : pos < 2 ^ 31) {fuel : Nat} {r₀ r₁ : FFSReader}
    {found : Bool} (hpeek : r.peek ignoreDefaultValues strToVal fuel = .ok r₀)
    (hskip : r₀.skipTo ignoreDefaultValues strToVal fuel .ffsIndex = .ok (found, r₁)) :
    r.readIndex ignoreDefaultValues strToVal (fuel + 1) =
      if found then r₁.takeIndex bytes.length else .ok (none, r₁) := by
  obtain ⟨hend, hback⟩ := seek_back hsmall hdisk hpos
  rw [readIndex]
  dsimp only
  rw [hback, hend]
  exact bind_eq_of_eq_ok hpeek (bind_eq_of_eq_ok hskip rfl)

theorem Heading.pos_lt (hsmall : SmallFile bytes) {Q : FFSReader → Prop} {items : List FileItem}
    (h : Heading ignoreDefaultValues strToVal bytes rawFlag Q e r items)
    (hQ : Q r → ∃ pos, r.file.disk = ⟨bytes, pos⟩ ∧ pos < 2 ^ 31) :
    ∃ pos, r.file.disk = ⟨bytes, pos⟩ ∧ pos < 2 ^ 31 := by
  rcases h with ⟨cur, hbetween, -⟩ | hsettled
  · exact ⟨cur.pos, hbetween.stands.disk, lt_of_le_of_lt hbetween.within hsmall⟩
  · cases items with
    | nil => exact hQ hsettled
    | cons item items =>
      obtain ⟨-, mid, hpeeked, -⟩ := hsettled
      exact hpeeked.pos_lt hsmall

/-- A block that is found becomes the last one. -/
theorem readIndex_found (hsmall : SmallFile bytes) {found : FFSIndexItem}
    (h : FindsIndex ignoreDefaultValues strToVal bytes rawFlag r found mid) {fuel : Nat}
    (hfuel : 2 * bytes.length + 11 ≤ fuel) :
    ∃ r', r.readIndex ignoreDefaultValues strToVal fuel = .ok (some found, r') ∧
      r'.Between bytes rawFlag mid := by
  obtain ⟨items, e, hnone, hrecord, hheading⟩ := h
  obtain ⟨k, rfl⟩ : ∃ k, fuel = k + 1 := ⟨fuel - 1, by omega⟩
  obtain ⟨pos, hdisk, hpos⟩ := hheading.pos_lt hsmall fun hQ => hQ.2.pos_lt hsmall
  obtain ⟨r₀, r₁, fuel', hpeek, hskip, hfuel', hreached⟩ := reach_heading hsmall .ffsIndex
    (fun _ => destination_of_record hsmall hrecord) hheading (show _ ≤ k by omega)
  rw [hnone] at hreached
  obtain ⟨-, hpeeked⟩ := hreached
  obtain ⟨j, rfl⟩ : ∃ j, fuel' = j + 1 := ⟨fuel' - 1, by omega⟩
  obtain ⟨r', htake, hbetween⟩ := takeIndex_spec hsmall hpeeked
  refine ⟨r', ?_, hbetween⟩
  rw [readIndex_of_reached hsmall hdisk hpos hpeek
    (hskip.trans (skipTo_of_type hpeeked.type j))]
  exact htake

/-- A block that is cut off is not taken, and its head stays read. -/
theorem takeIndex_cut (hsmall : SmallFile bytes) {rest : Nat} (hrest : 4 < rest)
    (hsize : rest < 2 ^ 31) (hcut : bytes.length < cur.pos + (rest - 4))
    (h : HasIndexHead bytes rawFlag rest cur r) (fileEnd : Int) :
    ∃ r' pos, r.takeIndex fileEnd = .ok (none, r') ∧
      HasIndexHead bytes rawFlag rest { cur with pos } r' := by
  let r₁ : FFSReader := { r with file := updateFpos r.file }
  have hdisk : r₁.file.disk = ⟨bytes, cur.pos⟩ := (updateFpos_disk r.file).trans h.stands.disk
  have horg : r₁.file.fileOrg = r.file.fileOrg := updateFpos_fileOrg r.file
  have hcur : r₁.file.curIndex = r.file.curIndex := updateFpos_curIndex r.file
  obtain ⟨count, hread, hcount⟩ := Disk.read_cut hsmall hcut
  have hfunc : r₁.readFunc (r.nextDataLen - 4) ((r.nextDataLen : Int) - 4) =
      .ok ((bytes.drop cur.pos).take (rest - 4), count, r₁.withDisk ⟨bytes, max cur.pos bytes.length⟩) := by
    rw [h.len, show (rest : Int) - 4 = ((rest - 4 : Nat) : Int) by omega]
    exact readFunc_eq hdisk (Nat.le_refl _) hread
  have hstands : (r₁.withDisk ⟨bytes, max cur.pos bytes.length⟩).Stands bytes rawFlag
      { cur with pos := max cur.pos bytes.length } :=
    h.stands.moved rfl rfl ((withDisk_fileOrg r₁ _).trans horg)
      ((withDisk_curIndex r₁ _).trans hcur) rfl rfl rfl h.stands.buffer
  refine ⟨r₁.withDisk ⟨bytes, max cur.pos bytes.length⟩, _, ?_,
    ⟨hstands, h.ahead, h.type, h.len⟩⟩
  refine bind_eq_of_eq_ok hfunc ?_
  dsimp only
  rw [if_pos]
  · rfl
  · rw [h.len]
    have hne := hcount (by omega) (by omega)
    omega

/-- Where no block is found the last one stays the last. -/
theorem readIndex_missing (hsmall : SmallFile bytes)
    (h : FindsNoIndex ignoreDefaultValues strToVal bytes rawFlag r e) {fuel : Nat}
    (hfuel : 2 * bytes.length + 11 ≤ fuel) :
    ∃ r', r.readIndex ignoreDefaultValues strToVal fuel = .ok (none, r') ∧
      r'.indexes = e.indexes := by
  obtain ⟨k, rfl⟩ : ∃ k, fuel = k + 1 := ⟨fuel - 1, by omega⟩
  cases h with
  | @ends items _ hnone hends hheading =>
    obtain ⟨pos, hdisk, hpos⟩ := hheading.pos_lt hsmall fun ⟨cur, hfinished, _⟩ =>
      ⟨cur.pos, hfinished.stands.disk, lt_of_le_of_lt hfinished.atEnd.le hsmall⟩
    obtain ⟨r₀, r₁, fuel', hpeek, hskip, hfuel', hreached⟩ := reach_heading hsmall .ffsIndex
      (fun _ => destination_of_ends hsmall hends) hheading (show _ ≤ k by omega)
    rw [hnone] at hreached
    obtain ⟨j, rfl⟩ : ∃ j, fuel' = j + 3 := ⟨fuel' - 3, by omega⟩
    obtain ⟨r', hskip', cur, hfinished, hindexes⟩ :=
      @skipTo_atEnd ignoreDefaultValues strToVal _ _ _ hsmall _ hreached .ffsIndex (by decide) j
    refine ⟨r', ?_, hfinished.stands.indexes.trans hindexes⟩
    rw [readIndex_of_reached hsmall hdisk hpos hpeek (hskip.trans hskip')]
    rfl
  | @cut items _ rest hnone hhead hrest hcut hheading =>
    obtain ⟨pos, hdisk, hpos⟩ := hheading.pos_lt hsmall fun hQ =>
      ⟨e.pos + 4, hQ.stands.disk, lt_of_le_of_lt hhead.within hsmall⟩
    obtain ⟨r₀, r₁, fuel', hpeek, hskip, hfuel', hreached⟩ := reach_heading hsmall .ffsIndex
      (fun _ => destination_of_indexHead hhead) hheading (show _ ≤ k by omega)
    rw [hnone] at hreached
    obtain ⟨j, rfl⟩ : ∃ j, fuel' = j + 1 := ⟨fuel' - 1, by omega⟩
    have hshort : bytes.length < e.pos + 4 + (rest - 4) := by omega
    obtain ⟨r', pos', htake, hcut'⟩ :=
      takeIndex_cut hsmall hrest hhead.rest_lt hshort hreached bytes.length
    refine ⟨r', ?_, hcut'.stands.indexes⟩
    rw [readIndex_of_reached hsmall hdisk hpos hpeek
      (hskip.trans (skipTo_of_type hreached.type j))]
    exact htake

/-! ## Going to a link -/

theorem seekSet_eq (h : r.Stands bytes rawFlag cur) (q : Nat) :
    (r.seekSet q).2 = r.withDisk ⟨bytes, q⟩ := by
  rw [seekSet, h.disk]
  exact congrArg r.withDisk (Disk.lseek_to bytes cur.pos q)

theorem seekSet_within (hsmall : SmallFile bytes) {q : Nat} (hq : q ≤ bytes.length) :
    (r.seekSet q).1 = true := by
  have hreturns : (r.file.disk.lseek q .set).1 = q := by
    simp only [Disk.lseek, signed_small (lt_of_le_of_lt hq hsmall)]
    rw [if_neg (by omega)]
  have hne : (q : Int) ≠ -1 := by omega
  rw [seekSet]
  dsimp only
  rw [hreturns]
  exact decide_eq_true hne

theorem between_seekSet (h : r.Stands bytes rawFlag cur) {q : Nat} (hq : q ≤ bytes.length) :
    { (r.seekSet q).2 with readAhead := false }.Between bytes rawFlag { cur with pos := q } := by
  rw [seekSet_eq h q]
  have hstands : (r.withDisk ⟨bytes, q⟩).Stands bytes rawFlag { cur with pos := q } :=
    h.moved rfl rfl rfl rfl rfl rfl rfl h.buffer
  exact ⟨hstands.marked, rfl, hq⟩

theorem Between.seekSet (h : r.Between bytes rawFlag cur) {q : Nat} (hq : q ≤ bytes.length) :
    (r.seekSet q).2.Between bytes rawFlag { cur with pos := q } := by
  have hbetween := between_seekSet h.stands hq
  rw [seekSet_eq h.stands q] at hbetween ⊢
  exact ⟨hbetween.stands.marked, h.ahead, hq⟩

/-- `FFSread_index` at a link. -/
theorem readIndex_link (hsmall : SmallFile bytes) (h : r.Between bytes rawFlag cur)
    {found : FFSIndexItem}
    (hfound : IndexFrom ignoreDefaultValues strToVal bytes rawFlag cur found mid) {fuel : Nat}
    (hfuel : 2 * bytes.length + 11 ≤ fuel) :
    ∃ r', r.readIndex ignoreDefaultValues strToVal fuel = .ok (some found, r') ∧
      r'.Between bytes rawFlag mid := by
  obtain ⟨items, e, hnone, hreads, hrecord⟩ := hfound
  exact readIndex_found hsmall ⟨items, e, hnone, hrecord, .inl ⟨cur, h, hreads⟩⟩ hfuel

/-- `FFSread_format` at the position of an element. -/
theorem readFormat_link (hsmall : SmallFile bytes) (h : r.Between bytes rawFlag cur)
    (hfound : FormatFrom ignoreDefaultValues strToVal bytes rawFlag cur mid) {fuel : Nat}
    (hfuel : 2 * bytes.length + 11 ≤ fuel) :
    ∃ handle r', r.readFormat ignoreDefaultValues strToVal fuel = .ok (handle, r') ∧
      r'.Between bytes rawFlag mid := by
  obtain ⟨items, e, id, rep, hskipped, hreads, hrecord⟩ := hfound
  obtain ⟨k, rfl⟩ : ∃ k, fuel = k + 1 := ⟨fuel - 1, by omega⟩
  obtain ⟨r₀, r₁, j, hpeek, hskip, hreached⟩ := reachFormat_heading hsmall
    (fun _ => destination_of_record hsmall hrecord) (.inl ⟨cur, h, hreads⟩)
    (show _ ≤ k by omega)
  rw [hskipped] at hreached
  obtain ⟨-, hpeeked⟩ := hreached
  have hfound : r₁.skipToFormat ignoreDefaultValues strToVal (j + 1) = .ok (true, r₁) := by
    rw [skipToFormat, hpeeked.type]
    rfl
  obtain ⟨handle, r', htake, hbetween, -⟩ := takeFormat_spec (.inl hsmall) hpeeked
  refine ⟨handle, r', ?_, hbetween⟩
  rw [readFormat]
  exact bind_eq_of_eq_ok hpeek (bind_eq_of_eq_ok (hskip.trans hfound) htake)

theorem signed_high {n : Nat} (hlow : 2 ^ 31 ≤ n) (hhigh : n < 2 ^ 32) :
    signed 4 (unsigned 4 (n : Int)) = (n : Int) - 2 ^ 32 := by
  have hunsigned : unsigned 4 (n : Int) = n := by
    rw [unsigned]
    omega
  rw [hunsigned, signed, Int.bmod]
  split <;> omega

/-- A position that does not come back as it was is the one of the end. -/
theorem seek_back_past (hsmall : SmallFile bytes) {pos : Nat} (hpast : bytes.length ≤ pos)
    (hpos : pos < 2 ^ 32) (disk : Disk) (hdisk : disk = ⟨bytes, pos⟩) :
    ∃ q, bytes.length ≤ q ∧
      (((disk.lseek 0 .cur).2.lseek 0 .fromEnd).2.lseek (disk.lseek 0 .cur).1 .set).2 =
        ⟨bytes, q⟩ := by
  subst hdisk
  by_cases hlow : pos < 2 ^ 31
  · rw [Disk.lseek_here hlow, Disk.lseek_end pos hsmall]
    exact ⟨pos, hpast, Disk.lseek_to bytes _ pos⟩
  · have hhere : Disk.lseek ⟨bytes, pos⟩ 0 .cur = ((pos : Int) - 2 ^ 32, ⟨bytes, pos⟩) := by
      simp only [Disk.lseek, Int.add_zero, Int.toNat_natCast, signed_high (by omega) hpos]
      rw [if_neg (by omega)]
    rw [hhere, Disk.lseek_end pos hsmall]
    refine ⟨bytes.length, Nat.le_refl _, ?_⟩
    simp only [Disk.lseek]
    rw [if_pos (by omega)]

theorem next_past (hsmall : SmallFile bytes) (hstatus : r.status = .openForRead)
    (hahead : r.readAhead = false) {pos : Nat} (hdisk : r.file.disk = ⟨bytes, pos⟩)
    (hpast : bytes.length ≤ pos) (fuel : Nat) :
    r.next ignoreDefaultValues strToVal (fuel + 1) = .ok (r.ended.1, r.ended.2) := by
  have hword : word bytes pos = none := word_eq_none_iff.mpr (by omega)
  have hhead : r.readHead = .ok (none, r) := by
    refine bind_eq_of_eq_ok (getAtomicInt_none hsmall hdisk hword) ?_
    rw [Nat.max_eq_left hpast, ← hdisk]
    rfl
  exact next_of_none ignoreDefaultValues strToVal hstatus hahead hhead fuel

/-- Behind the end of the file no block is found. -/
theorem readIndex_past (hsmall : SmallFile bytes) (hstatus : r.status = .openForRead)
    (hahead : r.readAhead = false) {pos : Nat} (hdisk : r.file.disk = ⟨bytes, pos⟩)
    (hpast : bytes.length ≤ pos) (hpos : pos < 2 ^ 32) (fuel : Nat) :
    ∃ r', r.readIndex ignoreDefaultValues strToVal (fuel + 4) = .ok (none, r') ∧
      r'.indexes = r.indexes := by
  obtain ⟨q, hq, hback⟩ := seek_back_past hsmall hpast hpos r.file.disk hdisk
  let r₁ : FFSReader := r.withDisk ⟨bytes, q⟩
  have hahead₁ : r₁.readAhead = false := hahead
  have hnext : ∀ k, r₁.next ignoreDefaultValues strToVal (k + 1) = .ok (.ffsEnd, r₁.ended.2) :=
    next_past hsmall hstatus hahead rfl hq
  have hagain : ∀ k, r₁.ended.2.next ignoreDefaultValues strToVal (k + 1) =
      .ok (.ffsEnd, r₁.ended.2) := next_past hsmall hstatus hahead rfl hq
  have hskip : r₁.ended.2.skipTo ignoreDefaultValues strToVal (fuel + 3) .ffsIndex =
      .ok (false, r₁.ended.2) := by
    have hconsume : r₁.ended.2.consumeNextItem ignoreDefaultValues strToVal (fuel + 2) =
        .ok (false, r₁.ended.2) := by
      rw [consumeNextItem]
      exact bind_eq_of_eq_ok (hagain fuel) rfl
    have hother : ¬ r₁.ended.2.nextRecordType = some .ffsIndex := by
      intro heq
      cases heq
    rw [skipTo, if_neg hother]
    exact bind_eq_of_eq_ok hconsume rfl
  refine ⟨r₁.ended.2, ?_, rfl⟩
  rw [readIndex]
  dsimp only
  rw [hback]
  have hpeek : r₁.peek ignoreDefaultValues strToVal (fuel + 3) = .ok r₁.ended.2 :=
    peek_of_next ignoreDefaultValues strToVal hahead₁ (hnext (fuel + 1))
  exact bind_eq_of_eq_ok hpeek (bind_eq_of_eq_ok hskip rfl)

theorem findsNoIndex_of_between (h : r.Between bytes rawFlag cur) {items : List FileItem}
    (hnone : recordsFrom .ffsIndex items = [])
    (hreads : Reads ignoreDefaultValues strToVal bytes rawFlag cur items e)
    (hmissing : NoIndexAt ignoreDefaultValues strToVal bytes rawFlag e) :
    FindsNoIndex ignoreDefaultValues strToVal bytes rawFlag r e := by
  cases hmissing with
  | ends hends => exact .ends hnone hends (.inl ⟨cur, h, hreads⟩)
  | cut hhead hrest hcut => exact .cut hnone hhead hrest hcut (.inl ⟨cur, h, hreads⟩)

/-- `FFSread_index` at a link that leads to no block. -/
theorem readIndex_noLink (hsmall : SmallFile bytes) (h : r.Stands bytes rawFlag cur) {q : Nat}
    (hmissing : NoIndexFrom ignoreDefaultValues strToVal bytes rawFlag { cur with pos := q })
    {fuel : Nat} (hfuel : 2 * bytes.length + 11 ≤ fuel) :
    ∃ r', { (r.seekSet q).2 with readAhead := false }.readIndex ignoreDefaultValues strToVal fuel =
        .ok (none, r') ∧ r'.indexes = r.indexes := by
  rcases hmissing with ⟨hpast, hq⟩ | ⟨hwithin, items, e, hnone, hreads, hmissing⟩
  · obtain ⟨k, rfl⟩ : ∃ k, fuel = k + 4 := ⟨fuel - 4, by omega⟩
    rw [seekSet_eq h q]
    let r₁ : FFSReader := { r.withDisk ⟨bytes, q⟩ with readAhead := false }
    have hstatus : r₁.status = .openForRead := h.status
    have hahead : r₁.readAhead = false := rfl
    have hdisk : r₁.file.disk = ⟨bytes, q⟩ := rfl
    exact readIndex_past hsmall hstatus hahead hdisk hpast.le hq k
  · obtain ⟨r', hread, hindexes⟩ := readIndex_missing hsmall
      (findsNoIndex_of_between (between_seekSet h hwithin) hnone hreads hmissing) hfuel
    refine ⟨r', hread, hindexes.trans ?_⟩
    rw [Reads.keeps_indexes hreads (no_index_of_recordsFrom hnone)]
    exact h.indexes.symm

/-- The one link that `lseek` rejects. -/
theorem seekSet_rejected (r : FFSReader) : (r.seekSet (2 ^ 32 - 1)).1 = false := by
  have hhigh : signed 4 (unsigned 4 ((4294967295 : Nat) : Int)) = ((4294967295 : Nat) : Int) -
      2 ^ 32 := signed_high (by omega) (by omega)
  have hreturns : (r.file.disk.lseek (2 ^ 32 - 1) .set).1 = -1 := by
    simp only [Disk.lseek]
    rw [if_neg (by omega)]
    exact hhigh
  rw [seekSet]
  dsimp only
  rw [hreturns]
  rfl

end FFSReader

end FFS
