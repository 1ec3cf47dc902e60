import FFS.File.Index

/-!
# An index block written and read back

`stored` is what a sequence of items leaves in a block and `Lays` is what a reader
can rely on there.  The writer moves its cursor by `advance` and the parser by the
amount it computes from the item's first word.  The two cursors are compared from the
last item backwards: the end item fixes where the parser stopped, and each item then
fixes where the parser stood before it.
-/

namespace FFS

open Machine

/-- What `output_format_index` and `output_data_index` are asked to record: the file
position, the format ID and the attribute block of a data record. -/
inductive IndexEntry where
  | format (fpos : Int64) (serverId : List UInt8)
  | data (fpos : Int64) (serverId attrList : List UInt8)
deriving DecidableEq

namespace IndexEntry

def fpos : IndexEntry → Int64
  | format fpos _ => fpos
  | data fpos _ _ => fpos

def serverId : IndexEntry → List UInt8
  | format _ id => id
  | data _ id _ => id

/-- The entry at another file position. -/
def moved : IndexEntry → Int64 → IndexEntry
  | format _ id, fpos => format fpos id
  | data _ id attrs, fpos => data fpos id attrs

def bytes : IndexEntry → List UInt8
  | format fpos id => formatItemBytes fpos id
  | data fpos id attrs => dataItemBytes fpos id attrs

/-- The length `prepare_index_item` is asked for. -/
def itemLen : IndexEntry → Nat
  | format _ id => 12 + id.length
  | data _ id attrs => 12 + dataTotalLen id attrs

/-- How far the writer's cursor moves. -/
def advance : IndexEntry → Nat
  | format _ id => 12 + id.length
  | data _ id attrs => 12 + (dataTotalLen id attrs + 3) / 4 * 4

/-- The file is at the entry's position when the entry is recorded. -/
def output (f : IndexedFile) : IndexEntry → Option IndexedFile
  | format fpos id => outputFormatIndex { f with fpos } id
  | data fpos id attrs => outputDataIndex { f with fpos } id attrs

/-- The entry as a reader should see it.  No attribute list and an empty one are the
same. -/
def element : IndexEntry → FFSIndexElement
  | format fpos id => { type := some .ffsFormat, fpos, formatId := id, attrs := none }
  | data fpos id attrs =>
    { type := some .ffsData, fpos, formatId := id,
      attrs := if attrs = [] then none else some attrs }

/-- The condition under which both cursors move alike and the identifier survives being
read from the wrong place. -/
def Recovered : IndexEntry → Prop
  | format _ id => id.length % 4 = 0
  | data _ id attrs => (id.length + attrs.length) % 4 = 0 ∧
      beBytes 4 id.length ++ id.take (id.length - 4) = id

instance (e : IndexEntry) : Decidable e.Recovered := by
  cases e <;> unfold Recovered <;> infer_instance

/-- The condition under which both cursors move alike. -/
def Aligned : IndexEntry → Prop
  | format _ id => id.length % 4 = 0
  | data _ id attrs => (id.length + attrs.length) % 4 = 0

/-- The entry as the parser finds it: the identifier of a data record begins with the word that
holds its length. -/
def found : IndexEntry → FFSIndexElement
  | format fpos id => (format fpos id).element
  | data fpos id attrs => { (data fpos id attrs).element with
      formatId := beBytes 4 id.length ++ id.take (id.length - 4) }

theorem Recovered.aligned {e : IndexEntry} (h : e.Recovered) : e.Aligned := by
  cases e with
  | format fpos id => exact h
  | data fpos id attrs => exact h.1

theorem Recovered.found {e : IndexEntry} (h : e.Recovered) : e.found = e.element := by
  cases e with
  | format fpos id => rfl
  | data fpos id attrs => rw [IndexEntry.found, h.2]; rfl

@[simp] theorem moved_fpos (e : IndexEntry) : e.moved e.fpos = e := by cases e <;> rfl

@[simp] theorem moved_moved (e : IndexEntry) (p q : Int64) : (e.moved p).moved q = e.moved q := by
  cases e <;> rfl

@[simp] theorem moved_advance (e : IndexEntry) (p : Int64) : (e.moved p).advance = e.advance := by
  cases e <;> rfl

@[simp] theorem moved_serverId (e : IndexEntry) (p : Int64) :
    (e.moved p).serverId = e.serverId := by
  cases e <;> rfl

theorem moved_recovered (e : IndexEntry) (p : Int64) : (e.moved p).Recovered ↔ e.Recovered := by
  cases e <;> rfl

theorem length_bytes (e : IndexEntry) : e.bytes.length = e.itemLen := by
  cases e <;> simp [bytes, itemLen, formatItemBytes, dataItemBytes, dataTotalLen] <;> omega

theorem itemLen_le_advance (e : IndexEntry) : e.itemLen ≤ e.advance := by
  cases e <;> simp only [itemLen, advance] <;> omega

end IndexEntry

/-- The sizes of the identifiers the library makes. -/
def LibraryIdLength (id : List UInt8) : Prop :=
  id.length = 8 ∨ id.length = 10 ∨ id.length = 12

instance (id : List UInt8) : Decidable (LibraryIdLength id) :=
  inferInstanceAs (Decidable (_ ∨ _ ∨ _))

/-- Record a sequence of entries.  The second component lists the entries as they were
placed: one that begins a new block lies behind the room that is left for the block. -/
def outputEntries (f : IndexedFile) : List IndexEntry → Option (IndexedFile × List IndexEntry)
  | [] => some (f, [])
  | e :: es => do
    let prepared ← prepareIndexItem { f with fpos := e.fpos } e.itemLen
    let (g, placed) ← outputEntries (← e.output f) es
    return (g, e.moved prepared.fpos :: placed)

/-- The writer's cursor after a sequence of entries. -/
def cursorAfter (offset : Nat) (es : List IndexEntry) : Nat :=
  (es.map IndexEntry.advance).foldl (· + ·) offset

/-- The entries go behind what is in the block already, each passing the test of
`prepare_index_item`, and leave room for the end item. -/
def FollowInBlock (offset : Nat) : List IndexEntry → Prop
  | [] => offset + 4 ≤ INDEX_BLOCK_SIZE
  | e :: es => offset + e.itemLen < INDEX_BLOCK_SIZE - 8 ∧ FollowInBlock (offset + e.advance) es

/-- The entries fill one block.  The first goes into an empty block whatever its
length. -/
def PlacedInOneBlock : List IndexEntry → Prop
  | [] => True
  | e :: es => FollowInBlock (16 + e.advance) es

instance decidableFollowInBlock : (offset : Nat) → (es : List IndexEntry) →
    Decidable (FollowInBlock offset es)
  | offset, [] => inferInstanceAs (Decidable (offset + 4 ≤ INDEX_BLOCK_SIZE))
  | offset, e :: es =>
    have := decidableFollowInBlock (offset + e.advance) es
    inferInstanceAs (Decidable (offset + e.itemLen < INDEX_BLOCK_SIZE - 8 ∧
      FollowInBlock (offset + e.advance) es))

instance : (es : List IndexEntry) → Decidable (PlacedInOneBlock es)
  | [] => .isTrue trivial
  | _ :: es => inferInstanceAs (Decidable (FollowInBlock _ es))

/-- The block that `dump_index_block` writes after the entries parses to exactly the
entries that were placed in it, and the end item is where the writer left its cursor. -/
def RoundTrips (f : IndexedFile) (es : List IndexEntry) : Prop :=
  ∃ g w placed item, outputEntries f es = some (g, placed) ∧ g.curIndex = some w ∧
    parseIndexBlock (dumpedBlock g w) = some item ∧
    item.elements = placed.map IndexEntry.element ∧ item.endItemOffset = w.nextItemOffset

/-! ## What the writer leaves in the block -/

/-- The block after the entries are stored from `offset` on. -/
def stored (m : Mem) (offset : Nat) : List IndexEntry → Mem
  | [] => m
  | e :: es => stored (m.write offset e.bytes) (offset + e.advance) es

/-- The entries lie in the block from `offset` on, and the end item behind them. -/
def Lays (m : Mem) (offset : Nat) : List IndexEntry → Prop
  | [] => m.read offset 4 = beBytes 4 endItem
  | e :: es => m.read offset e.itemLen = e.bytes ∧ Lays m (offset + e.advance) es

theorem cursorAfter_cons (offset : Nat) (e : IndexEntry) (es : List IndexEntry) :
    cursorAfter offset (e :: es) = cursorAfter (offset + e.advance) es := rfl

theorem le_cursorAfter (offset : Nat) (es : List IndexEntry) :
    offset + es.length ≤ cursorAfter offset es := by
  induction es generalizing offset with
  | nil => exact Nat.le_refl _
  | cons e es ih =>
    have h := ih (offset + e.advance)
    have hadv : 12 ≤ e.advance := by cases e <;> simp [IndexEntry.advance]
    rw [cursorAfter_cons, List.length_cons]
    omega

theorem FollowInBlock.cursorAfter_le {offset : Nat} {es : List IndexEntry}
    (h : FollowInBlock offset es) : cursorAfter offset es + 4 ≤ INDEX_BLOCK_SIZE := by
  induction es generalizing offset with
  | nil => exact h
  | cons e es ih => exact ih h.2

theorem stored_read_below (m : Mem) {a n offset : Nat} (es : List IndexEntry)
    (h : a + n ≤ offset) : (stored m offset es).read a n = m.read a n := by
  induction es generalizing m offset with
  | nil => rfl
  | cons e es ih =>
    rw [stored, ih _ (by omega), Mem.read_write_of_disjoint (.inl h)]

/-- The end item and the header complete the block. -/
theorem lays_sealed {m : Mem} {offset : Nat} (es : List IndexEntry) {header : List UInt8}
    (hheader : header.length = 16) (hoffset : 16 ≤ offset) :
    Lays (((stored m offset es).write (cursorAfter offset es) (beBytes 4 endItem)).write 0 header)
      offset es := by
  induction es generalizing m offset with
  | nil =>
    rw [Lays, Mem.read_write_of_disjoint (.inr (by omega))]
    exact Mem.read_write_of_length (by simp)
  | cons e es ih =>
    refine ⟨?_, ih (by omega)⟩
    have hle := le_cursorAfter (offset + e.advance) es
    have hadv := e.itemLen_le_advance
    rw [cursorAfter_cons, Mem.read_write_of_disjoint (.inr (by omega)),
      Mem.read_write_of_disjoint (.inl (by omega)), stored, stored_read_below _ es (by omega),
      Mem.read_write_of_length e.length_bytes]

theorem output_eq_placeItem {f : IndexedFile} (hf : f.fileOrg = .indexed) (e : IndexEntry) :
    e.output f = (prepareIndexItem { f with fpos := e.fpos } e.itemLen).bind fun g =>
      placeItem g (e.moved g.fpos).bytes e.advance := by
  cases e with
  | format fpos id => exact if_neg (by simp [hf])
  | data fpos id attrs => exact if_neg (by simp [hf])

/-- A block that has room is left as it is. -/
theorem prepareIndexItem_of_room {f : IndexedFile} {w : WriteIndexInfo} {n : Nat}
    (hw : f.curIndex = some w) (hn : w.nextItemOffset + n < w.indexBlockSize - 8) :
    prepareIndexItem f n = some f := by
  have hroom : ¬ w.nextItemOffset + n ≥ w.indexBlockSize - 8 := Nat.not_le.mpr hn
  simp only [prepareIndexItem, hw, Option.isNone_some, Bool.false_eq_true, if_false,
    Option.bind_eq_bind, Option.bind_some, if_neg hroom]
  rfl

theorem initWriteIndexBlock_curIndex {f : IndexedFile} (hr : f.readIndex = none) :
    ∃ w, (initWriteIndexBlock f).curIndex = some w ∧ w.nextItemOffset = 16 ∧
      w.indexBlockSize = INDEX_BLOCK_SIZE := by
  unfold initWriteIndexBlock
  rw [hr]
  exact ⟨_, rfl, rfl, rfl⟩

theorem initWriteIndexBlock_fileOrg (f : IndexedFile) :
    (initWriteIndexBlock f).fileOrg = f.fileOrg := by
  unfold initWriteIndexBlock
  split <;> rfl

theorem initWriteIndexBlock_readIndex (f : IndexedFile) :
    (initWriteIndexBlock f).readIndex = none := by
  unfold initWriteIndexBlock
  split
  · rfl
  · assumption

/-- The file stands at the start of a block with nothing in it. -/
structure FreshBlock (f : IndexedFile) (w : WriteIndexInfo) : Prop where
  fileOrg : f.fileOrg = .indexed
  readIndex : f.readIndex = none
  curIndex : f.curIndex = some w
  nextItemOffset : w.nextItemOffset = 16
  indexBlockSize : w.indexBlockSize = INDEX_BLOCK_SIZE

theorem freshBlock_initWriteIndexBlock {f : IndexedFile} (hf : f.fileOrg = .indexed)
    (hr : f.readIndex = none) : ∃ w, FreshBlock (initWriteIndexBlock f) w := by
  obtain ⟨w, hw, hnext, hsize⟩ := initWriteIndexBlock_curIndex hr
  exact ⟨w, by rw [initWriteIndexBlock_fileOrg, hf], initWriteIndexBlock_readIndex f, hw, hnext,
    hsize⟩

theorem dumpIndexBlock_fresh {f : IndexedFile} {w : WriteIndexInfo} (hf : f.fileOrg = .indexed)
    (hr : f.readIndex = none) (hw : f.curIndex = some w) :
    ∃ g w', dumpIndexBlock f = some g ∧ FreshBlock g w' := by
  unfold dumpIndexBlock
  rw [hw]
  obtain ⟨w', hw'⟩ := freshBlock_initWriteIndexBlock (f := { f with
    disk := _, curIndex := some (sealIndexBlock f (f.disk.lseek 0 .cur).1 w) }) hf hr
  exact ⟨_, w', rfl, hw'⟩

/-- An item too long for an empty block makes the block be dumped, and the next one is
empty again. -/
theorem prepareIndexItem_of_fresh {f : IndexedFile} {w : WriteIndexInfo} (h : FreshBlock f w)
    (n : Nat) : ∃ g w', prepareIndexItem f n = some g ∧ FreshBlock g w' := by
  by_cases hn : w.nextItemOffset + n < w.indexBlockSize - 8
  · exact ⟨f, w, prepareIndexItem_of_room h.curIndex hn, h⟩
  · obtain ⟨g, w', hg, hw'⟩ := dumpIndexBlock_fresh h.fileOrg h.readIndex h.curIndex
    refine ⟨{ g with curIndex := some { w' with dataIndexStart := g.dataCount } }, _, ?_,
      hw'.fileOrg, hw'.readIndex, rfl, hw'.nextItemOffset, hw'.indexBlockSize⟩
    simp only [prepareIndexItem, h.curIndex, Option.isNone_some, Bool.false_eq_true, if_false,
      Option.bind_eq_bind, Option.bind_some, if_pos (Nat.not_lt.mp hn), hg, hw'.curIndex]
    rfl

theorem outputEntries_follow {f : IndexedFile} {w : WriteIndexInfo} {es : List IndexEntry}
    (hf : f.fileOrg = .indexed) (hw : f.curIndex = some w)
    (hsize : w.indexBlockSize = INDEX_BLOCK_SIZE) (h : FollowInBlock w.nextItemOffset es) :
    ∃ g, outputEntries f es = some (g, es) ∧ g.fileOrg = .indexed ∧
      g.curIndex = some { w with indexBlock := stored w.indexBlock w.nextItemOffset es,
                                 nextItemOffset := cursorAfter w.nextItemOffset es } := by
  induction es generalizing f w with
  | nil => exact ⟨f, rfl, hf, hw⟩
  | cons e es ih =>
    have hprep : prepareIndexItem { f with fpos := e.fpos } e.itemLen =
        some { f with fpos := e.fpos } :=
      prepareIndexItem_of_room hw (by rw [hsize]; exact h.1)
    have hplace : e.output f =
        some { f with fpos := e.fpos, curIndex := some (w.place e.bytes e.advance) } := by
      rw [output_eq_placeItem hf, hprep, Option.bind_some, IndexEntry.moved_fpos, placeItem]
      simp only [hw]
      rfl
    obtain ⟨g, hg, hgf, hgw⟩ := ih (w := w.place e.bytes e.advance)
      (f := { f with fpos := e.fpos, curIndex := some (w.place e.bytes e.advance) })
      hf rfl hsize h.2
    refine ⟨g, ?_, hgf, hgw⟩
    rw [outputEntries, hprep, hplace]
    simp only [Option.bind_eq_bind, Option.bind_some, hg, IndexEntry.moved_fpos]
    rfl

/-- A sequence that begins a block is stored in it from the first free byte on. -/
theorem outputEntries_fresh {f : IndexedFile} {w₀ : WriteIndexInfo} {es : List IndexEntry}
    (hfresh : FreshBlock f w₀) (h : PlacedInOneBlock es) :
    ∃ g w placed m, outputEntries f es = some (g, placed) ∧ g.fileOrg = .indexed ∧
      g.curIndex = some w ∧ w.indexBlockSize = INDEX_BLOCK_SIZE ∧
      w.nextItemOffset = cursorAfter 16 placed ∧ w.indexBlock = stored m 16 placed ∧
      cursorAfter 16 placed + 4 ≤ INDEX_BLOCK_SIZE ∧
      placed.map (·.moved 0) = es.map (·.moved 0) := by
  cases es with
  | nil =>
    exact ⟨f, w₀, [], w₀.indexBlock, rfl, hfresh.fileOrg, hfresh.curIndex, hfresh.indexBlockSize,
      hfresh.nextItemOffset, rfl, by decide, rfl⟩
  | cons e es =>
    have hfresh' : FreshBlock { f with fpos := e.fpos } w₀ :=
      ⟨hfresh.1, hfresh.2, hfresh.3, hfresh.4, hfresh.5⟩
    obtain ⟨p, w, hprep, hp⟩ := prepareIndexItem_of_fresh hfresh' e.itemLen
    let w' := w.place (e.moved p.fpos).bytes e.advance
    have hnext : w'.nextItemOffset = 16 + e.advance := by
      rw [← hp.nextItemOffset]
      rfl
    have hplace : e.output f = some { p with curIndex := some w' } := by
      rw [output_eq_placeItem hfresh.fileOrg, hprep, Option.bind_some, placeItem]
      simp only [hp.curIndex]
      rfl
    obtain ⟨g, hg, hgf, hgw⟩ := outputEntries_follow (f := { p with curIndex := some w' })
      (w := w') hp.fileOrg rfl hp.indexBlockSize (by rw [hnext]; exact h)
    refine ⟨g, _, e.moved p.fpos :: es, w.indexBlock, ?_, hgf, hgw, hp.indexBlockSize, ?_, ?_, ?_,
      ?_⟩
    · rw [outputEntries, hprep, hplace]
      simp only [Option.bind_eq_bind, Option.bind_some, hg]
      rfl
    · rw [cursorAfter_cons, IndexEntry.moved_advance, hnext]
    · rw [stored, IndexEntry.moved_advance, hnext, ← hp.nextItemOffset]
      rfl
    · rw [cursorAfter_cons, IndexEntry.moved_advance]
      exact FollowInBlock.cursorAfter_le h
    · simp

/-! ## What the parser finds there -/

def wordAt (m : Mem) (offset : Nat) : Nat := beValue (m.read offset 4)

theorem span_read (m : Mem) (size offset n : Nat) :
    span (m.read 0 size) offset n =
      if offset + n ≤ size then some (m.read offset n) else none := by
  rw [span, Mem.length_read]
  by_cases h : offset + n ≤ size
  · obtain ⟨rest, rfl⟩ : ∃ rest, size = offset + (n + rest) := ⟨size - offset - n, by omega⟩
    rw [if_pos h, if_pos h, Mem.read_add, Nat.zero_add, Mem.read_add,
      List.drop_left' (Mem.length_read m 0 offset), List.take_left' (Mem.length_read m offset n)]
  · rw [if_neg h, if_neg h]

theorem word_read (m : Mem) (size offset : Nat) :
    word (m.read 0 size) offset = if offset + 4 ≤ size then some (wordAt m offset) else none := by
  rw [word, span_read]
  split <;> rfl

theorem wordAt_lt (m : Mem) (offset : Nat) : wordAt m offset < 2 ^ 32 := by
  have h := beValue_lt (m.read offset 4)
  rw [Mem.length_read] at h
  simpa [wordAt] using h

theorem wordAt_of_read {m : Mem} {offset v : Nat} (h : m.read offset 4 = beBytes 4 v) :
    wordAt m offset = v % 2 ^ 32 := by
  rw [wordAt, h, beValue_beBytes]
  norm_num

theorem fposOfWords_fpos (fpos : Int64) : fposOfWords (fposHigh fpos) (fposLow fpos) = fpos := by
  rw [fposOfWords, fposHigh, fposLow, Nat.mul_comm, Nat.div_add_mod]
  simp

theorem fposOfWords_inj {high low : Nat} {fpos : Int64} (hh : high < 2 ^ 32) (hl : low < 2 ^ 32)
    (h : fposOfWords high low = fpos) : high = fposHigh fpos ∧ low = fposLow fpos := by
  have hlt : high * 2 ^ 32 + low < 2 ^ 64 := by omega
  have hval : fpos.toUInt64.toNat = high * 2 ^ 32 + low := by
    rw [← h, fposOfWords, UInt64.toUInt64_toInt64, UInt64.toNat_ofNat', Nat.mod_eq_of_lt hlt]
  rw [fposHigh, fposLow, hval]
  omega

theorem word_eq_some {m : Mem} {size offset v : Nat}
    (h : word (m.read 0 size) offset = some v) : v = wordAt m offset := by
  rw [word_read] at h
  split at h
  · exact (Option.some.inj h).symm
  · cases h

theorem span_eq_some {m : Mem} {size offset n : Nat} {bs : List UInt8}
    (h : span (m.read 0 size) offset n = some bs) : bs = m.read offset n := by
  rw [span_read] at h
  split at h
  · exact (Option.some.inj h).symm
  · cases h

theorem parseFormatItem_inv {m : Mem} {size offset head next : Nat} {e : FFSIndexElement}
    (h : parseFormatItem (m.read 0 size) offset head = some (e, next)) :
    e.type = some .ffsFormat ∧ e.formatId.length = head / 2 ^ 8 ∧
      next = offset + (e.formatId.length + 15) / 4 * 4 := by
  simp only [parseFormatItem, Option.bind_eq_bind, Option.bind_eq_some_iff] at h
  obtain ⟨high, -, low, -, id, hid, h⟩ := h
  cases h
  have hlen : id.length = head / 2 ^ 8 := by rw [span_eq_some hid, Mem.length_read]
  exact ⟨rfl, hlen, by rw [hlen]⟩

/-- What a parsed data entry says about the block. -/
structure DataItemAt (m : Mem) (offset head : Nat) (e : FFSIndexElement) (next : Nat) : Prop where
  type : e.type = some .ffsData
  fpos : e.fpos = fposOfWords (wordAt m (offset + 4)) (wordAt m (offset + 8))
  idLen : wordAt m (offset + 12) = e.formatId.length
  formatId : e.formatId = m.read (offset + 12) e.formatId.length
  totalLen : match e.attrs with
    | none => head / 2 ^ 8 ≤ e.formatId.length + 5
    | some attrs => head / 2 ^ 8 = e.formatId.length + 4 + attrs.length
  next : next = offset + (head / 2 ^ 8 + 12) / 4 * 4

theorem parseDataItem_inv {m : Mem} {size offset head next : Nat} {e : FFSIndexElement}
    (h : parseDataItem (m.read 0 size) offset head = some (e, next)) :
    DataItemAt m offset head e next := by
  simp only [parseDataItem, Option.bind_eq_bind, Option.bind_eq_some_iff] at h
  obtain ⟨high, hhigh, low, hlow, v, hv, h⟩ := h
  split at h
  · cases h
  rename_i hpos
  simp only [Option.bind_eq_some_iff] at h
  obtain ⟨attrs, hattrs, id, hid, h⟩ := h
  cases h
  obtain rfl := word_eq_some hhigh
  obtain rfl := word_eq_some hlow
  obtain rfl := word_eq_some hv
  rw [signed_of_nonneg (wordAt_lt m _) (Int.not_lt.mp hpos)] at hattrs hid ⊢
  have hlen : id.length = wordAt m (offset + 12) := by
    rw [span_eq_some hid, Mem.length_read, Int.toNat_natCast]
  refine ⟨rfl, rfl, hlen.symm, ?_, ?_, by omega⟩
  · dsimp only
    rw [hlen]
    exact span_eq_some hid
  · rw [attrsAt] at hattrs
    split at hattrs
    · cases hattrs
      dsimp only
      omega
    · obtain ⟨bs, hbs, rfl⟩ := Option.map_eq_some_iff.mp hattrs
      have hbs' := congrArg List.length (span_eq_some hbs)
      rw [Mem.length_read] at hbs'
      dsimp only
      omega

/-- One round that found an entry, by the kind of the entry. -/
theorem parseElement_inv {m : Mem} {size offset next : Nat} {e : FFSIndexElement}
    (h : parseElement (m.read 0 size) offset = some (some (e, next))) :
    (e.type = some .ffsFormat → wordAt m offset = e.formatId.length * 2 ^ 8 ∧
      next = offset + (e.formatId.length + 15) / 4 * 4) ∧
    (e.type = some .ffsData → wordAt m offset % 256 = dataItem ∧
      DataItemAt m offset (wordAt m offset) e next) := by
  simp only [parseElement, Option.bind_eq_bind, Option.bind_eq_some_iff] at h
  obtain ⟨head, hhead, h⟩ := h
  obtain rfl := word_eq_some hhead
  split at h
  · rename_i hitem
    obtain ⟨p, hp, hpe⟩ := Option.map_eq_some_iff.mp h
    cases hpe
    obtain ⟨htype, hlen, hnext⟩ := parseFormatItem_inv hp
    have hzero : formatItem = 0 := rfl
    exact ⟨fun _ => ⟨by omega, hnext⟩, fun h' => absurd h' (by simp [htype])⟩
  split at h
  · rename_i hitem
    obtain ⟨p, hp, hpe⟩ := Option.map_eq_some_iff.mp h
    cases hpe
    have hdata := parseDataItem_inv hp
    exact ⟨fun h' => absurd h' (by simp [hdata.type]), fun _ => ⟨hitem, hdata⟩⟩
  split at h
  · cases h
  · cases h
    exact ⟨fun h' => (by cases h'), fun h' => (by cases h')⟩

/-! ## The two cursors -/

theorem format_words {m : Mem} {offset : Nat} {fpos : Int64} {id : List UInt8}
    (h : m.read offset (12 + id.length) = formatItemBytes fpos id) (hlen : id.length < 2 ^ 24) :
    m.read offset 4 = beBytes 4 (id.length * 2 ^ 8) ∧ wordAt m offset = id.length * 2 ^ 8 ∧
      wordAt m (offset + 4) = fposHigh fpos ∧ wordAt m (offset + 8) = fposLow fpos ∧
      m.read (offset + 12) id.length = id := by
  rw [formatItemBytes, Mem.read_eq_append (by simp),
    Mem.read_eq_append (n := 8) (k := 4) (by simp),
    Mem.read_eq_append (n := 4) (k := 4) (by simp), formatItem, Nat.zero_add] at h
  obtain ⟨⟨⟨hhead, hhigh⟩, hlow⟩, hid⟩ := h
  have hfpos := fpos.toUInt64.toNat_lt
  refine ⟨hhead, ?_, ?_, ?_, hid⟩
  · rw [wordAt_of_read hhead]
    omega
  · rw [wordAt_of_read hhigh, fposHigh]
    omega
  · rw [wordAt_of_read hlow, fposLow]
    omega

theorem data_words {m : Mem} {offset : Nat} {fpos : Int64} {id attrs : List UInt8}
    (h : m.read offset (12 + dataTotalLen id attrs) = dataItemBytes fpos id attrs)
    (hlen : dataTotalLen id attrs < 2 ^ 23) :
    wordAt m offset = dataItem + dataTotalLen id attrs * 2 ^ 8 ∧
      wordAt m (offset + 4) = fposHigh fpos ∧ wordAt m (offset + 8) = fposLow fpos ∧
      m.read (offset + 12) 4 = beBytes 4 id.length ∧ m.read (offset + 16) id.length = id ∧
      m.read (offset + 16 + id.length) attrs.length = attrs := by
  have hsplit : 12 + dataTotalLen id attrs = 4 + 4 + 4 + 4 + id.length + attrs.length := by
    unfold dataTotalLen
    omega
  rw [hsplit, dataItemBytes, Mem.read_eq_append (by simp; omega), Mem.read_eq_append (by simp),
    Mem.read_eq_append (by simp), Mem.read_eq_append (by simp),
    Mem.read_eq_append (by simp)] at h
  obtain ⟨⟨⟨⟨⟨hhead, hhigh⟩, hlow⟩, hidLen⟩, hid⟩, hattrs⟩ := h
  have hfpos := fpos.toUInt64.toNat_lt
  have hdata : dataItem = 1 := rfl
  have hbehind : offset + (4 + 4 + 4 + 4 + id.length) = offset + 16 + id.length := by omega
  rw [hbehind] at hattrs
  refine ⟨?_, ?_, ?_, hidLen, hid, hattrs⟩
  · rw [wordAt_of_read hhead]
    omega
  · rw [wordAt_of_read hhigh, fposHigh]
    omega
  · rw [wordAt_of_read hlow, fposLow]
    omega

/-- What the parser takes for the identifier of a data entry. -/
theorem read_identifier {m : Mem} {offset : Nat} {id : List UInt8} (hid : LibraryIdLength id)
    (hlen : m.read (offset + 12) 4 = beBytes 4 id.length)
    (hread : m.read (offset + 16) id.length = id) :
    m.read (offset + 12) id.length = beBytes 4 id.length ++ id.take (id.length - 4) := by
  have hsum : 4 + (id.length - 4) = id.length := by rcases hid with h | h | h <;> omega
  have hpart : m.read (offset + 16) (id.length - 4) = id.take (id.length - 4) := by
    rw [← Mem.take_read (Nat.sub_le _ 4), hread]
  conv_lhs => rw [← hsum, Mem.read_add]
  rw [hlen, ← hpart]

/-- Where the parser reads back a format entry, the two cursors stood at one place
provided they do so behind the entry.  The identifiers of 10 bytes are the ones that the
parser's rounding moves; two bytes before such an entry there is no word like its first. -/
theorem cursors_of_format {m : Mem} {size offset next : Nat} {fpos : Int64} {id : List UInt8}
    {p : Nat} (hid : LibraryIdLength id)
    (h : m.read offset (12 + id.length) = formatItemBytes fpos id)
    (hp : parseElement (m.read 0 size) p = some (some ((IndexEntry.format fpos id).element, next)))
    (hnext : next = offset + (12 + id.length)) : p = offset ∧ id.length % 4 = 0 := by
  obtain ⟨hhead, hnext'⟩ := (parseElement_inv hp).1 rfl
  obtain ⟨hbytes, hword, -⟩ := format_words h (by rcases hid with h | h | h <;> omega)
  simp only [IndexEntry.element] at hhead hnext'
  rcases hid with hlen | hlen | hlen
  · omega
  · exfalso
    have hoffset : offset = p + 2 := by omega
    have hbytes' : m.read p 4 = beBytes 4 (id.length * 2 ^ 8) := by
      have hread := beBytes_beValue (m.read p 4)
      rwa [Mem.length_read, ← wordAt, hhead, eq_comm] at hread
    rw [hlen] at hbytes hbytes'
    simp only [Mem.read_succ, Mem.read_zero] at hbytes hbytes'
    rw [hoffset] at hbytes
    have h1 := congrArg (·.getD 2 0) hbytes'
    have h2 := congrArg (·.getD 0 0) hbytes
    simp only [List.getD_cons_succ, List.getD_cons_zero] at h1 h2
    rw [h2] at h1
    exact absurd h1 (by decide)
  · omega

/-- The same for a data entry.  A parser ahead of the writer would take a later word of
the entry for its first, and every one of these ends in the length of the identifier
once the rest of the entry is read back. -/
theorem cursors_of_data {m : Mem} {size offset next : Nat} {fpos : Int64} {id attrs : List UInt8}
    {p : Nat} (hid : LibraryIdLength id) (hlen : dataTotalLen id attrs < 2 ^ 23)
    (h : m.read offset (12 + dataTotalLen id attrs) = dataItemBytes fpos id attrs)
    (hp : parseElement (m.read 0 size) p =
      some (some ((IndexEntry.data fpos id attrs).element, next)))
    (hnext : next = offset + (12 + (dataTotalLen id attrs + 3) / 4 * 4)) :
    p = offset ∧ (IndexEntry.data fpos id attrs).Recovered := by
  obtain ⟨hkind, hdata⟩ := (parseElement_inv hp).2 rfl
  obtain ⟨hhead, hhigh, hlow, hidLen, hidRead, hattrs⟩ := data_words h hlen
  have hidWord := wordAt_of_read hidLen
  have hfpos := hdata.fpos
  have hlenP := hdata.idLen
  have hidP := hdata.formatId
  have htotal := hdata.totalLen
  have hnextP := hdata.next
  simp only [IndexEntry.element] at hfpos hlenP hidP htotal
  obtain ⟨hhighP, hlowP⟩ := fposOfWords_inj (wordAt_lt _ _) (wordAt_lt _ _) hfpos.symm
  -- both the parser and the entry give the identifier's first word the value of its length
  have hfirst : wordAt m (offset + 16) = id.length := by
    obtain ⟨rest, hrest⟩ : ∃ rest, id.length = 4 + rest :=
      ⟨id.length - 4, by rcases hid with h | h | h <;> omega⟩
    have h1 : m.read (offset + 16) id.length = m.read (p + 12) id.length := by
      rw [hidRead, ← hidP]
    rw [hrest, Mem.read_add, Mem.read_add] at h1
    rw [wordAt, (List.append_inj h1 (by simp)).1, ← wordAt, hlenP]
  have htotal' : wordAt m p / 2 ^ 8 ≤ id.length + 5 ∧ attrs = [] ∨
      wordAt m p / 2 ^ 8 = dataTotalLen id attrs := by
    unfold dataTotalLen
    by_cases hnil : attrs = []
    · simp only [hnil, if_true] at htotal
      exact .inl ⟨htotal, hnil⟩
    · simp only [hnil, if_false] at htotal
      omega
  have hkind' : wordAt m p % 256 = 1 := hkind
  have hidMod : wordAt m (offset + 12) = id.length := by
    rw [hidWord, Nat.mod_eq_of_lt (by rcases hid with h | h | h <;> omega)]
  have hahead : p = offset ∨ p = offset + 4 ∨ p = offset + 8 ∨ p = offset + 12 ∨
      p = offset + 16 := by
    unfold dataTotalLen at *
    rcases htotal' with ⟨hle, rfl⟩ | heq
    · simp only [List.length_nil] at hnext
      rcases hid with h | h | h <;> omega
    · omega
  rcases hahead with rfl | rfl | rfl | rfl | rfl
  · refine ⟨rfl, ?_, ?_⟩
    · have heq : wordAt m p / 2 ^ 8 = dataTotalLen id attrs := by
        rw [hhead]
        have hone : dataItem = 1 := rfl
        omega
      unfold dataTotalLen at *
      omega
    · exact (read_identifier hid hidLen hidRead).symm.trans hidP.symm
  · simp only [Nat.add_assoc, Nat.reduceAdd] at hkind' hhighP hlowP hlenP
    rcases hid with h | h | h <;> omega
  · simp only [Nat.add_assoc, Nat.reduceAdd] at hkind' hhighP hlowP hlenP
    rcases hid with h | h | h <;> omega
  · simp only [Nat.add_assoc, Nat.reduceAdd] at hkind' hhighP hlowP hlenP
    rcases hid with h | h | h <;> omega
  · rcases hid with h | h | h <;> omega

/-- The parser reading back the entries and stopping at the writer's end item stood with
the writer at every entry. -/
theorem recovered_of_parseElements {m : Mem} {size offset p rounds : Nat} {es : List IndexEntry}
    (hids : ∀ e ∈ es, LibraryIdLength e.serverId) (hlay : Lays m offset es)
    (hfit : cursorAfter offset es ≤ INDEX_BLOCK_SIZE)
    (h : parseElements (m.read 0 size) rounds p =
      some (es.map IndexEntry.element, cursorAfter offset es)) :
    p = offset ∧ ∀ e ∈ es, e.Recovered := by
  induction es generalizing offset p rounds with
  | nil =>
    refine ⟨?_, by simp⟩
    cases rounds with
    | zero => cases h
    | succ rounds =>
      rw [parseElements] at h
      split at h
      · cases h
      · cases h
        rfl
      · simp only [Option.bind_eq_bind, Option.bind_eq_some_iff] at h
        obtain ⟨_, -, h⟩ := h
        cases h
  | cons e es ih =>
    cases rounds with
    | zero => cases h
    | succ rounds =>
      rw [parseElements] at h
      split at h
      · cases h
      · cases h
      · rename_i e' next hp
        simp only [Option.bind_eq_bind, Option.bind_eq_some_iff] at h
        obtain ⟨⟨es', endOffset⟩, hes, h⟩ := h
        cases h
        obtain ⟨hnext, hrest⟩ := ih (fun x hx => hids x (List.mem_cons_of_mem e hx)) hlay.2 hfit hes
        have hle := le_cursorAfter (offset + e.advance) es
        have hlen := e.itemLen_le_advance
        have hmax : INDEX_BLOCK_SIZE = 256 := rfl
        rw [cursorAfter_cons] at hfit
        have hhead : p = offset ∧ e.Recovered := by
          have hid := hids e List.mem_cons_self
          have hread := hlay.1
          cases e with
          | format fpos id => exact cursors_of_format hid hread hp hnext
          | data fpos id attrs =>
            simp only [IndexEntry.itemLen] at hlen
            exact cursors_of_data hid (by omega) hread hp hnext
        refine ⟨hhead.1, fun x hx => ?_⟩
        rcases List.mem_cons.mp hx with rfl | hx
        · exact hhead.2
        · exact hrest x hx

/-! ## Entries that are recovered -/

theorem parseElement_format {m : Mem} {size offset : Nat} {fpos : Int64} {id : List UInt8}
    (hfit : offset + (12 + id.length) ≤ size) (hsize : size < 2 ^ 23)
    (h : m.read offset (12 + id.length) = formatItemBytes fpos id) :
    parseElement (m.read 0 size) offset =
      some (some ((IndexEntry.format fpos id).element, offset + (id.length + 15) / 4 * 4)) := by
  obtain ⟨-, hhead, hhigh, hlow, hid⟩ := format_words h (by omega)
  have hkind : id.length * 2 ^ 8 % 256 = formatItem := Nat.mul_mod_left _ _
  have hlen : id.length * 2 ^ 8 / 2 ^ 8 = id.length := by omega
  have hformat : parseFormatItem (m.read 0 size) offset (id.length * 2 ^ 8) =
      some ((IndexEntry.format fpos id).element, offset + (id.length + 15) / 4 * 4) := by
    simp only [parseFormatItem, word_read, span_read, hlen, Option.bind_eq_bind]
    rw [if_pos (by omega), if_pos (by omega), if_pos (by omega), hhigh, hlow, hid]
    simp only [Option.bind_some, fposOfWords_fpos]
    rfl
  simp only [parseElement, word_read, Option.bind_eq_bind]
  rw [if_pos (by omega), Option.bind_some, hhead, if_pos hkind, hformat, Option.map_some]

/-- The lengths of the identifiers exclude an attribute block of one byte. -/
theorem attrsAt_recovered {m : Mem} {size offset : Nat} {id attrs : List UInt8}
    (hid : LibraryIdLength id) (hmod : (id.length + attrs.length) % 4 = 0)
    (hfit : offset + attrs.length ≤ size) (h : m.read offset attrs.length = attrs) :
    attrsAt (m.read 0 size) offset attrs.length =
      some (if attrs = [] then none else some attrs) := by
  rw [attrsAt]
  by_cases hnil : attrs = []
  · rw [if_pos (by simp [hnil]), if_pos hnil]
  · have hpos : 0 < attrs.length := List.length_pos_of_ne_nil hnil
    have hmany : ¬ (attrs.length : Int) ≤ 1 := by rcases hid with h | h | h <;> omega
    rw [if_neg hmany, if_neg hnil, Int.toNat_natCast, span_read, if_pos hfit, h, Option.map_some]


theorem parseElement_data {m : Mem} {size offset : Nat} {fpos : Int64} {id attrs : List UInt8}
    (hid : LibraryIdLength id) (hmod : (id.length + attrs.length) % 4 = 0)
    (hfit : offset + (12 + dataTotalLen id attrs) ≤ size) (hsize : size < 2 ^ 23)
    (h : m.read offset (12 + dataTotalLen id attrs) = dataItemBytes fpos id attrs) :
    parseElement (m.read 0 size) offset =
      some (some ((IndexEntry.data fpos id attrs).found,
        offset + (IndexEntry.data fpos id attrs).advance)) := by
  obtain ⟨hhead, hhigh, hlow, hidLen, hidRead, hattrs⟩ := data_words h (by omega)
  have hlen : dataTotalLen id attrs = attrs.length + id.length + 4 := rfl
  have hone : dataItem = 1 := rfl
  have htotal : (dataItem + dataTotalLen id attrs * 2 ^ 8) / 2 ^ 8 = dataTotalLen id attrs := by
    omega
  have hkind : (dataItem + dataTotalLen id attrs * 2 ^ 8) % 256 = dataItem := by omega
  have hattrLen : ((dataTotalLen id attrs : Nat) : Int) - id.length - 4 = attrs.length := by omega
  have hadv : (((id.length : Int) + attrs.length + 12 + 4) / 4 * 4).toNat =
      (IndexEntry.data fpos id attrs).advance := by
    simp only [IndexEntry.advance]
    omega
  have hattrsAt := attrsAt_recovered hid hmod
    (show offset + 16 + id.length + attrs.length ≤ size by omega) hattrs
  have hidSpan : span (m.read 0 size) (offset + 12) id.length =
      some (beBytes 4 id.length ++ id.take (id.length - 4)) := by
    rw [span_read, if_pos (by omega), read_identifier hid hidLen hidRead]
  have hbound : offset + 12 + 4 ≤ size := by omega
  have hsmall : id.length < 2 ^ 31 := by omega
  have hidWord : signed 4 (wordAt m (offset + 12)) = id.length := by
    rw [wordAt_of_read hidLen, Nat.mod_eq_of_lt (by omega)]
    exact signed_of_lt (by norm_num; omega)
  simp only [parseElement, word_read, Option.bind_eq_bind]
  rw [if_pos (by omega), Option.bind_some, hhead, if_neg (by rw [hkind]; decide), if_pos hkind]
  simp only [parseDataItem, word_read, htotal, Option.bind_eq_bind]
  rw [if_pos (by omega), if_pos (by omega), if_pos hbound, hhigh, hlow]
  rw [Option.bind_some, Option.bind_some, Option.bind_some, hidWord,
    if_neg (Int.not_lt.mpr (Int.natCast_nonneg _)), Int.toNat_natCast, hattrLen, hattrsAt,
    Option.bind_some, hidSpan, Option.bind_some, hadv, fposOfWords_fpos]
  rfl

theorem parseElement_aligned {m : Mem} {size offset : Nat} {e : IndexEntry}
    (hid : LibraryIdLength e.serverId) (haligned : e.Aligned) (hfit : offset + e.itemLen ≤ size)
    (hsize : size < 2 ^ 23) (h : m.read offset e.itemLen = e.bytes) :
    parseElement (m.read 0 size) offset = some (some (e.found, offset + e.advance)) := by
  cases e with
  | format fpos id =>
    have hadv : (id.length + 15) / 4 * 4 = 12 + id.length := by
      have hmod : id.length % 4 = 0 := haligned
      omega
    rw [parseElement_format hfit hsize h, hadv]
    rfl
  | data fpos id attrs => exact parseElement_data hid haligned hfit hsize h

theorem parseElement_end {m : Mem} {size offset : Nat} (hfit : offset + 4 ≤ size)
    (h : m.read offset 4 = beBytes 4 endItem) :
    parseElement (m.read 0 size) offset = some none := by
  have hword : wordAt m offset = endItem := wordAt_of_read h
  rw [parseElement, word_read, if_pos hfit, hword]
  rfl

theorem parseElements_aligned {m : Mem} {size offset : Nat} {es : List IndexEntry}
    (hids : ∀ e ∈ es, LibraryIdLength e.serverId) (haligned : ∀ e ∈ es, e.Aligned)
    (hlay : Lays m offset es) (hfit : cursorAfter offset es + 4 ≤ size) (hsize : size < 2 ^ 23)
    (extra : Nat) :
    parseElements (m.read 0 size) (es.length + 1 + extra) offset =
      some (es.map IndexEntry.found, cursorAfter offset es) := by
  induction es generalizing offset with
  | nil =>
    have hend : offset + 4 ≤ size := hfit
    rw [List.length_nil, Nat.zero_add, Nat.add_comm, parseElements, parseElement_end hend hlay]
    rfl
  | cons e es ih =>
    rw [cursorAfter_cons] at hfit ⊢
    have hle := le_cursorAfter (offset + e.advance) es
    have hlen := e.itemLen_le_advance
    have hhead := parseElement_aligned (hids e List.mem_cons_self)
      (haligned e List.mem_cons_self) (show offset + e.itemLen ≤ size by omega) hsize hlay.1
    have htail := ih (fun x hx => hids x (List.mem_cons_of_mem e hx))
      (fun x hx => haligned x (List.mem_cons_of_mem e hx)) hlay.2 hfit
    rw [List.length_cons, Nat.add_right_comm, parseElements, hhead]
    simp only [htail]
    rfl

theorem parseElements_recovered {m : Mem} {size offset : Nat} {es : List IndexEntry}
    (hids : ∀ e ∈ es, LibraryIdLength e.serverId) (hrec : ∀ e ∈ es, e.Recovered)
    (hlay : Lays m offset es) (hfit : cursorAfter offset es + 4 ≤ size) (hsize : size < 2 ^ 23)
    (extra : Nat) :
    parseElements (m.read 0 size) (es.length + 1 + extra) offset =
      some (es.map IndexEntry.element, cursorAfter offset es) := by
  have hfound : es.map IndexEntry.found = es.map IndexEntry.element :=
    List.map_congr_left fun e he => (hrec e he).found
  rw [parseElements_aligned hids (fun e he => (hrec e he).aligned) hlay hfit hsize, hfound]

theorem parseIndexBlock_read (m : Mem) :
    ∃ next start last, parseIndexBlock (m.read 0 INDEX_BLOCK_SIZE) =
      (parseElements (m.read 0 INDEX_BLOCK_SIZE) (INDEX_BLOCK_SIZE + 1) 16).map fun r =>
        { nextIndexOffset := next, thisIndexFpos := 0, startDataCount := start,
          lastDataCount := last, endItemOffset := r.2, elements := r.1 } := by
  refine ⟨(wordAt m 4 : Nat), signed 4 (wordAt m 8), signed 4 (wordAt m 12), ?_⟩
  rw [parseIndexBlock, word_read, word_read, word_read, if_pos (by decide), if_pos (by decide),
    if_pos (by decide), Mem.length_read]
  generalize parseElements (m.read 0 INDEX_BLOCK_SIZE) (INDEX_BLOCK_SIZE + 1) 16 = parsed
  rw [Option.bind_eq_bind, Option.bind_some, Option.bind_eq_bind, Option.bind_some,
    Option.bind_some]
  cases parsed with
  | none => rfl
  | some r => rfl

/-- The block that is dumped holds the entries that were placed, and the round trip is a
matter of the loop of the parser on it. -/
theorem roundTrips_iff_parse {f : IndexedFile} {es : List IndexEntry} (hf : f.fileOrg = .indexed)
    (hr : f.readIndex = none) (hone : PlacedInOneBlock es) :
    ∃ m placed, Lays m 16 placed ∧ cursorAfter 16 placed + 4 ≤ INDEX_BLOCK_SIZE ∧
      placed.map (·.moved 0) = es.map (·.moved 0) ∧
      (RoundTrips (initWriteIndexBlock f) es ↔
        parseElements (m.read 0 INDEX_BLOCK_SIZE) (INDEX_BLOCK_SIZE + 1) 16 =
          some (placed.map IndexEntry.element, cursorAfter 16 placed)) := by
  obtain ⟨w₀, hfresh⟩ := freshBlock_initWriteIndexBlock hf hr
  obtain ⟨g, w, placed, m, hout, hgf, hgw, hsize, hnext, hblock, hfit, hmoved⟩ :=
    outputEntries_fresh hfresh hone
  let header := indexHeader w.indexBlockSize (g.disk.lseek 0 .cur).1 w.dataIndexStart
    (g.dataCount - 1)
  let dumped := ((stored m 16 placed).write (cursorAfter 16 placed) (beBytes 4 endItem)).write 0
    header
  have hdump : dumpedBlock g w = dumped.read 0 INDEX_BLOCK_SIZE := by
    simp only [dumpedBlock, sealIndexBlock, outputIndexEnd, if_pos hgf, hblock, hnext, ← hsize,
      dumped, header]
  obtain ⟨next, start, last, hparse⟩ := parseIndexBlock_read dumped
  refine ⟨dumped, placed, lays_sealed placed (by simp [header, indexHeader]) (Nat.le_refl 16), hfit,
    hmoved, ?_⟩
  constructor
  · rintro ⟨g', w', placed', item, hout', hgw', hitem, helems, hoffset⟩
    rw [hout] at hout'
    obtain ⟨rfl, rfl⟩ := Prod.mk.inj (Option.some.inj hout')
    rw [hgw] at hgw'
    obtain rfl := Option.some.inj hgw'
    rw [hdump, hparse] at hitem
    obtain ⟨⟨es', endOffset⟩, hes, rfl⟩ := Option.map_eq_some_iff.mp hitem
    rw [hes, ← hnext, ← helems, ← hoffset]
  · intro h
    rw [h, Option.map_some] at hparse
    exact ⟨g, w, placed, _, hout, hgw, hdump ▸ hparse, rfl, hnext.symm⟩

theorem forall_libraryIdLength_moved {es placed : List IndexEntry}
    (hmoved : placed.map (·.moved 0) = es.map (·.moved 0))
    (hids : ∀ e ∈ es, LibraryIdLength e.serverId) : ∀ e ∈ placed, LibraryIdLength e.serverId := by
  have h := congrArg (fun xs => ∀ e ∈ xs, LibraryIdLength (IndexEntry.serverId e)) hmoved
  simp only [List.forall_mem_map, IndexEntry.moved_serverId, eq_iff_iff] at h
  exact h.mpr hids

theorem forall_recovered_moved {es placed : List IndexEntry}
    (hmoved : placed.map (·.moved 0) = es.map (·.moved 0)) :
    (∀ e ∈ placed, e.Recovered) ↔ ∀ e ∈ es, e.Recovered := by
  have h := congrArg (fun xs => ∀ e ∈ xs, IndexEntry.Recovered e) hmoved
  simpa only [List.forall_mem_map, IndexEntry.moved_recovered, eq_iff_iff] using h

theorem recovered_of_roundTrips {f : IndexedFile} {es : List IndexEntry}
    (hf : f.fileOrg = .indexed) (hr : f.readIndex = none) (hone : PlacedInOneBlock es)
    (hids : ∀ e ∈ es, LibraryIdLength e.serverId) (h : RoundTrips (initWriteIndexBlock f) es) :
    ∀ e ∈ es, e.Recovered := by
  obtain ⟨m, placed, hlay, hfit, hmoved, hparse⟩ := roundTrips_iff_parse hf hr hone
  exact (forall_recovered_moved hmoved).mp (recovered_of_parseElements
    (forall_libraryIdLength_moved hmoved hids) hlay (by omega) (hparse.mp h)).2

theorem roundTrips_of_recovered {f : IndexedFile} {es : List IndexEntry}
    (hf : f.fileOrg = .indexed) (hr : f.readIndex = none) (hone : PlacedInOneBlock es)
    (hids : ∀ e ∈ es, LibraryIdLength e.serverId) (h : ∀ e ∈ es, e.Recovered) :
    RoundTrips (initWriteIndexBlock f) es := by
  obtain ⟨m, placed, hlay, hfit, hmoved, hparse⟩ := roundTrips_iff_parse hf hr hone
  have hle := le_cursorAfter 16 placed
  obtain ⟨extra, hextra⟩ :=
    Nat.exists_eq_add_of_le (show placed.length + 1 ≤ INDEX_BLOCK_SIZE + 1 by omega)
  rw [hparse, hextra]
  exact parseElements_recovered (forall_libraryIdLength_moved hmoved hids)
    ((forall_recovered_moved hmoved).mpr h) hlay hfit (by decide) extra

/-- For every sequence of entries that fills one block, the block written parses back to
the entries if and only if each of them is recovered. -/
theorem indexBlock_roundTrips_iff {f : IndexedFile} {es : List IndexEntry}
    (hf : f.fileOrg = .indexed) (hr : f.readIndex = none) (hone : PlacedInOneBlock es)
    (hids : ∀ e ∈ es, LibraryIdLength e.serverId) :
    RoundTrips (initWriteIndexBlock f) es ↔ ∀ e ∈ es, e.Recovered :=
  ⟨recovered_of_roundTrips hf hr hone hids, roundTrips_of_recovered hf hr hone hids⟩

/-- A file just opened for writing with an index. -/
def openedIndexed : IndexedFile :=
  { disk := { bytes := [0x43, 0x56, 0xff, 0xa9], pos := 4 }, fileOrg := .indexed, fpos := 4,
    dataCount := 0, curIndex := none, readIndex := none }

/-- Two format items, and a data item whose identifier repeats its length. -/
theorem indexBlock_roundTrips_items :
    RoundTrips (initWriteIndexBlock openedIndexed)
      [.format 260 [2, 0, 0, 13, 1, 2, 3, 4, 5, 6, 7, 8], .format 300 [1, 2, 3, 4, 5, 6, 7, 8],
       .data 340 [0, 0, 0, 12, 0, 0, 0, 12, 0, 0, 0, 12] [5, 6, 7, 8]] :=
  (indexBlock_roundTrips_iff rfl rfl (by decide) (by decide)).mpr (by decide)

/-- One data item with an identifier of 12 bytes and no attributes.  The entry that is read
back holds the identifier's length before the identifier's first bytes. -/
theorem not_roundTrips_data :
    ¬ RoundTrips (initWriteIndexBlock openedIndexed)
      [.data 260 [2, 0, 0, 13, 1, 2, 3, 4, 5, 6, 7, 8] []] :=
  fun h => absurd (recovered_of_roundTrips rfl rfl (by decide) (by decide) h) (by decide)

end FFS
