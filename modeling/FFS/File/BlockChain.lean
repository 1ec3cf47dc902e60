import Mathlib.Data.List.Chain
import FFS.File.Writer

/-!
# The chain of index blocks

While the items of a writer fit in an empty block and the file stays below the positions that an
`int` holds, what the index code stores lies inside the block, each block that is written has the
numbers of its data records, and the blocks are linked in the file.
-/

namespace FFS

open Machine

/-! ## Blocks -/

/-- The numbers from one up to another. -/
def numbersUpTo (start stop : Int) : List Int :=
  (List.range (stop - start).toNat).map fun k : Nat => start + k

theorem numbersUpTo_self (start : Int) : numbersUpTo start start = [] := by
  simp [numbersUpTo]

theorem numbersUpTo_succ {start stop : Int} (h : start ≤ stop) :
    numbersUpTo start (stop + 1) = numbersUpTo start stop ++ [stop] := by
  have hlength : (stop + 1 - start).toNat = (stop - start).toNat + 1 := by omega
  have hlast : start + ((stop - start).toNat : Int) = stop := by omega
  rw [numbersUpTo, hlength, List.range_succ, List.map_append, List.map_singleton, hlast,
    numbersUpTo]

namespace DumpedBlock

/-- The link and the two numbers of a block, as `parse_index_block` takes them from it. -/
def next (d : DumpedBlock) : Int := ((word d.bytes 4).getD 0 : Nat)

def start (d : DumpedBlock) : Int := signed 4 ((word d.bytes 8).getD 0)

def last (d : DumpedBlock) : Int := signed 4 ((word d.bytes 12).getD 0)

/-- The data items of the block are those of the records numbered from `start` to `last`. -/
def Numbered (d : DumpedBlock) : Prop := d.dataItems = numbersUpTo d.start (d.last + 1)

/-- The link of a block is the position of the following one, and its numbers go on there. -/
def Follows (d d' : DumpedBlock) : Prop := d.next = d'.filePos ∧ d'.start = d.last + 1

end DumpedBlock

/-- Nothing is stored outside a block, and the blocks written form a chain. -/
structure IndexLog.Sound (log : IndexLog) : Prop where
  inside : ∀ s ∈ log.stores, s.1 + s.2 ≤ INDEX_BLOCK_SIZE
  placed : ∀ d ∈ log.dumped, 0 ≤ d.filePos
  numbered : ∀ d ∈ log.dumped, d.Numbered
  chain : log.dumped.IsChain DumpedBlock.Follows

/-! ## What a call may do -/

/-- The positions that `lseek` returns as they are. -/
def Seekable (pos : Nat) : Prop := pos < 2 ^ 31

/-- The item of a record fits in an empty block, with the end mark behind it, and the file can be
positioned behind the record, the format that may precede it and four blocks. -/
def RecordFits (f : FFSWriter) (format : WrittenFormat) (attrs : List UInt8) (size : Nat) : Prop :=
  28 + (dataTotalLen format.serverId attrs + 3) / 4 * 4 + 4 ≤ INDEX_BLOCK_SIZE ∧
    Seekable (f.file.disk.pos + 4 * INDEX_BLOCK_SIZE +
      (8 + format.serverId.length + format.serverRep.length) + (8 + size))

/-- The representation of a format that the file does not have yet was not freed. -/
def KeepsRep (f : FFSWriter) (format : WrittenFormat) : Prop :=
  format.formatIndex ∉ f.written → f.hasRep format = true

def WriterCall.Fits (f : FFSWriter) : WriterCall → Prop
  | .comment text => Seekable (f.file.disk.pos + 4 + text.stored.length)
  | .register _ _ => True
  | .attrs format attrList vec =>
    KeepsRep f format ∧ RecordFits f format attrList vec.flatten.length
  | .encoded rep format attrList data => rep ∉ f.freed ∧
      (∃ g ∈ f.loadExternalFormat rep format, KeepsRep g format) ∧
      RecordFits f format attrList data.length

instance (f : FFSWriter) (format : WrittenFormat) : Decidable (KeepsRep f format) :=
  inferInstanceAs (Decidable (_ → _))

instance (f : FFSWriter) (format : WrittenFormat) (attrs : List UInt8) (size : Nat) :
    Decidable (RecordFits f format attrs size) :=
  inferInstanceAs (Decidable (_ ≤ _ ∧ _ < _))

instance (f : FFSWriter) : (call : WriterCall) → Decidable (call.Fits f)
  | .comment _ => inferInstanceAs (Decidable (_ < _))
  | .register _ _ => inferInstanceAs (Decidable True)
  | .attrs _ _ _ => inferInstanceAs (Decidable (_ ∧ _))
  | .encoded _ _ _ _ => inferInstanceAs (Decidable (_ ∧ (∃ _ ∈ _, _) ∧ _))

/-! ## Positions -/

theorem lseek_cur {d : Disk} {offset : Nat} (h : Seekable (d.pos + offset)) :
    d.lseek offset .cur = (((d.pos + offset : Nat) : Int), { d with pos := d.pos + offset }) := by
  have hlt : ((d.pos + offset : Nat) : Int) < 2 ^ 31 := by exact_mod_cast h
  have hsigned : signed 4 (unsigned 4 ((d.pos : Int) + offset)) =
      ((d.pos + offset : Nat) : Int) := by
    rw [signed_unsigned (by decide) ⟨by omega, by omega⟩]
    omega
  simp only [Disk.lseek]
  rw [if_neg (by omega), hsigned]
  simp only [Prod.mk.injEq, true_and]
  congr 1

theorem lseek_set {d : Disk} {pos : Nat} : (d.lseek pos .set).2.pos = pos := by
  simp only [Disk.lseek]
  rw [if_neg (by omega)]
  rfl

theorem put_pos (d : Disk) (bs : List UInt8) : (d.put bs).pos = d.pos + bs.length := by
  rw [Disk.put]
  split
  · next h => rw [h, List.length_nil, Nat.add_zero]
  · rfl

theorem writev_pos {d : Disk} {iov : List (List UInt8)} (h : iov.flatten.length < 2 ^ 31) :
    (d.writev iov).pos = d.pos + iov.flatten.length := by
  have hsigned : signed 4 (unsigned 4 (iov.flatten.length : Nat)) = iov.flatten.length := by
    exact signed_unsigned (by decide) ⟨by omega, by omega⟩
  rw [Disk.writev, hsigned]
  split
  · exact put_pos d iov.flatten
  · omega

theorem writeVec_pos {maxIov rounds : Nat} {vec : List (List UInt8)} {d : Disk}
    (h : vec.flatten.length < 2 ^ 31) :
    (writeVec maxIov rounds d vec).pos = d.pos + vec.flatten.length := by
  induction rounds generalizing d vec with
  | zero => exact writev_pos h
  | succ rounds ih =>
    rw [writeVec]
    split
    · have hsplit : (vec.take maxIov).flatten.length + (vec.drop maxIov).flatten.length =
          vec.flatten.length := by
        rw [← List.length_append, ← List.flatten_append, List.take_append_drop]
      rw [ih (by omega), writev_pos (by omega)]
      omega
    · exact writev_pos h

/-! ## Dumping a block -/

/-- The three words of a block that is written. -/
theorem word_dumpedBlock {f : IndexedFile} {w : WriteIndexInfo}
    (hsize : w.indexBlockSize = INDEX_BLOCK_SIZE) :
    word (dumpedBlock f w) 4 = some (unsigned 4 (f.disk.lseek 0 .cur).1 % 2 ^ 32) ∧
      word (dumpedBlock f w) 8 = some (unsigned 4 w.dataIndexStart % 2 ^ 32) ∧
      word (dumpedBlock f w) 12 = some (unsigned 4 (f.dataCount - 1) % 2 ^ 32) := by
  obtain ⟨m, hm⟩ : ∃ m : Mem, dumpedBlock f w =
      (m.write 0 (indexHeader w.indexBlockSize (f.disk.lseek 0 .cur).1 w.dataIndexStart
        (f.dataCount - 1))).read 0 INDEX_BLOCK_SIZE := by
    refine ⟨(outputIndexEnd f w).indexBlock, ?_⟩
    unfold dumpedBlock sealIndexBlock outputIndexEnd
    rw [hsize]
    split <;> simp [hsize]
  -- A word is what stands behind the words before it.
  have hword : ∀ front v back, indexHeader w.indexBlockSize (f.disk.lseek 0 .cur).1
        w.dataIndexStart (f.dataCount - 1) = front ++ (beBytes 4 v ++ back) →
      word (dumpedBlock f w) front.length = some (v % 2 ^ 32) := by
    intro front v back hheader
    have hlength := congrArg List.length hheader
    simp only [indexHeader, List.length_append, length_beBytes] at hlength
    have hfits : front.length + 4 ≤ INDEX_BLOCK_SIZE := by
      unfold INDEX_BLOCK_SIZE
      omega
    rw [hm, word_read, if_pos hfits]
    refine congrArg some (wordAt_of_read ?_)
    have hinside : front.length + 4 ≤ 0 + (front ++ (beBytes 4 v ++ back)).length := by
      rw [List.length_append, List.length_append, length_beBytes]
      omega
    rw [hheader, Mem.read_write_sub (Nat.zero_le _) hinside, Nat.sub_zero, List.drop_left,
      List.take_left' (length_beBytes 4 v)]
  let kind := beBytes 4 (0x4 * 2 ^ 24 + w.indexBlockSize)
  let next := beBytes 4 (unsigned 4 (f.disk.lseek 0 .cur).1)
  let start := beBytes 4 (unsigned 4 w.dataIndexStart)
  let last := beBytes 4 (unsigned 4 (f.dataCount - 1))
  have hheader : indexHeader w.indexBlockSize (f.disk.lseek 0 .cur).1 w.dataIndexStart
      (f.dataCount - 1) = kind ++ next ++ start ++ last := rfl
  refine ⟨?_, ?_, ?_⟩
  · exact hword kind _ (start ++ last) (by rw [hheader]; simp only [List.append_assoc, next])
  · exact hword (kind ++ next) _ last (by rw [hheader]; simp only [List.append_assoc, start])
  · exact hword (kind ++ next ++ start) _ []
      (by rw [hheader]; simp only [List.append_assoc, List.append_nil, last])

/-- A block that is dumped leaves the writer with an empty block behind the end of the file. -/
theorem dumpIndexBlock_spec {f : IndexedFile} {w : WriteIndexInfo} (hread : f.readIndex = none)
    (hw : f.curIndex = some w) (hpos : Seekable (f.disk.pos + INDEX_BLOCK_SIZE)) :
    ∃ g w', dumpIndexBlock f = some g ∧ g.fileOrg = f.fileOrg ∧ g.readIndex = none ∧
      g.dataCount = f.dataCount ∧ g.disk.pos = f.disk.pos + INDEX_BLOCK_SIZE ∧
      g.curIndex = some w' ∧ w'.nextItemOffset = 16 ∧ w'.indexBlockSize = INDEX_BLOCK_SIZE ∧
      w'.baseFilePos = f.disk.pos := by
  have hcur : f.disk.lseek 0 .cur = ((f.disk.pos : Int), f.disk) :=
    @lseek_cur f.disk 0 (lt_of_le_of_lt (by omega) hpos)
  let disk := (((f.disk.lseek w.baseFilePos .set).2.write (dumpedBlock f w)).lseek f.disk.pos
    .set).2
  have hdisk : disk.pos = f.disk.pos := lseek_set
  have hend : disk.lseek INDEX_BLOCK_SIZE .cur =
      (((f.disk.pos + INDEX_BLOCK_SIZE : Nat) : Int),
        { disk with pos := f.disk.pos + INDEX_BLOCK_SIZE }) := by
    rw [lseek_cur (by rw [hdisk]; exact hpos), hdisk]
  have hdump : dumpIndexBlock f = some (initWriteIndexBlock { f with
      disk, curIndex := some (sealIndexBlock f f.disk.pos w) }) := by
    rw [dumpIndexBlock, hw]
    simp only [hcur, disk]
  rw [hdump, initWriteIndexBlock]
  simp only [hread, hend]
  exact ⟨_, _, rfl, rfl, rfl, rfl, rfl, rfl, rfl, rfl, by show _ - _ = _; omega⟩

/-! ## The invariant -/

/-- The block in memory has room for the end mark, its numbers are those of the records since its
first item, and the block written last links to it. -/
structure Filling (file : IndexedFile) (log : IndexLog) (w : WriteIndexInfo) : Prop where
  size : w.indexBlockSize = INDEX_BLOCK_SIZE
  room : w.nextItemOffset + 4 ≤ INDEX_BLOCK_SIZE
  base : 0 ≤ w.baseFilePos
  start : 0 ≤ w.dataIndexStart ∧ w.dataIndexStart ≤ file.dataCount
  pending : log.pending = numbersUpTo w.dataIndexStart file.dataCount
  linked : ∀ d ∈ log.dumped.getLast?, d.next = w.baseFilePos ∧ w.dataIndexStart = d.last + 1

/-- The writer between two steps of its index code. -/
structure Writing (file : IndexedFile) (log : IndexLog) : Prop where
  sound : log.Sound
  fileOrg : file.fileOrg = .indexed
  readIndex : file.readIndex = none
  counted : 0 ≤ file.dataCount ∧ 8 * file.dataCount ≤ file.disk.pos
  unstarted : file.curIndex = none →
    log.dumped = [] ∧ log.pending = [] ∧ file.dataCount = 0
  filling : ∀ w, file.curIndex = some w → Filling file log w

section
variable {f : IndexedFile} {log : IndexLog} {w : WriteIndexInfo}

theorem unsigned_of_seekable {n : Int} (h : 0 ≤ n) (hlt : n < 2 ^ 31) :
    (unsigned 4 n % 2 ^ 32 : Nat) = n := by
  have hmod : n % (256 ^ 4 : Nat) = n := Int.emod_eq_of_lt h (by omega)
  rw [unsigned, hmod]
  omega

theorem signed_unsigned_mod {n : Int} (h : -1 ≤ n) (hlt : n < 2 ^ 31) :
    signed 4 (unsigned 4 n % 2 ^ 32) = n := by
  have hbelow := unsigned_lt 4 n
  rw [Nat.mod_eq_of_lt (by omega)]
  exact signed_unsigned (by decide) ⟨by omega, by omega⟩

/-- The block that is dumped carries its numbers, and links to the end of the file. -/
theorem dumped_words (h : Writing f log) (hw : f.curIndex = some w)
    (hpos : Seekable f.disk.pos) {dataItems : List Int} :
    let d : DumpedBlock := { filePos := w.baseFilePos, bytes := dumpedBlock f w, dataItems }
    d.next = f.disk.pos ∧ d.start = w.dataIndexStart ∧ d.last = f.dataCount - 1 := by
  have hfilling := h.filling w hw
  have hcur : f.disk.lseek 0 .cur = ((f.disk.pos : Int), f.disk) := @lseek_cur f.disk 0 hpos
  obtain ⟨hnext, hstart, hlast⟩ := @word_dumpedBlock f w hfilling.size
  have hlt : (f.disk.pos : Int) < 2 ^ 31 := by exact_mod_cast hpos
  obtain ⟨hcount, hbound⟩ := h.counted
  obtain ⟨hstart0, hstartle⟩ := hfilling.start
  refine ⟨?_, ?_, ?_⟩
  · rw [DumpedBlock.next, hnext, Option.getD_some, hcur]
    exact unsigned_of_seekable (by omega) hlt
  · rw [DumpedBlock.start, hstart, Option.getD_some]
    exact signed_unsigned_mod (by omega) (by omega)
  · rw [DumpedBlock.last, hlast, Option.getD_some]
    exact signed_unsigned_mod (by omega) (by omega)

/-- One block more is written. -/
theorem sound_logDump (h : Writing f log) (hw : f.curIndex = some w)
    (hpos : Seekable f.disk.pos) : (logDump f log).Sound := by
  have hfilling := h.filling w hw
  obtain ⟨-, hstart, hlast⟩ := @dumped_words f log w h hw hpos log.pending
  rw [logDump, hw]
  constructor
  · intro s hs
    cases List.mem_append.mp hs with
    | inl hold => exact h.sound.inside s hold
    | inr hnew =>
      rw [List.mem_singleton.mp hnew]
      exact hfilling.room
  · intro d hd
    cases List.mem_append.mp hd with
    | inl hold => exact h.sound.placed d hold
    | inr hnew =>
      rw [List.mem_singleton.mp hnew]
      exact hfilling.base
  · intro d hd
    cases List.mem_append.mp hd with
    | inl hold => exact h.sound.numbered d hold
    | inr hnew =>
      rw [List.mem_singleton.mp hnew, DumpedBlock.Numbered, hstart, hlast, sub_add_cancel]
      exact hfilling.pending
  · refine h.sound.chain.append (List.isChain_singleton _) fun d hd d' hd' => ?_
    rw [List.head?_cons, Option.mem_some_iff] at hd'
    subst hd'
    obtain ⟨hnext, hfollow⟩ := hfilling.linked d hd
    exact ⟨hnext, hstart.trans hfollow⟩

/-- The block in memory after one was written is empty, and the written one links to it. -/
theorem writing_dump (h : Writing f log) (hw : f.curIndex = some w)
    (hpos : Seekable (f.disk.pos + INDEX_BLOCK_SIZE)) :
    ∃ g w', dumpIndexBlock f = some g ∧ g.curIndex = some w' ∧ w'.nextItemOffset = 16 ∧
      g.dataCount = f.dataCount ∧ g.disk.pos = f.disk.pos + INDEX_BLOCK_SIZE ∧
      Writing { g with curIndex := some { w' with dataIndexStart := g.dataCount } }
        (logDump f log) := by
  have hbelow : Seekable f.disk.pos := lt_of_le_of_lt (Nat.le_add_right _ _) hpos
  obtain ⟨hnext, -, hlast⟩ := @dumped_words f log w h hw hbelow log.pending
  obtain ⟨g, w', hdump, horg, hread, hcount, hgpos, hcur, hoffset, hsize, hbase⟩ :=
    dumpIndexBlock_spec h.readIndex hw hpos
  refine ⟨g, w', hdump, hcur, hoffset, hcount, hgpos, ?_⟩
  have hcounted := h.counted
  refine ⟨sound_logDump h hw hbelow, horg.trans h.fileOrg, hread, ?_, nofun, ?_⟩
  · show 0 ≤ g.dataCount ∧ 8 * g.dataCount ≤ (g.disk.pos : Int)
    rw [hcount, hgpos]
    omega
  · rintro _ ⟨⟩
    refine ⟨hsize, ?_, ?_, ⟨?_, le_refl _⟩, ?_, ?_⟩
    · show w'.nextItemOffset + 4 ≤ INDEX_BLOCK_SIZE
      rw [hoffset]
      decide
    · show 0 ≤ w'.baseFilePos
      omega
    · show 0 ≤ g.dataCount
      omega
    · show (logDump f log).pending = numbersUpTo g.dataCount g.dataCount
      rw [numbersUpTo_self, logDump, hw]
    · intro d hd
      rw [logDump, hw] at hd
      simp only [List.getLast?_concat, Option.mem_some_iff] at hd
      subst hd
      exact ⟨hnext.trans hbase.symm, by show g.dataCount = _; rw [hlast, hcount]; omega⟩

/-! ## Room for an item -/

theorem initWriteIndexBlock_spec (hread : f.readIndex = none) (hnone : f.curIndex = none)
    (hpos : Seekable (f.disk.pos + INDEX_BLOCK_SIZE)) :
    ∃ w, (initWriteIndexBlock f).curIndex = some w ∧ w.nextItemOffset = 16 ∧
      w.indexBlockSize = INDEX_BLOCK_SIZE ∧ w.baseFilePos = f.disk.pos ∧ w.dataIndexStart = 0 ∧
      (initWriteIndexBlock f).fileOrg = f.fileOrg ∧
      (initWriteIndexBlock f).readIndex = none ∧
      (initWriteIndexBlock f).dataCount = f.dataCount ∧
      (initWriteIndexBlock f).disk.pos = f.disk.pos + INDEX_BLOCK_SIZE := by
  unfold initWriteIndexBlock
  simp only [hread, hnone, lseek_cur hpos]
  exact ⟨_, rfl, rfl, rfl, by show _ - _ = _; omega, rfl, trivial, trivial, trivial, trivial⟩

/-- The first block. -/
theorem writing_init (h : Writing f log) (hnone : f.curIndex = none)
    (hpos : Seekable (f.disk.pos + INDEX_BLOCK_SIZE)) :
    ∃ w, (initWriteIndexBlock f).curIndex = some w ∧ w.nextItemOffset = 16 ∧
      (initWriteIndexBlock f).dataCount = f.dataCount ∧
      (initWriteIndexBlock f).disk.pos = f.disk.pos + INDEX_BLOCK_SIZE ∧
      Writing (initWriteIndexBlock f) log := by
  obtain ⟨w, hw, hoffset, hsize, hbase, hstart, horg, hread, hcount, hdisk⟩ :=
    initWriteIndexBlock_spec h.readIndex hnone hpos
  obtain ⟨hdumped, hpending, hzero⟩ := h.unstarted hnone
  refine ⟨w, hw, hoffset, hcount, hdisk, h.sound, horg.trans h.fileOrg, hread, ?_, ?_, ?_⟩
  · rw [hcount, hdisk, hzero]
    omega
  · intro hnone'
    rw [hw] at hnone'
    cases hnone'
  · intro w' hw'
    rw [hw, Option.some.injEq] at hw'
    subst hw'
    refine ⟨hsize, by rw [hoffset]; decide, by omega, by omega, ?_, fun d hd => ?_⟩
    · rw [hpending, hstart, hcount, hzero, numbersUpTo_self]
    · rw [hdumped] at hd
      cases hd

/-- What `prepare_index_item` leaves: a block with room for the item, or an empty one. -/
structure PreparedBlock (f g : IndexedFile) (itemLen : Nat) (log log' : IndexLog) : Prop where
  writing : Writing g log'
  dataCount : g.dataCount = f.dataCount
  pos : g.disk.pos ≤ f.disk.pos + 2 * INDEX_BLOCK_SIZE ∧ f.disk.pos ≤ g.disk.pos
  room : ∃ w, g.curIndex = some w ∧
    (w.nextItemOffset + itemLen < INDEX_BLOCK_SIZE - 8 ∨ w.nextItemOffset = 16)

/-- With a block in memory. -/
theorem prepare_started (h : Writing f log) (hw : f.curIndex = some w) (itemLen : Nat)
    (hpos : Seekable (f.disk.pos + INDEX_BLOCK_SIZE)) :
    ∃ g, prepareIndexItem f itemLen = some g ∧
      g.disk.pos ≤ f.disk.pos + INDEX_BLOCK_SIZE ∧
      PreparedBlock f g itemLen log (logPrepare f itemLen log) := by
  have hsize := (h.filling w hw).size
  by_cases hroom : w.nextItemOffset + itemLen ≥ w.indexBlockSize - 8
  · obtain ⟨g, w', hdump, hcur, hoffset, hcount, hgpos, hwriting⟩ := writing_dump h hw hpos
    refine ⟨{ g with curIndex := some { w' with dataIndexStart := g.dataCount } }, ?_,
      le_of_eq hgpos, ?_, hcount, ⟨?_, ?_⟩, _, rfl, .inr hoffset⟩
    · simp only [prepareIndexItem, hw, Option.isNone_some, Bool.false_eq_true, if_false,
        Option.bind_eq_bind, Option.bind_some, if_pos hroom, hdump, hcur]
      rfl
    · rw [logPrepare]
      simp only [hw, Option.isNone_some, Bool.false_eq_true, if_false, if_pos hroom]
      exact hwriting
    · show g.disk.pos ≤ _
      omega
    · show _ ≤ g.disk.pos
      omega
  · refine ⟨f, prepareIndexItem_of_room hw (by omega), by omega, ?_, rfl, by omega, w, hw,
      .inl (by omega)⟩
    rw [logPrepare]
    simp only [hw, Option.isNone_some, Bool.false_eq_true, if_false, if_neg hroom]
    exact h

theorem prepare_spec (h : Writing f log) (itemLen : Nat)
    (hpos : Seekable (f.disk.pos + 2 * INDEX_BLOCK_SIZE)) :
    ∃ g, prepareIndexItem f itemLen = some g ∧
      PreparedBlock f g itemLen log (logPrepare f itemLen log) := by
  have hnear : Seekable (f.disk.pos + INDEX_BLOCK_SIZE) := lt_of_le_of_lt (by omega) hpos
  cases hcur : f.curIndex with
  | some w =>
    obtain ⟨g, hg, -, hprepared⟩ := prepare_started h hcur itemLen hnear
    exact ⟨g, hg, hprepared⟩
  | none =>
    obtain ⟨w, hw, hoffset, hcount, hdisk, hwriting⟩ := writing_init h hcur hnear
    have hpos' : Seekable ((initWriteIndexBlock f).disk.pos + INDEX_BLOCK_SIZE) := by
      rw [hdisk, Nat.add_assoc, ← Nat.two_mul]
      exact hpos
    obtain ⟨g, hg, hgpos, hprepared⟩ := prepare_started hwriting hw itemLen hpos'
    have hsame : prepareIndexItem f itemLen = prepareIndexItem (initWriteIndexBlock f) itemLen := by
      simp only [prepareIndexItem, hcur, hw, Option.isNone_none, Option.isNone_some, if_true,
        Bool.false_eq_true, if_false]
    have hlog : logPrepare f itemLen log = logPrepare (initWriteIndexBlock f) itemLen log := by
      simp only [logPrepare, hcur, hw, Option.isNone_none, Option.isNone_some, if_true,
        Bool.false_eq_true, if_false]
    rw [hsame, hlog]
    refine ⟨g, hg, hprepared.writing, hprepared.dataCount.trans hcount, ?_, hprepared.room⟩
    have hgrown := hprepared.pos.2
    omega

/-- A file that differs only in its bytes, and has come further. -/
theorem Writing.moved (h : Writing f log) {g : IndexedFile} (horg : g.fileOrg = f.fileOrg)
    (hread : g.readIndex = f.readIndex) (hcur : g.curIndex = f.curIndex)
    (hcount : g.dataCount = f.dataCount) (hpos : f.disk.pos ≤ g.disk.pos) : Writing g log := by
  have hcounted := h.counted
  refine ⟨h.sound, horg.trans h.fileOrg, hread.trans h.readIndex, by omega, ?_, ?_⟩
  · rw [hcur, hcount]
    exact h.unstarted
  · intro w hw
    rw [hcur] at hw
    obtain ⟨hsize, hroom, hbase, hstart, hpending, hlinked⟩ := h.filling w hw
    exact ⟨hsize, hroom, hbase, hcount ▸ hstart, hcount ▸ hpending, hlinked⟩

/-- An item is stored inside its block, and the records it is the item of have been counted. -/
theorem Writing.placed (h : Writing f log) (hw : f.curIndex = some w) {bytes : List UInt8}
    {advance : Nat} {numbers : List Int} {g : IndexedFile}
    (hfits : w.nextItemOffset + bytes.length ≤ INDEX_BLOCK_SIZE)
    (hroom : w.nextItemOffset + advance + 4 ≤ INDEX_BLOCK_SIZE)
    (horg : g.fileOrg = f.fileOrg) (hread : g.readIndex = f.readIndex)
    (hcur : g.curIndex = some (w.place bytes advance)) (hcount : f.dataCount ≤ g.dataCount)
    (hpos : 8 * g.dataCount ≤ g.disk.pos)
    (hnumbers : numbersUpTo w.dataIndexStart g.dataCount =
      numbersUpTo w.dataIndexStart f.dataCount ++ numbers) :
    Writing g (logItem f bytes.length numbers log) := by
  have hfilling := h.filling w hw
  have hcounted := h.counted
  rw [logItem, hw]
  refine ⟨⟨fun s hs => ?_, h.sound.placed, h.sound.numbered, h.sound.chain⟩,
    horg.trans h.fileOrg, hread.trans h.readIndex, by omega, ?_, ?_⟩
  · cases List.mem_append.mp hs with
    | inl hold => exact h.sound.inside s hold
    | inr hnew =>
      rw [List.mem_singleton.mp hnew]
      exact hfits
  · intro hnone
    rw [hcur] at hnone
    cases hnone
  · intro w' hw'
    rw [hcur, Option.some.injEq] at hw'
    subst hw'
    have hstart := hfilling.start
    refine ⟨hfilling.size, hroom, hfilling.base, ⟨hstart.1, le_trans hstart.2 hcount⟩, ?_,
      hfilling.linked⟩
    show log.pending ++ numbers = _
    rw [hfilling.pending]
    exact hnumbers.symm

end

/-! ## The calls -/

section
variable {f : FFSWriter}

/-- The writer between two calls. -/
def FFSWriter.Between (f : FFSWriter) : Prop := Writing f.file f.log

/-- Bytes that are not the index's. -/
theorem Writing.wrote {file : IndexedFile} {log : IndexLog} (h : Writing file log) {disk : Disk}
    (hpos : file.disk.pos ≤ disk.pos) : Writing (updateFpos { file with disk }) log :=
  h.moved rfl rfl rfl rfl hpos

theorem between_writeComment (h : f.Between) {text : CString}
    (hfits : WriterCall.Fits f (.comment text)) : (f.writeComment text).Between := by
  unfold FFSWriter.Between FFSWriter.writeComment
  dsimp only
  refine Writing.wrote h ?_
  have hflat : [commentIndicator text.stored.length, text.stored].flatten.length =
      4 + text.stored.length := by simp [commentIndicator]
  unfold WriterCall.Fits Seekable at hfits
  rw [writev_pos (by omega)]
  exact Nat.le_add_right _ _

/-- `output_format_index` for an identifier that fits in an empty block. -/
theorem between_outputFormat (h : f.Between) {serverId : List UInt8}
    (hfits : 28 + serverId.length + 4 ≤ INDEX_BLOCK_SIZE)
    (hpos : Seekable (f.file.disk.pos + 2 * INDEX_BLOCK_SIZE)) :
    ∃ g, f.outputFormatIndex serverId = some g ∧ g.Between ∧ g.file.dataCount = f.file.dataCount ∧
      f.file.disk.pos ≤ g.file.disk.pos ∧
      g.file.disk.pos ≤ f.file.disk.pos + 2 * INDEX_BLOCK_SIZE := by
  have hlen : INDEX_BLOCK_SIZE = 256 := rfl
  obtain ⟨g, hprep, hwriting, hcount, hgpos, w, hw, hroom⟩ :=
    prepare_spec h (12 + serverId.length) hpos
  have horg : f.file.fileOrg = .indexed := h.fileOrg
  have hitem : (formatItemBytes g.fpos serverId).length = 12 + serverId.length := by
    simp only [formatItemBytes, List.length_append, length_beBytes]
  let placed : IndexedFile :=
    { g with curIndex := some (w.place (formatItemBytes g.fpos serverId) (12 + serverId.length)) }
  have hout : FFS.outputFormatIndex f.file serverId = some placed := by
    rw [FFS.outputFormatIndex, if_neg (not_not_intro horg)]
    simp only [Option.bind_eq_bind, hprep, Option.bind_some, placeItem, hw]
    rfl
  have hcounted := hwriting.counted
  have hplaced : Writing placed (logItem g (12 + serverId.length) []
      (logPrepare f.file (12 + serverId.length) f.log)) := by
    have hinside : w.nextItemOffset + (formatItemBytes g.fpos serverId).length ≤
        INDEX_BLOCK_SIZE := by omega
    have hend : w.nextItemOffset + (12 + serverId.length) + 4 ≤ INDEX_BLOCK_SIZE := by omega
    have hsame := @Writing.placed g _ w hwriting hw _ _ [] placed hinside hend rfl rfl rfl
      (Int.le_refl _) hcounted.2 (List.append_nil _).symm
    rwa [hitem] at hsame
  refine ⟨{ f with file := placed, log := _ }, ?_, hplaced, hcount, hgpos.2, hgpos.1⟩
  rw [FFSWriter.outputFormatIndex, hout]
  simp only [Option.bind_eq_bind, Option.bind_some, if_neg (not_not_intro horg), hprep]
  rfl

/-- A format that fits has its item in the index, and itself in the file. -/
theorem between_writeFormat (h : f.Between) {format : WrittenFormat}
    (hrep : f.hasRep format = true)
    (hfits : 28 + format.serverId.length + 4 ≤ INDEX_BLOCK_SIZE)
    (hpos : Seekable (f.file.disk.pos + 2 * INDEX_BLOCK_SIZE +
      (8 + format.serverId.length + format.serverRep.length))) :
    ∃ g, f.writeFormatToFile format = some g ∧ g.Between ∧ g.file.dataCount = f.file.dataCount ∧
      f.file.disk.pos ≤ g.file.disk.pos ∧
      g.file.disk.pos ≤ f.file.disk.pos + 2 * INDEX_BLOCK_SIZE +
        (8 + format.serverId.length + format.serverRep.length) := by
  unfold Seekable at hpos
  obtain ⟨g, hout, hbetween, hcount, hle, hge⟩ := between_outputFormat h hfits
    (show Seekable _ from lt_of_le_of_lt (Nat.le_add_right _ _) hpos)
  let iov := [formatIndicator format.serverId.length format.serverRep.length, format.serverId,
    format.serverRep]
  have hflat : iov.flatten.length = 8 + format.serverId.length + format.serverRep.length := by
    simp only [iov, formatIndicator, List.flatten_cons, List.flatten_nil, List.length_append,
      length_beBytes, List.length_nil]
    omega
  have hdisk : (g.file.disk.writev iov).pos = g.file.disk.pos + iov.flatten.length :=
    writev_pos (by omega)
  have hgrown : g.file.disk.pos ≤ (g.file.disk.writev iov).pos := by omega
  refine ⟨{ g with file := updateFpos { g.file with disk := g.file.disk.writev iov },
                   written := format.formatIndex :: g.written }, ?_, ?_, ?_, ?_, ?_⟩
  · simp only [FFSWriter.writeFormatToFile, if_pos hrep, hout, Option.bind_eq_bind,
      Option.bind_some, Option.pure_def, iov]
  · exact Writing.wrote hbetween hgrown
  · rw [updateFpos_dataCount]
    exact hcount
  · rw [updateFpos_disk]
    dsimp only
    omega
  · rw [updateFpos_disk]
    dsimp only
    omega

/-- `output_data_index` for an item that fits in an empty block, up to the record being written and
counted. -/
theorem between_outputData (h : f.Between) {serverId attrs : List UInt8}
    (hfits : 28 + (dataTotalLen serverId attrs + 3) / 4 * 4 + 4 ≤ INDEX_BLOCK_SIZE)
    (hpos : Seekable (f.file.disk.pos + 2 * INDEX_BLOCK_SIZE)) :
    ∃ g, f.outputDataIndex serverId attrs = some g ∧
      (∀ disk : Disk, g.file.disk.pos + 8 ≤ disk.pos →
        Writing (updateFpos { g.file with disk, dataCount := g.file.dataCount + 1 }) g.log) ∧
      g.file.disk.pos ≤ f.file.disk.pos + 2 * INDEX_BLOCK_SIZE := by
  have hlen : INDEX_BLOCK_SIZE = 256 := rfl
  obtain ⟨g, hprep, hwriting, hcount, hgpos, w, hw, hroom⟩ :=
    prepare_spec h (12 + dataTotalLen serverId attrs) hpos
  have horg : f.file.fileOrg = .indexed := h.fileOrg
  have hitem : (dataItemBytes g.fpos serverId attrs).length =
      12 + dataTotalLen serverId attrs := by
    simp only [dataItemBytes, dataTotalLen, List.length_append, length_beBytes]
    omega
  let next := w.place (dataItemBytes g.fpos serverId attrs)
    (12 + (dataTotalLen serverId attrs + 3) / 4 * 4)
  let placed : IndexedFile := { g with curIndex := some next }
  have hout : FFS.outputDataIndex f.file serverId attrs = some placed := by
    rw [FFS.outputDataIndex, if_neg (not_not_intro horg)]
    simp only [Option.bind_eq_bind, hprep, Option.bind_some, placeItem, hw]
    rfl
  have hcounted := hwriting.counted
  have hstart := (hwriting.filling w hw).start
  refine ⟨{ f with
    file := placed
    log := logItem g (12 + dataTotalLen serverId attrs) [f.file.dataCount]
      (logPrepare f.file (12 + dataTotalLen serverId attrs) f.log) }, ?_, ?_, hgpos.1⟩
  · rw [FFSWriter.outputDataIndex, hout]
    simp only [Option.bind_eq_bind, Option.bind_some, if_neg (not_not_intro horg), hprep]
    rfl
  · intro disk hdisk
    have hinside : w.nextItemOffset + (dataItemBytes g.fpos serverId attrs).length ≤
        INDEX_BLOCK_SIZE := by omega
    have hend : w.nextItemOffset + (12 + (dataTotalLen serverId attrs + 3) / 4 * 4) + 4 ≤
        INDEX_BLOCK_SIZE := by omega
    have hbefore : g.disk.pos + 8 ≤ disk.pos := hdisk
    have hone := @Writing.placed g _ w hwriting hw _ _ [f.file.dataCount]
      { placed with disk, dataCount := placed.dataCount + 1 } hinside hend rfl rfl rfl
      (show g.dataCount ≤ g.dataCount + 1 by omega)
      (show 8 * (g.dataCount + 1) ≤ (disk.pos : Int) by omega)
      (by rw [← hcount]; exact numbersUpTo_succ hstart.2)
    rw [hitem] at hone
    exact Writing.wrote hone (Nat.le_refl _)

/-- A record that fits is announced: its format is in the file, and its item in the index. -/
theorem between_announce (h : f.Between) {format : WrittenFormat} {attrs : List UInt8}
    {size : Nat} (hkeeps : KeepsRep f format) (hfits : RecordFits f format attrs size) :
    ∃ g, f.announceRecord format attrs = some g ∧
      (∀ disk : Disk, g.file.disk.pos + 8 ≤ disk.pos →
        Writing (updateFpos { g.file with disk, dataCount := g.file.dataCount + 1 }) g.log) ∧
      g.file.disk.pos + (8 + size) < 2 ^ 31 := by
  obtain ⟨hitem, hpos⟩ := hfits
  have hlen : INDEX_BLOCK_SIZE = 256 := rfl
  have hid : format.serverId.length ≤ dataTotalLen format.serverId attrs := by
    unfold dataTotalLen
    omega
  unfold Seekable at hpos
  have horg : f.file.fileOrg = .indexed := h.fileOrg
  -- The format is in the file, and the file has grown by two blocks and the format at most.
  obtain ⟨g, hg, hbetween, hle⟩ : ∃ g, (if format.formatIndex ∈ f.written then some f
      else f.writeFormatToFile format) = some g ∧ g.Between ∧
      g.file.disk.pos ≤ f.file.disk.pos + 2 * INDEX_BLOCK_SIZE +
        (8 + format.serverId.length + format.serverRep.length) := by
    by_cases hwritten : format.formatIndex ∈ f.written
    · exact ⟨f, if_pos hwritten, h, by omega⟩
    · obtain ⟨g, hg, hbetween, -, -, hle⟩ := between_writeFormat h (hkeeps hwritten)
        (show 28 + format.serverId.length + 4 ≤ INDEX_BLOCK_SIZE by omega)
        (show Seekable _ from lt_of_le_of_lt (by omega) hpos)
      exact ⟨g, (if_neg hwritten).trans hg, hbetween, hle⟩
  obtain ⟨k, hk, hdone, hkle⟩ := between_outputData hbetween hitem
    (show Seekable _ from lt_of_le_of_lt (by omega) hpos)
  refine ⟨k, ?_, hdone, by omega⟩
  simp only [FFSWriter.announceRecord, if_pos horg, Option.bind_eq_bind, Option.bind_some]
  by_cases hwritten : format.formatIndex ∈ f.written
  · rw [if_pos hwritten, Option.some.injEq] at hg
    rw [if_pos hwritten, hg]
    exact hk
  · rw [if_neg hwritten] at hg
    rw [if_neg hwritten, hg]
    exact hk

theorem writeAttrs_of_announced {g : FFSWriter} {format : WrittenFormat} {attrs : List UInt8}
    (hg : f.announceRecord format attrs = some g) (vec : List (List UInt8)) :
    f.writeAttrs format attrs vec = some { g with
      file := updateFpos { g.file with
        disk := writeVec g.maxIov vec.length g.file.disk (dataIndicator vec.flatten.length :: vec)
        dataCount := g.file.dataCount + 1 } } := by
  rw [FFSWriter.writeAttrs, hg, Option.bind_eq_bind, Option.bind_some, Option.pure_def]

/-- Nothing of the file changes where a format is loaded. -/
theorem loadExternalFormat_file {rep : Nat} {format : WrittenFormat} {g : FFSWriter}
    (h : f.loadExternalFormat rep format = some g) :
    g.file = f.file ∧ g.log = f.log ∧ g.written = f.written := by
  unfold FFSWriter.loadExternalFormat at h
  split at h
  · cases h
    exact ⟨rfl, rfl, rfl⟩
  · split at h
    · cases h
      exact ⟨rfl, rfl, rfl⟩
    · cases h

theorem writeEncoded_of_announced {g g' : FFSWriter} {rep : Nat} {format : WrittenFormat}
    {attrs : List UInt8} (hrep : rep ∉ f.freed) (hload : f.loadExternalFormat rep format = some g)
    (hg : g.announceRecord format attrs = some g') (data : List UInt8) :
    f.writeEncoded rep format attrs data = some { g' with
      file := updateFpos { g'.file with
        disk := g'.file.disk.writev [dataIndicator data.length, data]
        dataCount := g'.file.dataCount + 1 } } := by
  rw [FFSWriter.writeEncoded, if_neg hrep, hload, Option.bind_eq_bind, Option.bind_some]
  simp only [hg, Option.bind_some, Option.pure_def]

theorem between_writeAttrs (h : f.Between) {format : WrittenFormat} {attrs : List UInt8}
    {vec : List (List UInt8)} (hkeeps : KeepsRep f format)
    (hfits : RecordFits f format attrs vec.flatten.length) :
    ∃ g, f.writeAttrs format attrs vec = some g ∧ g.Between := by
  obtain ⟨g, hg, hdone, hpos⟩ := between_announce h hkeeps hfits
  have hwhole : (dataIndicator vec.flatten.length :: vec).flatten.length =
      8 + vec.flatten.length := by
    simp only [dataIndicator, List.flatten_cons, List.length_append, length_beBytes]
  have hdisk := @writeVec_pos g.maxIov vec.length (dataIndicator vec.flatten.length :: vec)
    g.file.disk (by omega)
  exact ⟨_, writeAttrs_of_announced hg vec, hdone _ (by omega)⟩

theorem between_writeEncoded (h : f.Between) {rep : Nat} {format : WrittenFormat}
    {attrs data : List UInt8} (hfits : WriterCall.Fits f (.encoded rep format attrs data)) :
    ∃ g, f.writeEncoded rep format attrs data = some g ∧ g.Between := by
  obtain ⟨hrep, ⟨g, hload, hkeeps⟩, hfits⟩ := hfits
  obtain ⟨hfile, hlog, -⟩ := loadExternalFormat_file hload
  have hbetween : g.Between := by
    rw [FFSWriter.Between, hfile, hlog]
    exact h
  have hfits' : RecordFits g format attrs data.length := by
    rw [RecordFits, hfile]
    exact hfits
  obtain ⟨g', hg', hdone, hpos⟩ := between_announce hbetween hkeeps hfits'
  have hwhole : [dataIndicator data.length, data].flatten.length = 8 + data.length := by
    simp only [dataIndicator, List.flatten_cons, List.flatten_nil, List.length_append,
      length_beBytes, List.length_nil, Nat.add_zero]
  have hdisk := @writev_pos g'.file.disk [dataIndicator data.length, data] (by omega)
  exact ⟨_, writeEncoded_of_announced hrep hload hg' data, hdone _ (by omega)⟩

/-- A call that fits goes through. -/
theorem between_run (h : f.Between) {call : WriterCall} (hfits : call.Fits f) :
    ∃ g, call.run f = some g ∧ g.Between := by
  cases call with
  | comment text => exact ⟨f.writeComment text, rfl, between_writeComment h hfits⟩
  | register serverId rep => exact ⟨_, rfl, h⟩
  | attrs format attrList vec => exact between_writeAttrs h hfits.1 hfits.2
  | encoded rep format attrList data => exact between_writeEncoded h hfits

/-- Closing a file with a record in it writes the last block. -/
theorem sound_close (h : f.Between) (hrecord : 0 < f.file.dataCount)
    (hpos : Seekable (f.file.disk.pos + INDEX_BLOCK_SIZE)) :
    ∃ g, f.close = some g ∧ g.log.Sound := by
  have horg : f.file.fileOrg = .indexed := h.fileOrg
  cases hcur : f.file.curIndex with
  | none =>
    have hzero := (h.unstarted hcur).2.2
    omega
  | some w =>
    obtain ⟨g, -, hdump, -⟩ := writing_dump h hcur hpos
    refine ⟨{ f with file := g, log := logDump f.file f.log }, ?_,
      sound_logDump h hcur (lt_of_le_of_lt (Nat.le_add_right _ _) hpos)⟩
    rw [FFSWriter.close, if_pos horg, hdump]
    rfl

end

/-! ## Runs -/

/-- A file opened for appending, as `FFSread_index` and `convert_last_index_block` leave it: its
last block is in memory, with the data items that it has. -/
structure Resumed (f : FFSWriter) (w : WriteIndexInfo) : Prop where
  fileOrg : f.file.fileOrg = .indexed
  readIndex : f.file.readIndex = none
  curIndex : f.file.curIndex = some w
  size : w.indexBlockSize = INDEX_BLOCK_SIZE
  room : w.nextItemOffset + 4 ≤ INDEX_BLOCK_SIZE
  base : 0 ≤ w.baseFilePos
  start : 0 ≤ w.dataIndexStart ∧ w.dataIndexStart ≤ f.file.dataCount
  counted : 8 * f.file.dataCount ≤ f.file.disk.pos
  log : f.log =
    { stores := [], pending := numbersUpTo w.dataIndexStart f.file.dataCount, dumped := [] }

/-- A file that was just opened for writing. -/
inductive Opened : FFSWriter → Prop where
  | created (maxIov : Nat) : Opened (openedWriter maxIov)
  | resumed {f : FFSWriter} {w : WriteIndexInfo} (h : Resumed f w) : Opened f

theorem Opened.between {f : FFSWriter} (h : Opened f) : f.Between := by
  cases h with
  | created maxIov =>
    refine ⟨⟨nofun, nofun, nofun, List.isChain_nil⟩, rfl, rfl, ?_, fun _ => ⟨rfl, rfl, rfl⟩, nofun⟩
    show (0 : Int) ≤ 0 ∧ 8 * (0 : Int) ≤ (4 : Nat)
    decide
  | resumed h =>
    have hstart := h.start
    unfold FFSWriter.Between
    rw [h.log]
    refine ⟨⟨nofun, nofun, nofun, List.isChain_nil⟩, h.fileOrg, h.readIndex,
      ⟨le_trans hstart.1 hstart.2, h.counted⟩, fun hnone => ?_, fun w' hw' => ?_⟩
    · rw [h.curIndex] at hnone
      cases hnone
    · rw [h.curIndex, Option.some.injEq] at hw'
      subst hw'
      exact ⟨h.size, h.room, h.base, hstart, rfl, nofun⟩

/-- In every run of a writer whose calls fit, what is stored lies inside the block and the blocks
written form a chain, also when the file is closed with a record in it. -/
theorem blockChain_sound {opened : FFSWriter} {calls : List WriterCall} (hopened : Opened opened)
    (hfits : RunMeets WriterCall.run (fun f call => call.Fits f) opened calls) :
    ∃ f, runWriter opened calls = some f ∧ f.log.Sound ∧
      (0 < f.file.dataCount → Seekable (f.file.disk.pos + INDEX_BLOCK_SIZE) →
        ∃ g, f.close = some g ∧ g.log.Sound) := by
  obtain ⟨f, hrun, hbetween⟩ := run_invariant FFSWriter.Between
    (fun f call hf hcall => between_run hf hcall) hopened.between hfits
  exact ⟨f, hrun, hbetween.sound, sound_close hbetween⟩

/-! ## Examples -/

/-- A format with an identifier of 8 bytes. -/
def shortFormat : WrittenFormat :=
  { formatIndex := 0, serverId := [1, 0, 0, 0, 1, 2, 3, 4], serverRep := List.replicate 20 0 }

/-- Two records with attributes, which need a block each.  The second frees the representation of
its format in another context. -/
def twoBlockCalls : List WriterCall :=
  [.register shortFormat.serverId 0,
   .attrs shortFormat (List.replicate 180 0) [shortFormat.serverId, List.replicate 8 0],
   .encoded 1 shortFormat (List.replicate 180 0) (List.replicate 16 0)]

theorem blockChain_sound_twoBlocks :
    ∃ f, runWriter (openedWriter 1024) twoBlockCalls = some f ∧
      f.log.Sound ∧ (0 < f.file.dataCount →
        Seekable (f.file.disk.pos + INDEX_BLOCK_SIZE) → ∃ g, f.close = some g ∧ g.log.Sound) := by
  exact blockChain_sound (.created 1024) (by decide +kernel)

/-- A record with 300 bytes of attributes has its item stored past the end of the block. -/
theorem longAttributes_not_sound :
    ∃ f, runWriter (openedWriter 1024) [.register shortFormat.serverId 0,
      .encoded 1 shortFormat (List.replicate 300 0) (List.replicate 16 0)] = some f ∧
        ¬ f.log.Sound := by
  have hstores : (runWriter (openedWriter 1024) [.register shortFormat.serverId 0,
      .encoded 1 shortFormat (List.replicate 300 0) (List.replicate 16 0)]).map (·.log.stores) =
        some [(16, 20), (36, 4), (16, 324)] := by decide +kernel
  obtain ⟨f, hf, hlog⟩ := Option.map_eq_some_iff.mp hstores
  refine ⟨f, hf, fun h => ?_⟩
  have hinside := h.inside (16, 324) (by rw [hlog]; simp)
  exact absurd hinside (by decide)

end FFS
