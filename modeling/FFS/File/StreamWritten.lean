import FFS.File.Stream

/-!
# What a writer leaves in a file

The records of the calls stand one behind the other, and in a file with an index the blocks between
them.  While a block is being filled, its place in the file is a hole.
-/

namespace FFS

open Machine

/-! ## Disks that are written at their end -/

namespace Disk

variable {d : Disk}

/-- The bytes up to the position, which may be behind the end of the file. -/
def front (d : Disk) : List UInt8 := d.bytes ++ List.replicate (d.pos - d.bytes.length) 0

/-- Nothing stands behind the position. -/
def AtEnd (d : Disk) : Prop := d.bytes.length ≤ d.pos

theorem length_front (h : d.AtEnd) : d.front.length = d.pos := by
  unfold AtEnd at h
  rw [front, List.length_append, List.length_replicate]
  omega

theorem front_of_whole (h : d.bytes.length = d.pos) : d.front = d.bytes := by
  rw [front, h, Nat.sub_self, List.replicate_zero, List.append_nil]

theorem put_nil (d : Disk) : d.put [] = d := if_pos rfl

theorem put_of_ne_nil (h : d.AtEnd) {bs : List UInt8} (hne : bs ≠ []) :
    d.put bs = ⟨d.front ++ bs, d.pos + bs.length⟩ := by
  have hlength := length_front h
  unfold AtEnd at h
  rw [put, if_neg hne, ← front, List.take_of_length_le (le_of_eq hlength),
    List.drop_eq_nil_of_le (by omega), List.append_nil]

theorem put_append (h : d.AtEnd) (bs bs' : List UInt8) :
    (d.put bs).put bs' = d.put (bs ++ bs') := by
  by_cases hbs : bs = []
  · rw [hbs, put_nil, List.nil_append]
  · by_cases hbs' : bs' = []
    · rw [hbs', put_nil, List.append_nil]
    · have hlength : (d.front ++ bs).length = d.pos + bs.length := by
        rw [List.length_append, length_front h]
      have hwhole : (⟨d.front ++ bs, d.pos + bs.length⟩ : Disk).front = d.front ++ bs :=
        front_of_whole hlength
      rw [put_of_ne_nil h hbs, put_of_ne_nil (le_of_eq hlength) hbs', hwhole,
        put_of_ne_nil h (List.append_ne_nil_of_left_ne_nil hbs _), List.append_assoc,
        List.length_append, Nat.add_assoc]

theorem put_atEnd (h : d.AtEnd) (bs : List UInt8) : (d.put bs).AtEnd := by
  by_cases hbs : bs = []
  · rw [hbs, put_nil]
    exact h
  · rw [put_of_ne_nil h hbs]
    unfold AtEnd
    rw [List.length_append, length_front h]

/-- Bytes in front of the position are written again. -/
theorem front_overwrite (h : d.AtEnd) {base : Nat} {bs : List UInt8}
    (hinside : base + bs.length ≤ d.pos) (hne : bs ≠ []) :
    let written : Disk := { ({ d with pos := base } : Disk).put bs with pos := d.pos }
    written.AtEnd ∧ written.front = d.front.take base ++ bs ++ d.front.drop (base + bs.length) ∧
      written.bytes.length = max d.bytes.length (base + bs.length) := by
  have hbefore : (d.bytes ++ List.replicate (base - d.bytes.length) 0).take base =
      d.front.take base := by
    have hsplit : d.pos - d.bytes.length =
        (base - d.bytes.length) + (d.pos - d.bytes.length - (base - d.bytes.length)) := by
      omega
    rw [front, hsplit, List.replicate_add, ← List.append_assoc]
    refine (List.take_append_of_le_length ?_).symm
    rw [List.length_append, List.length_replicate]
    omega
  have htake : (d.front.take base).length = base := by
    rw [List.length_take, length_front h]
    omega
  have hput : ({ d with pos := base } : Disk).put bs =
      ⟨d.front.take base ++ bs ++ d.bytes.drop (base + bs.length), base + bs.length⟩ := by
    rw [put, if_neg hne]
    dsimp only
    rw [hbefore]
  have hlength : (d.front.take base ++ bs ++ d.bytes.drop (base + bs.length)).length =
      max d.bytes.length (base + bs.length) := by
    rw [List.length_append, List.length_append, htake, List.length_drop]
    omega
  unfold AtEnd at h ⊢
  dsimp only
  rw [hput]
  refine ⟨?_, ?_, hlength⟩
  · rw [hlength]
    omega
  · show d.front.take base ++ bs ++ d.bytes.drop (base + bs.length) ++
      List.replicate (d.pos - _) 0 = _
    rw [hlength, List.append_assoc (d.front.take base ++ bs)]
    congr 1
    rw [front, List.drop_append, List.drop_replicate]
    congr 2
    omega

theorem writev_eq_put {iov : List (List UInt8)} (h : iov.flatten.length < 2 ^ 31) :
    d.writev iov = d.put iov.flatten := by
  have hsigned : signed 4 (unsigned 4 (iov.flatten.length : Nat)) = iov.flatten.length :=
    signed_unsigned (by decide) ⟨by omega, by omega⟩
  rw [writev, hsigned]
  split
  · rfl
  · next hzero =>
    have hnil : iov.flatten = [] := List.eq_nil_of_length_eq_zero (by omega)
    rw [hnil, put_nil]

end Disk

theorem writeVec_eq_put {maxIov rounds : Nat} {vec : List (List UInt8)} {d : Disk} (hd : d.AtEnd)
    (h : vec.flatten.length < 2 ^ 31) : writeVec maxIov rounds d vec = d.put vec.flatten := by
  induction rounds generalizing d vec with
  | zero => exact Disk.writev_eq_put h
  | succ rounds ih =>
    rw [writeVec]
    split
    · have hsplit : (vec.take maxIov).flatten ++ (vec.drop maxIov).flatten = vec.flatten := by
        rw [← List.flatten_append, List.take_append_drop]
      have hlength := congrArg List.length hsplit
      rw [List.length_append] at hlength
      rw [Disk.writev_eq_put (by omega), ih (Disk.put_atEnd hd _) (by omega), Disk.put_append hd,
        hsplit]
    · exact Disk.writev_eq_put h

/-! ## The parts of a file -/

/-- The bytes of a record. -/
def StreamItem.bytes : StreamItem → List UInt8
  | .comment text => commentIndicator text.length ++ text
  | .format id rep => formatIndicator id.length rep.length ++ (id ++ rep)
  | .data message => dataIndicator message.length ++ message

/-- A record, or a block of the index. -/
inductive FileSegment where
  | record (item : StreamItem)
  | block (bytes : List UInt8)

namespace FileSegment

def bytes : FileSegment → List UInt8
  | record item => item.bytes
  | block bytes => bytes

def item? : FileSegment → Option StreamItem
  | record item => some item
  | block _ => none

end FileSegment

/-- The bytes of a file behind its magic number. -/
def layout (segments : List FileSegment) : List UInt8 := segments.flatMap FileSegment.bytes

theorem layout_append (segments segments' : List FileSegment) :
    layout (segments ++ segments') = layout segments ++ layout segments' := List.flatMap_append

theorem StreamItem.bytes_ne_nil (item : StreamItem) : item.bytes ≠ [] := by
  cases item with
  | comment text =>
    exact List.append_ne_nil_of_left_ne_nil (List.ne_nil_of_length_pos (by
      rw [commentIndicator, length_beBytes]
      decide)) _
  | format id rep =>
    exact List.append_ne_nil_of_left_ne_nil (List.ne_nil_of_length_pos (by
      rw [formatIndicator, List.length_append, length_beBytes, length_beBytes]
      decide)) _
  | data message =>
    exact List.append_ne_nil_of_left_ne_nil (List.ne_nil_of_length_pos (by
      rw [dataIndicator, List.length_append, length_beBytes, length_beBytes]
      decide)) _

/-- The block is one for `FFSread_index`, which does not put the first word into it. -/
structure BlockReads (block : List UInt8) : Prop where
  length : block.length = INDEX_BLOCK_SIZE
  head : word block 0 = some (0x4 * 2 ^ 24 + INDEX_BLOCK_SIZE)
  parses : ∃ parsed, parseIndexBlock (List.replicate 4 0 ++ block.drop 4) = some parsed

/-! ## The block in memory -/

/-- The block in memory has the entries, which keep the two cursors together. -/
structure HoldsEntries (w : WriteIndexInfo) (es : List IndexEntry) : Prop where
  size : w.indexBlockSize = INDEX_BLOCK_SIZE
  offset : w.nextItemOffset = cursorAfter 16 es
  block : ∃ m, w.indexBlock = stored m 16 es
  room : cursorAfter 16 es + 4 ≤ INDEX_BLOCK_SIZE
  ids : ∀ e ∈ es, LibraryIdLength e.serverId
  aligned : ∀ e ∈ es, e.Aligned

theorem stored_append (m : Mem) (offset : Nat) (es es' : List IndexEntry) :
    stored m offset (es ++ es') = stored (stored m offset es) (cursorAfter offset es) es' := by
  induction es generalizing m offset with
  | nil => rfl
  | cons e es ih => exact ih _ _

theorem cursorAfter_append (offset : Nat) (es es' : List IndexEntry) :
    cursorAfter offset (es ++ es') = cursorAfter (cursorAfter offset es) es' := by
  induction es generalizing offset with
  | nil => rfl
  | cons e es ih => exact ih _

/-- A new block. -/
theorem holdsEntries_fresh {w : WriteIndexInfo} (hsize : w.indexBlockSize = INDEX_BLOCK_SIZE)
    (hoffset : w.nextItemOffset = 16) : HoldsEntries w [] where
  size := hsize
  offset := hoffset
  block := ⟨w.indexBlock, rfl⟩
  room := by decide
  ids := List.forall_mem_nil _
  aligned := List.forall_mem_nil _

/-- One entry more. -/
theorem HoldsEntries.place {w : WriteIndexInfo} {es : List IndexEntry} (h : HoldsEntries w es)
    {e : IndexEntry} (hroom : w.nextItemOffset + e.advance + 4 ≤ INDEX_BLOCK_SIZE)
    (hid : LibraryIdLength e.serverId) (haligned : e.Aligned) :
    HoldsEntries (w.place e.bytes e.advance) (es ++ [e]) := by
  obtain ⟨m, hm⟩ := h.block
  have hcursor : cursorAfter 16 (es ++ [e]) = w.nextItemOffset + e.advance := by
    rw [cursorAfter_append, ← h.offset]
    rfl
  refine ⟨h.size, hcursor.symm, ⟨m, ?_⟩, by omega, ?_, ?_⟩
  · rw [stored_append, ← hm, ← h.offset]
    rfl
  · intro x hx
    rcases List.mem_append.mp hx with hx | hx
    · exact h.ids x hx
    · rw [List.mem_singleton.mp hx]
      exact hid
  · intro x hx
    rcases List.mem_append.mp hx with hx | hx
    · exact h.aligned x hx
    · rw [List.mem_singleton.mp hx]
      exact haligned

/-- The first words of a block and what is behind them. -/
theorem read_header (m : Mem) {header : List UInt8} (h : header.length = 16) :
    (m.write 0 header).read 0 INDEX_BLOCK_SIZE = header ++ m.read 16 240 := by
  have hsplit : (m.write 0 header).read 0 (16 + 240) =
      (m.write 0 header).read 0 16 ++ (m.write 0 header).read (0 + 16) 240 := Mem.read_add _ _ _ _
  rw [show INDEX_BLOCK_SIZE = 16 + 240 from rfl, hsplit, Mem.read_write_of_length h,
    Mem.read_write_of_disjoint (.inr (by omega))]

/-- A block that is dumped can be read. -/
theorem blockReads_dumped {f : IndexedFile} {w : WriteIndexInfo} {es : List IndexEntry}
    (h : HoldsEntries w es) (horg : f.fileOrg = .indexed) : BlockReads (dumpedBlock f w) := by
  obtain ⟨m, hm⟩ := h.block
  let body := (stored m 16 es).write (cursorAfter 16 es) (beBytes 4 endItem)
  let words := beBytes 4 (unsigned 4 (f.disk.lseek 0 .cur).1) ++
    beBytes 4 (unsigned 4 w.dataIndexStart) ++ beBytes 4 (unsigned 4 (f.dataCount - 1))
  let kind := beBytes 4 (0x4 * 2 ^ 24 + INDEX_BLOCK_SIZE)
  have hwords : words.length = 12 := by
    simp only [words, List.length_append, length_beBytes]
  have hkind : kind.length = 4 := length_beBytes _ _
  have hdumped : dumpedBlock f w = kind ++ words ++ body.read 16 240 := by
    have hheader : indexHeader INDEX_BLOCK_SIZE (f.disk.lseek 0 .cur).1 w.dataIndexStart
        (f.dataCount - 1) = kind ++ words := by
      simp only [indexHeader, kind, words, List.append_assoc]
    rw [← read_header body (by rw [List.length_append, hkind, hwords]), ← hheader]
    simp only [dumpedBlock, sealIndexBlock, outputIndexEnd, if_pos horg, h.size, hm, h.offset,
      body]
  have hlength : (kind ++ words ++ body.read 16 240).length = INDEX_BLOCK_SIZE := by
    rw [List.length_append, List.length_append, hkind, hwords, Mem.length_read]
    rfl
  refine ⟨by rw [hdumped]; exact hlength, ?_, ?_⟩
  · rw [hdumped, word, span, Nat.zero_add, if_pos (by rw [hlength]; decide), List.drop_zero,
      List.append_assoc, List.take_left' hkind, Option.map_some, beValue_beBytes]
    rfl
  · -- The parser does not look at the first word.
    have hzeros : (List.replicate 4 (0 : UInt8) ++ words).length = 16 := by
      rw [List.length_append, List.length_replicate, hwords]
    have hblock : List.replicate 4 0 ++ (dumpedBlock f w).drop 4 =
        (body.write 0 (List.replicate 4 0 ++ words)).read 0 INDEX_BLOCK_SIZE := by
      rw [read_header body hzeros, hdumped, List.append_assoc kind, List.drop_left' hkind]
      exact (List.append_assoc _ _ _).symm
    have hlays := @lays_sealed m 16 es _ hzeros (Nat.le_refl 16)
    have hle := le_cursorAfter 16 es
    obtain ⟨extra, hextra⟩ := Nat.exists_eq_add_of_le
      (show es.length + 1 ≤ INDEX_BLOCK_SIZE + 1 by have := h.room; omega)
    have hparse := parseElements_aligned h.ids h.aligned hlays h.room (by decide) extra
    obtain ⟨next, start, last, hindex⟩ :=
      parseIndexBlock_read (body.write 0 (List.replicate 4 0 ++ words))
    rw [hblock]
    rw [hextra, hparse] at hindex
    exact ⟨_, hindex⟩

/-! ## Files that are being written -/

theorem filterMap_records (items : List StreamItem) :
    (items.map FileSegment.record).filterMap FileSegment.item? = items := by
  rw [List.filterMap_map]
  exact List.filterMap_some

theorem lseek_cur_disk (d : Disk) : (d.lseek 0 .cur).2 = d := by
  simp only [Disk.lseek]
  rw [if_neg (by omega)]
  rfl

theorem lseek_set_disk (d : Disk) (pos : Nat) : (d.lseek pos .set).2 = { d with pos } := by
  simp only [Disk.lseek]
  rw [if_neg (by omega)]
  rfl

theorem lseek_bytes (d : Disk) (offset : Int) (whence : Whence) :
    (d.lseek offset whence).2.bytes = d.bytes := by
  simp only [Disk.lseek]
  rw [apply_ite Prod.snd, apply_ite Disk.bytes]
  exact ite_self _

theorem initWriteIndexBlock_bytes (f : IndexedFile) :
    (initWriteIndexBlock f).disk.bytes = f.disk.bytes := by
  unfold initWriteIndexBlock
  split
  · rfl
  · exact lseek_bytes _ _ _

/-- The bytes in front of the place of the block in memory. -/
def written (done : List FileSegment) : List UInt8 :=
  beBytes 4 FFSReader.MAGIC_NUMBER ++ layout done

theorem written_append (done done' : List FileSegment) :
    written (done ++ done') = written done ++ layout done' := by
  rw [written, written, layout_append, List.append_assoc]

/-- The segments with a block at its place. -/
def filled (done : List FileSegment) (block : List UInt8) (behind : List StreamItem) :
    List FileSegment :=
  done ++ .block block :: behind.map .record

theorem filterMap_filled (done : List FileSegment) (block : List UInt8)
    (behind : List StreamItem) :
    (filled done block behind).filterMap FileSegment.item? =
      done.filterMap FileSegment.item? ++ behind := by
  rw [filled, List.filterMap_append, List.filterMap_cons_none rfl, filterMap_records]

/-- What is in a file between two steps of its writer.  A block that is being filled has its place
between the segments that are `done` and the records behind them. -/
inductive Laid (f : IndexedFile) (items : List StreamItem) : Prop where
  | plain (hcur : f.curIndex = none) (hbytes : f.disk.bytes = written (items.map .record))
      (hpos : f.disk.bytes.length = f.disk.pos)
  | filling {w : WriteIndexInfo} {es : List IndexEntry} {done : List FileSegment}
      {behind : List StreamItem} {hole : List UInt8} (hcur : f.curIndex = some w)
      (hholds : HoldsEntries w es) (hitems : done.filterMap FileSegment.item? ++ behind = items)
      (hdone : ∀ b, .block b ∈ done → BlockReads b)
      (hbase : w.baseFilePos = ((written done).length : Nat))
      (hhole : hole.length = INDEX_BLOCK_SIZE)
      (hfront : f.disk.front = written done ++ hole ++ layout (behind.map .record))
      (htail : f.disk.bytes.length = f.disk.pos ∨
        f.disk.bytes.length = (written done).length ∧
          f.disk.pos = (written done).length + INDEX_BLOCK_SIZE) : Laid f items

namespace Laid

variable {f g : IndexedFile} {items : List StreamItem} {w : WriteIndexInfo}

theorem atEnd (h : Laid f items) : f.disk.AtEnd := by
  unfold Disk.AtEnd
  cases h with
  | plain hnone hbytes hpos => exact le_of_eq hpos
  | filling hsome hholds hitems hdone hbase hhole hfront htail => omega

/-- A record is written. -/
theorem put (h : Laid f items) {item : StreamItem} (hcur : g.curIndex = f.curIndex)
    (hdisk : g.disk = f.disk.put item.bytes) : Laid g (items ++ [item]) := by
  have hlayout : layout ([item].map FileSegment.record) = item.bytes := List.append_nil _
  have hput := Disk.put_of_ne_nil h.atEnd item.bytes_ne_nil
  have hlength := Disk.length_front h.atEnd
  have hwhole : g.disk.bytes.length = g.disk.pos := by
    rw [hdisk, hput, List.length_append, hlength]
  rw [hput] at hdisk
  cases h with
  | plain hnone hbytes hpos =>
    refine .plain (hcur.trans hnone) ?_ hwhole
    rw [hdisk, Disk.front_of_whole hpos, hbytes, List.map_append, written_append, hlayout]
  | filling hsome hholds hitems hdone hbase hhole hfront htail =>
    refine .filling (hcur.trans hsome) hholds (by rw [← List.append_assoc, hitems]) hdone hbase
      hhole ?_ (.inl hwhole)
    rw [Disk.front_of_whole hwhole, hdisk, hfront, List.map_append, layout_append, hlayout,
      List.append_assoc]

/-- The place of the first block is kept free. -/
theorem init (h : Laid f items) (hread : f.readIndex = none) (hnone : f.curIndex = none)
    (hpos : Seekable (f.disk.pos + INDEX_BLOCK_SIZE)) : Laid (initWriteIndexBlock f) items := by
  cases h with
  | plain _ hbytes hwhole =>
    unfold initWriteIndexBlock
    simp only [hread, hnone, lseek_cur hpos]
    refine @Laid.filling _ _ _ _ (items.map .record) [] (List.replicate INDEX_BLOCK_SIZE 0) rfl
      (holdsEntries_fresh rfl rfl) ?_ ?_ ?_ List.length_replicate ?_ (.inr ⟨?_, ?_⟩)
    · rw [List.append_nil, filterMap_records]
    · intro b hb
      obtain ⟨item, -, hitem⟩ := List.mem_map.mp hb
      cases hitem
    · rw [← hbytes, hwhole]
      dsimp only
      omega
    · show f.disk.bytes ++
        List.replicate (f.disk.pos + INDEX_BLOCK_SIZE - f.disk.bytes.length) 0 = _
      rw [hwhole, Nat.add_sub_cancel_left, hbytes]
      exact (List.append_nil _).symm
    · exact congrArg List.length hbytes
    · rw [← hbytes, hwhole]
  | filling hsome =>
    rw [hnone] at hsome
    cases hsome

/-- The block in memory is written to its place. -/
theorem dump_bytes (horg : f.fileOrg = .indexed) {es : List IndexEntry} {done : List FileSegment}
    {behind : List StreamItem} {hole : List UInt8}
    (hholds : HoldsEntries w es) (hbase : w.baseFilePos = ((written done).length : Nat))
    (hhole : hole.length = INDEX_BLOCK_SIZE)
    (hfront : f.disk.front = written done ++ hole ++ layout (behind.map .record))
    (htail : f.disk.bytes.length = f.disk.pos ∨
      f.disk.bytes.length = (written done).length ∧
        f.disk.pos = (written done).length + INDEX_BLOCK_SIZE) :
    ((f.disk.lseek 0 .cur).2.lseek w.baseFilePos .set).2.write (dumpedBlock f w) =
        ⟨written (filled done (dumpedBlock f w) behind),
          (written done).length + INDEX_BLOCK_SIZE⟩ ∧
      (written (filled done (dumpedBlock f w) behind)).length = f.disk.pos := by
  have hatEnd : f.disk.AtEnd := by
    unfold Disk.AtEnd
    omega
  have hlength := Disk.length_front hatEnd
  have hblock : (dumpedBlock f w).length = INDEX_BLOCK_SIZE :=
    (blockReads_dumped hholds horg).length
  have hsum := congrArg List.length hfront
  rw [List.length_append, List.length_append, hhole, hlength] at hsum
  obtain ⟨-, hover, hmax⟩ := Disk.front_overwrite hatEnd
    (show (written done).length + (dumpedBlock f w).length ≤ f.disk.pos by omega)
    (List.ne_nil_of_length_pos (by rw [hblock]; decide))
  have hspread : (written done ++ hole ++ layout (behind.map .record)).take (written done).length ++
      dumpedBlock f w ++ (written done ++ hole ++ layout (behind.map .record)).drop
        ((written done).length + INDEX_BLOCK_SIZE) =
      written (filled done (dumpedBlock f w) behind) := by
    have hdrop : (written done ++ hole).length = (written done).length + INDEX_BLOCK_SIZE := by
      rw [List.length_append, hhole]
    rw [← hdrop, List.drop_left, List.append_assoc (written done) hole, List.take_left, filled,
      written_append, List.append_assoc]
    rfl
  rw [hfront, hblock, hspread] at hover
  have hwhole : (({ f.disk with pos := (written done).length } : Disk).put
      (dumpedBlock f w)).bytes.length = f.disk.pos := by
    rw [hmax, hblock]
    omega
  rw [Disk.front_of_whole hwhole] at hover
  dsimp only at hover
  have hbytes := hover
  rw [hover] at hwhole
  refine ⟨?_, hwhole⟩
  rw [lseek_cur_disk, hbase, lseek_set_disk, Disk.write]
  have hplace : (({ f.disk with pos := (written done).length } : Disk).put
      (dumpedBlock f w)).pos = (written done).length + INDEX_BLOCK_SIZE := by
    rw [put_pos, hblock]
  rw [← hbytes, ← hplace]

theorem blocks_read (horg : f.fileOrg = .indexed) {es : List IndexEntry} {done : List FileSegment}
    (behind : List StreamItem) (hholds : HoldsEntries w es)
    (hdone : ∀ b, .block b ∈ done → BlockReads b) :
    ∀ b, .block b ∈ filled done (dumpedBlock f w) behind → BlockReads b := by
  intro b hb
  rcases List.mem_append.mp hb with hb | hb
  · exact hdone b hb
  · rcases List.mem_cons.mp hb with hb | hb
    · cases hb
      exact blockReads_dumped hholds horg
    · obtain ⟨item, -, hitem⟩ := List.mem_map.mp hb
      cases hitem

theorem dumpIndexBlock_eq (hcur : f.curIndex = some w) :
    ∃ g : IndexedFile, dumpIndexBlock f = some (initWriteIndexBlock g) ∧
      g.disk = ((((f.disk.lseek 0 .cur).2.lseek w.baseFilePos .set).2.write
        (dumpedBlock f w)).lseek (f.disk.lseek 0 .cur).1 .set).2 ∧
      g.readIndex = f.readIndex := by
  obtain ⟨disk, hdisk⟩ : ∃ disk, disk = ((((f.disk.lseek 0 .cur).2.lseek w.baseFilePos
    .set).2.write (dumpedBlock f w)).lseek (f.disk.lseek 0 .cur).1 .set).2 := ⟨_, rfl⟩
  refine ⟨{ f with disk, curIndex := some (sealIndexBlock f (f.disk.lseek 0 .cur).1 w) }, ?_,
    hdisk, rfl⟩
  rw [dumpIndexBlock, hcur, hdisk]

/-- Closing the file writes the last block. -/
theorem dump_closes (h : Laid f items) (horg : f.fileOrg = .indexed)
    (hsome : f.curIndex.isSome = true) :
    ∃ g segments, dumpIndexBlock f = some g ∧ g.disk.bytes = written segments ∧
      (written segments).length = f.disk.pos ∧
      segments.filterMap FileSegment.item? = items ∧ ∀ b, .block b ∈ segments → BlockReads b := by
  cases h with
  | plain hnone =>
    rw [hnone] at hsome
    cases hsome
  | @filling w es done behind hole hcur hholds hitems hdone hbase hhole hfront htail =>
    obtain ⟨hwrite, hlength⟩ := dump_bytes horg hholds hbase hhole hfront htail
    obtain ⟨g, hdump, hdisk, -⟩ := dumpIndexBlock_eq hcur
    refine ⟨initWriteIndexBlock g, filled done (dumpedBlock f w) behind, hdump, ?_, hlength,
      (filterMap_filled _ _ _).trans hitems, blocks_read horg behind hholds hdone⟩
    rw [initWriteIndexBlock_bytes, hdisk, lseek_bytes, hwrite]

/-- A block that is full is written, and the place of the next one is kept free. -/
theorem dump (h : Laid f items) (horg : f.fileOrg = .indexed) (hread : f.readIndex = none)
    (hcur : f.curIndex = some w) (hpos : Seekable (f.disk.pos + INDEX_BLOCK_SIZE)) :
    ∃ g w', dumpIndexBlock f = some g ∧ g.curIndex = some w' ∧ ∀ start : Int,
      Laid { g with curIndex := some { w' with dataIndexStart := start } } items := by
  cases h with
  | plain hnone =>
    rw [hnone] at hcur
    cases hcur
  | @filling w' es done behind hole hcur' hholds hitems hdone hbase hhole hfront htail =>
    cases hcur.symm.trans hcur'
    obtain ⟨hwrite, hlength⟩ := dump_bytes horg hholds hbase hhole hfront htail
    let segments := filled done (dumpedBlock f w) behind
    have hend : f.disk.lseek 0 .cur = ((f.disk.pos : Int), f.disk) :=
      @lseek_cur f.disk 0 (lt_of_le_of_lt (by omega) hpos)
    obtain ⟨g, hdump, hdisk, hread'⟩ := dumpIndexBlock_eq hcur
    rw [hwrite, hend, lseek_set_disk] at hdisk
    have hnext : g.disk.lseek INDEX_BLOCK_SIZE .cur =
        (((f.disk.pos + INDEX_BLOCK_SIZE : Nat) : Int),
          ⟨written segments, f.disk.pos + INDEX_BLOCK_SIZE⟩) := by
      rw [hdisk]
      exact lseek_cur hpos
    rw [hdump, initWriteIndexBlock]
    simp only [hread'.trans hread, hnext]
    refine ⟨_, _, rfl, rfl, fun start => @Laid.filling _ _ _ _ segments []
      (List.replicate INDEX_BLOCK_SIZE 0) rfl (holdsEntries_fresh rfl rfl) ?_
      (blocks_read horg behind hholds hdone) ?_ List.length_replicate ?_ (.inr ⟨rfl, ?_⟩)⟩
    · rw [List.append_nil]
      exact (filterMap_filled _ _ _).trans hitems
    · dsimp only
      rw [hlength]
      omega
    · show written segments ++ List.replicate
        (f.disk.pos + INDEX_BLOCK_SIZE - (written segments).length) 0 = _
      rw [hlength, Nat.add_sub_cancel_left]
      exact (List.append_nil _).symm
    · show f.disk.pos + INDEX_BLOCK_SIZE = (written segments).length + INDEX_BLOCK_SIZE
      rw [hlength]

end Laid

end FFS
