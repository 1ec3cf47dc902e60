import FFS.File.RawHeader
import FFS.File.StreamWritten

/-!
# A writer and the records of its calls

A call that can be read back goes through, and leaves its records in the file behind those of the
calls before it, each data record behind its format.
-/

namespace FFS

open Machine

/-! ## The calls -/

namespace Laid

variable {f g : IndexedFile} {items : List StreamItem} {w : WriteIndexInfo} {log : IndexLog}

/-- Room is made for an item in a block in memory. -/
theorem prepare_started (h : Laid f items) (hwriting : Writing f log) (hcur : f.curIndex = some w)
    (hpos : Seekable (f.disk.pos + INDEX_BLOCK_SIZE)) {itemLen : Nat}
    (hprep : prepareIndexItem f itemLen = some g) : Laid g items := by
  simp only [prepareIndexItem, hcur, Option.isNone_some, Bool.false_eq_true, if_false,
    Option.bind_eq_bind, Option.bind_some] at hprep
  split at hprep
  · obtain ⟨g', w', hdump, hcur', hlaid⟩ := h.dump hwriting.fileOrg hwriting.readIndex hcur hpos
    simp only [hdump, hcur', Option.bind_some, Option.pure_def, Option.some.injEq] at hprep
    rw [← hprep]
    exact hlaid _
  · rw [Option.pure_def, Option.some.injEq] at hprep
    rw [← hprep]
    exact h

theorem prepare (h : Laid f items) (hwriting : Writing f log)
    (hpos : Seekable (f.disk.pos + 2 * INDEX_BLOCK_SIZE)) {itemLen : Nat}
    (hprep : prepareIndexItem f itemLen = some g) : Laid g items := by
  have hnear : Seekable (f.disk.pos + INDEX_BLOCK_SIZE) := lt_of_le_of_lt (by omega) hpos
  cases hcur : f.curIndex with
  | some w => exact h.prepare_started hwriting hcur hnear hprep
  | none =>
    obtain ⟨w, hw, -, -, hdisk, hinit⟩ := writing_init hwriting hcur hnear
    have hsame : prepareIndexItem f itemLen = prepareIndexItem (initWriteIndexBlock f) itemLen := by
      simp only [prepareIndexItem, hcur, hw, Option.isNone_none, Option.isNone_some, if_true,
        Bool.false_eq_true, if_false]
    have hfar : Seekable ((initWriteIndexBlock f).disk.pos + INDEX_BLOCK_SIZE) := by
      rw [hdisk, Nat.add_assoc, ← Nat.two_mul]
      exact hpos
    exact (h.init hwriting.readIndex hcur hnear).prepare_started hinit hw hfar
      (hsame.symm.trans hprep)

/-- An item is stored in the block in memory. -/
theorem output (h : Laid f items) (hwriting : Writing f log) {e : IndexEntry}
    (hfpos : e.fpos = f.fpos) (hfits : 16 + e.advance + 4 ≤ INDEX_BLOCK_SIZE)
    (hid : LibraryIdLength e.serverId) (haligned : e.Aligned)
    (hpos : Seekable (f.disk.pos + 2 * INDEX_BLOCK_SIZE)) (hout : e.output f = some g) :
    Laid g items ∧ g.curIndex.isSome = true := by
  have hlen : INDEX_BLOCK_SIZE = 256 := rfl
  have hsame : ({ f with fpos := e.fpos } : IndexedFile) = f := by rw [hfpos]
  obtain ⟨p, hprep, -, -, -, w, hw, hroom⟩ := prepare_spec hwriting e.itemLen hpos
  rw [output_eq_placeItem hwriting.fileOrg, hsame, hprep, Option.bind_some, placeItem] at hout
  simp only [hw, Option.bind_eq_bind, Option.bind_some, Option.pure_def, Option.some.injEq]
    at hout
  have hadvance : e.advance = e.itemLen := by
    cases e with
    | format => rfl
    | data fpos id attrs =>
      have hmod : (id.length + attrs.length) % 4 = 0 := haligned
      simp only [IndexEntry.advance, IndexEntry.itemLen, dataTotalLen]
      omega
  have hplaced : Laid p items := h.prepare hwriting hpos hprep
  cases hplaced with
  | plain hnone =>
    rw [hnone] at hw
    cases hw
  | filling hsome hholds hitems hdone hbase hhole hfront htail =>
    cases hw.symm.trans hsome
    have hstep := hholds.place (e := e.moved p.fpos)
      (show _ + (e.moved p.fpos).advance + 4 ≤ _ by rw [IndexEntry.moved_advance]; omega)
      (by rw [IndexEntry.moved_serverId]; exact hid) (by cases e <;> exact haligned)
    rw [IndexEntry.moved_advance] at hstep
    rw [← hout]
    exact ⟨.filling rfl hstep hitems hdone hbase hhole hfront htail, rfl⟩

end Laid

/-- The writer between two calls, with the records that it has written. -/
structure Streaming (f : FFSWriter) (items : List StreamItem) : Prop where
  laid : Laid f.file items
  simple : f.file.fileOrg = .simple → f.file.curIndex = none
  indexed : f.file.fileOrg = .indexed → f.Between
  started : f.file.fileOrg = .indexed → ∀ m, .data m ∈ items → f.file.curIndex.isSome = true

section

variable {f g : FFSWriter} {items : List StreamItem} {format : WrittenFormat}
  {attrs : List UInt8}

theorem ProperID.library {id : List UInt8} (h : ProperID id) : LibraryIdLength id := by
  rcases h.length with ⟨-, h⟩ | ⟨-, h⟩ | ⟨-, h⟩
  · exact .inl h
  · exact .inr (.inl h)
  · exact .inr (.inr h)

theorem outputFormatIndex_simple (horg : f.file.fileOrg = .simple) (id : List UInt8) :
    f.outputFormatIndex id = some f := by
  have hnot : f.file.fileOrg ≠ .indexed := by rw [horg]; decide
  rw [FFSWriter.outputFormatIndex, FFS.outputFormatIndex, if_pos hnot, Option.bind_eq_bind,
    Option.bind_some, if_pos hnot]
  rfl

theorem outputDataIndex_simple (horg : f.file.fileOrg = .simple) (id attrs : List UInt8) :
    f.outputDataIndex id attrs = some f := by
  have hnot : f.file.fileOrg ≠ .indexed := by rw [horg]; decide
  rw [FFSWriter.outputDataIndex, FFS.outputDataIndex, if_pos hnot, Option.bind_eq_bind,
    Option.bind_some, if_pos hnot]
  rfl

/-- Only the index of the file and its log change. -/
theorem outputFormatIndex_file {id : List UInt8} (h : f.outputFormatIndex id = some g) :
    FFS.outputFormatIndex f.file id = some g.file ∧ g.written = f.written := by
  simp only [FFSWriter.outputFormatIndex, Option.bind_eq_bind, Option.bind_eq_some_iff] at h
  obtain ⟨file, hfile, h⟩ := h
  split at h
  · cases h
    exact ⟨hfile, rfl⟩
  · obtain ⟨prepared, -, h⟩ := Option.bind_eq_some_iff.mp h
    cases h
    exact ⟨hfile, rfl⟩

theorem outputDataIndex_file {id : List UInt8} (h : f.outputDataIndex id attrs = some g) :
    FFS.outputDataIndex f.file id attrs = some g.file ∧ g.written = f.written := by
  simp only [FFSWriter.outputDataIndex, Option.bind_eq_bind, Option.bind_eq_some_iff] at h
  obtain ⟨file, hfile, h⟩ := h
  split at h
  · cases h
    exact ⟨hfile, rfl⟩
  · obtain ⟨prepared, -, h⟩ := Option.bind_eq_some_iff.mp h
    cases h
    exact ⟨hfile, rfl⟩

/-- A record is in the file. -/
theorem Laid.wrote {file : IndexedFile} (h : Laid file items) {item : StreamItem} {disk : Disk}
    {count : Int} (hdisk : disk = file.disk.put item.bytes) :
    Laid (updateFpos { file with disk, dataCount := count }) (items ++ [item]) :=
  h.put (updateFpos_curIndex _) ((updateFpos_disk _).trans hdisk)

theorem format_bytes (id rep : List UInt8) :
    [formatIndicator id.length rep.length, id, rep].flatten = (StreamItem.format id rep).bytes ∧
      [formatIndicator id.length rep.length, id, rep].flatten.length =
        8 + id.length + rep.length := by
  have hflat : [formatIndicator id.length rep.length, id, rep].flatten =
      formatIndicator id.length rep.length ++ (id ++ rep) := by
    rw [List.flatten_cons, List.flatten_cons, List.flatten_cons, List.flatten_nil,
      List.append_nil]
  refine ⟨hflat, ?_⟩
  rw [hflat, List.length_append, List.length_append, formatIndicator, List.length_append,
    length_beBytes, length_beBytes]
  omega

/-- The format behind its item in the index. -/
theorem writeFormat_of_output {p : FFSWriter} (hkept : f.hasRep format = true)
    (hp : f.outputFormatIndex format.serverId = some p)
    (hrep : 8 + format.serverId.length + format.serverRep.length < 2 ^ 31) :
    ∃ g disk, f.writeFormatToFile format = some g ∧
      disk = p.file.disk.put (StreamItem.format format.serverId format.serverRep).bytes ∧
      g.file = updateFpos { p.file with disk } ∧
      g.written = format.formatIndex :: f.written := by
  obtain ⟨hbytes, hlength⟩ := format_bytes format.serverId format.serverRep
  have hput := @Disk.writev_eq_put p.file.disk _ (lt_of_eq_of_lt hlength hrep)
  rw [hbytes] at hput
  rw [FFSWriter.writeFormatToFile, if_pos hkept, hp]
  exact ⟨_, _, rfl, hput, rfl, congrArg _ (outputFormatIndex_file hp).2⟩

/-- The format is in the file. -/
theorem Streaming.writeFormat (h : Streaming f items) (hkept : f.hasRep format = true)
    (hrep : 8 + format.serverId.length + format.serverRep.length < 2 ^ 31)
    (hproper : ProperID format.serverId)
    (hindexed : f.file.fileOrg = .indexed →
      28 + format.serverId.length + 4 ≤ INDEX_BLOCK_SIZE ∧ format.serverId.length % 4 = 0 ∧
      Seekable (f.file.disk.pos + 2 * INDEX_BLOCK_SIZE +
        (8 + format.serverId.length + format.serverRep.length))) :
    ∃ g, f.writeFormatToFile format = some g ∧
      Streaming g (items ++ [.format format.serverId format.serverRep]) ∧
      g.written = format.formatIndex :: f.written ∧ g.file.fileOrg = f.file.fileOrg ∧
      (f.file.fileOrg = .indexed → g.file.disk.pos ≤ f.file.disk.pos + 2 * INDEX_BLOCK_SIZE +
        (8 + format.serverId.length + format.serverRep.length)) := by
  cases horg : f.file.fileOrg with
  | simple =>
    obtain ⟨g, disk, hg, hdisk, hfile, hwritten⟩ :=
      writeFormat_of_output hkept (outputFormatIndex_simple horg _) hrep
    have horg' : g.file.fileOrg = .simple := by
      rw [hfile, updateFpos_fileOrg]
      exact horg
    refine ⟨g, hg, ⟨?_, ?_, ?_, ?_⟩, hwritten, horg', nofun⟩
    · rw [hfile]
      exact h.laid.wrote hdisk
    · intro _
      rw [hfile, updateFpos_curIndex]
      exact h.simple horg
    · intro hnot
      cases horg'.symm.trans hnot
    · intro hnot
      cases horg'.symm.trans hnot
  | indexed =>
    obtain ⟨hfits, haligned, hpos⟩ := hindexed horg
    have hpos' : Seekable (f.file.disk.pos + 2 * INDEX_BLOCK_SIZE) :=
      lt_of_le_of_lt (Nat.le_add_right _ _) hpos
    obtain ⟨p, hp, hbetween, -⟩ := between_outputFormat (h.indexed horg) hfits hpos'
    obtain ⟨hlaid, hstarted⟩ : Laid p.file items ∧ _ := h.laid.output (h.indexed horg)
      (e := .format f.file.fpos format.serverId) rfl
      (show 16 + (12 + format.serverId.length) + 4 ≤ _ by omega) hproper.library haligned hpos'
      (outputFormatIndex_file hp).1
    obtain ⟨g, disk, hg, hdisk, hfile, hwritten⟩ := writeFormat_of_output hkept hp hrep
    obtain ⟨g', hg', hbetween', -, -, hle⟩ := between_writeFormat (h.indexed horg) hkept hfits hpos
    cases hg.symm.trans hg'
    have horg' : g.file.fileOrg = .indexed := hbetween'.fileOrg
    refine ⟨g, hg, ⟨?_, ?_, fun _ => hbetween', ?_⟩, hwritten, horg', fun _ => hle⟩
    · rw [hfile]
      exact hlaid.wrote hdisk
    · intro hnot
      cases horg'.symm.trans hnot
    · intro _ _ _
      rw [hfile, updateFpos_curIndex]
      exact hstarted

/-- What is known of a writer that is to write a record now. -/
structure Announced (f g : FFSWriter) (format : WrittenFormat) (items : List StreamItem) :
    Prop where
  laid : Laid g.file (items ++ announced f.written format)
  written : g.written = announce f.written format
  fileOrg : g.file.fileOrg = f.file.fileOrg
  simple : g.file.fileOrg = .simple → g.file.curIndex = none
  indexed : g.file.fileOrg = .indexed → ∀ disk : Disk, g.file.disk.pos + 8 ≤ disk.pos →
    Writing (updateFpos { g.file with disk, dataCount := g.file.dataCount + 1 }) g.log
  started : g.file.fileOrg = .indexed → g.file.curIndex.isSome = true

/-- The format of a record is in the file, from before or now. -/
theorem Streaming.knowFormat (h : Streaming f items) {formats : List WrittenFormat}
    {message : List UInt8} (hstreams : RecordStreams formats f format attrs message) :
    ∃ p, (if format.formatIndex ∈ f.written then some f else f.writeFormatToFile format) = some p ∧
      Streaming p (items ++ announced f.written format) ∧
      p.written = announce f.written format ∧ p.file.fileOrg = f.file.fileOrg ∧
      (f.file.fileOrg = .indexed → p.file.disk.pos ≤ f.file.disk.pos + 2 * INDEX_BLOCK_SIZE +
        (8 + format.serverId.length + format.serverRep.length)) := by
  by_cases hin : format.formatIndex ∈ f.written
  · refine ⟨f, if_pos hin, ?_, (if_pos hin).symm, rfl, fun _ => by omega⟩
    rw [announced, if_pos hin, List.append_nil]
    exact h
  · obtain ⟨loaded, hloads, -⟩ := hstreams.loads
    rw [if_neg hin, announced, if_neg hin, announce, if_neg hin]
    refine h.writeFormat (hstreams.keeps hin) hstreams.rep hloads.proper fun horg => ?_
    obtain ⟨⟨hitem, hpos⟩, haligned, -⟩ := hstreams.indexed horg
    have hid : format.serverId.length ≤ dataTotalLen format.serverId attrs := by
      unfold dataTotalLen
      omega
    exact ⟨by omega, haligned, lt_of_le_of_lt (by omega) hpos⟩

/-- A record that fits is announced. -/
theorem Streaming.announce (h : Streaming f items) {formats : List WrittenFormat}
    {message : List UInt8} (hstreams : RecordStreams formats f format attrs message) :
    ∃ g, f.announceRecord format attrs = some g ∧ Announced f g format items := by
  obtain ⟨p, hp, hstreaming, hwritten, hsame, hle⟩ := h.knowFormat hstreams
  have hthen : f.announceRecord format attrs = p.outputDataIndex format.serverId
      (if f.file.fileOrg = .indexed then attrs else []) := by
    have hbind := congrArg (Option.bind · fun p => p.outputDataIndex format.serverId
      (if f.file.fileOrg = .indexed then attrs else [])) hp
    rw [FFSWriter.announceRecord]
    split
    · next hin =>
      rw [if_pos hin] at hbind
      exact hbind
    · next hin =>
      rw [if_neg hin] at hbind
      exact hbind
  cases horg : f.file.fileOrg with
  | simple =>
    have horg' : p.file.fileOrg = .simple := hsame.trans horg
    rw [outputDataIndex_simple horg'] at hthen
    refine ⟨p, hthen, hstreaming.laid, hwritten, hsame, hstreaming.simple, fun hnot => ?_,
      fun hnot => ?_⟩
    · cases horg'.symm.trans hnot
    · cases horg'.symm.trans hnot
  | indexed =>
    have horg' : p.file.fileOrg = .indexed := hsame.trans horg
    obtain ⟨⟨hitem, hpos⟩, hidAligned, hattrsAligned⟩ := hstreams.indexed horg
    obtain ⟨loaded, hloads, -⟩ := hstreams.loads
    have hpos' : Seekable (p.file.disk.pos + 2 * INDEX_BLOCK_SIZE) := by
      have hbound := hle horg
      exact lt_of_le_of_lt (by omega) hpos
    rw [if_pos horg] at hthen
    obtain ⟨g, hg, hdone, -⟩ := between_outputData (hstreaming.indexed horg') hitem hpos'
    obtain ⟨hfile, hwritten'⟩ := outputDataIndex_file hg
    obtain ⟨hlaid, hstarted⟩ : Laid g.file (items ++ announced f.written format) ∧ _ :=
      hstreaming.laid.output (hstreaming.indexed horg')
        (e := .data p.file.fpos format.serverId attrs) rfl
        (show 16 + (12 + (dataTotalLen format.serverId attrs + 3) / 4 * 4) + 4 ≤ _ by omega)
        hloads.proper.library (show (_ + _) % 4 = 0 by omega) hpos' hfile
    have hindexed : g.file.fileOrg = .indexed :=
      (hdone ⟨[], g.file.disk.pos + 8⟩ (Nat.le_refl _)).fileOrg
    refine ⟨g, hthen.trans hg, hlaid, hwritten'.trans hwritten, hindexed.trans horg.symm,
      fun hnot => ?_, fun _ => hdone, fun _ => hstarted⟩
    cases hindexed.symm.trans hnot

/-- The message is written behind its indicator. -/
theorem Announced.wrote {p g : FFSWriter} (h : Announced f p format items) {message : List UInt8}
    {disk : Disk} (hdisk : disk = p.file.disk.put (StreamItem.data message).bytes)
    (hfile : g.file = updateFpos { p.file with disk, dataCount := p.file.dataCount + 1 })
    (hlog : g.log = p.log) :
    Streaming g (items ++ (announced f.written format ++ [.data message])) := by
  have horg : g.file.fileOrg = p.file.fileOrg := by rw [hfile, updateFpos_fileOrg]
  constructor
  · rw [hfile, ← List.append_assoc]
    exact h.laid.wrote hdisk
  · intro hsimple
    rw [hfile, updateFpos_curIndex]
    exact h.simple (horg.symm.trans hsimple)
  · intro hindexed
    have hroom : p.file.disk.pos + 8 ≤ disk.pos := by
      rw [hdisk, put_pos, StreamItem.bytes, List.length_append, length_dataIndicator]
      omega
    rw [FFSWriter.Between, hfile, hlog]
    exact h.indexed (horg.symm.trans hindexed) disk hroom
  · intro hindexed _ _
    rw [hfile, updateFpos_curIndex]
    exact h.started (horg.symm.trans hindexed)

end

/-- The formats that the context has do not matter to the file. -/
theorem Streaming.reloaded {f g : FFSWriter} {items : List StreamItem} (h : Streaming f items)
    (hfile : g.file = f.file) (hlog : g.log = f.log) : Streaming g items := by
  refine ⟨?_, ?_, ?_, ?_⟩
  · rw [hfile]
    exact h.laid
  · rw [hfile]
    exact h.simple
  · rw [FFSWriter.Between, hfile, hlog]
    exact h.indexed
  · rw [hfile]
    exact h.started

/-- A call that can be read back goes through. -/
theorem Streaming.run {f : FFSWriter} {items : List StreamItem} (h : Streaming f items)
    {formats : List WrittenFormat} {call : WriterCall} (hcall : call.Streams formats f) :
    ∃ g, call.run f = some g ∧ Streaming g (items ++ call.items f.written) ∧
      g.written = call.formats f.written ∧ g.file.fileOrg = f.file.fileOrg := by
  cases call with
  | comment text =>
    obtain ⟨htext, hfits⟩ := hcall
    have hflat : [commentIndicator text.stored.length, text.stored].flatten =
        (StreamItem.comment text.stored).bytes := by
      rw [List.flatten_cons, List.flatten_cons, List.flatten_nil, List.append_nil]
      rfl
    obtain ⟨disk, hdisk⟩ : ∃ disk, disk =
        f.file.disk.writev [commentIndicator text.stored.length, text.stored] := ⟨_, rfl⟩
    have hput : disk = f.file.disk.put (StreamItem.comment text.stored).bytes := by
      rw [hdisk, ← hflat]
      refine Disk.writev_eq_put ?_
      rw [hflat, StreamItem.bytes, List.length_append, commentIndicator, length_beBytes]
      omega
    have hcomment : f.writeComment text = { f with file := updateFpos { f.file with disk } } := by
      rw [FFSWriter.writeComment, hdisk]
    refine ⟨f.writeComment text, rfl, ⟨?_, ?_, fun horg => ?_, fun horg m hm => ?_⟩, ?_, ?_⟩
    · rw [hcomment]
      exact h.laid.wrote hput
    · rw [hcomment]
      exact h.simple
    · rw [hcomment] at horg
      exact between_writeComment (h.indexed horg) (hfits horg)
    · rw [hcomment] at horg ⊢
      rcases List.mem_append.mp hm with hm | hm
      · exact h.started horg m hm
      · cases List.mem_singleton.mp hm
    · rw [hcomment]
      rfl
    · rw [hcomment]
      exact updateFpos_fileOrg _
  | register serverId rep =>
    refine ⟨_, rfl, ?_, rfl, rfl⟩
    rw [WriterCall.items, List.append_nil]
    exact h.reloaded rfl rfl
  | attrs format attrList vec =>
    obtain ⟨p, hp, hannounced⟩ := h.announce hcall
    have hflat : (dataIndicator vec.flatten.length :: vec).flatten =
        (StreamItem.data vec.flatten).bytes := List.flatten_cons
    have hput := @writeVec_eq_put p.maxIov vec.length (dataIndicator vec.flatten.length :: vec)
      p.file.disk hannounced.laid.atEnd (by
        rw [hflat, StreamItem.bytes, List.length_append, length_dataIndicator]
        exact hcall.length)
    rw [hflat] at hput
    exact ⟨_, writeAttrs_of_announced hp vec, hannounced.wrote hput rfl rfl, hannounced.written,
      (updateFpos_fileOrg _).trans hannounced.fileOrg⟩
  | encoded rep format attrList data =>
    obtain ⟨hrep, g, hload, hcall⟩ := hcall
    obtain ⟨hfile, hlog, hwritten⟩ := loadExternalFormat_file hload
    obtain ⟨p, hp, hannounced⟩ := (h.reloaded hfile hlog).announce hcall
    rw [WriterCall.items, WriterCall.formats, ← hwritten, ← hfile]
    have hflat : [dataIndicator data.length, data].flatten = (StreamItem.data data).bytes := by
      rw [List.flatten_cons, List.flatten_cons, List.flatten_nil, List.append_nil]
      rfl
    have hput := @Disk.writev_eq_put p.file.disk [dataIndicator data.length, data] (by
      rw [hflat, StreamItem.bytes, List.length_append, length_dataIndicator]
      exact hcall.length)
    rw [hflat] at hput
    exact ⟨_, writeEncoded_of_announced hrep hload hp data, hannounced.wrote hput rfl rfl,
      hannounced.written, (updateFpos_fileOrg _).trans hannounced.fileOrg⟩

/-! ## Records that can be read -/

/-- What a reader needs of a record behind others. -/
def ItemReads (formats : List WrittenFormat) (before : List StreamItem) : StreamItem → Prop
  | .comment text => text.length < 2 ^ 24
  | .format id rep => 8 + id.length + rep.length < 2 ^ 31 ∧
      ∃ format ∈ formats, id = format.serverId ∧ rep = format.serverRep ∧
        ∃ f, format.LoadsAs f
  | .data message => 8 + message.length < 2 ^ 31 ∧
      ∃ format ∈ formats, .format format.serverId format.serverRep ∈ before ∧
        ∃ f, format.LoadsAs f ∧ format.HasMessage f message

/-- Each of the records can be read behind those in front of it. -/
def StreamReads (formats : List WrittenFormat) : List StreamItem → List StreamItem → Prop
  | _, [] => True
  | before, item :: items => ItemReads formats before item ∧
      StreamReads formats (before ++ [item]) items

theorem streamReads_append {formats : List WrittenFormat} {before items items' : List StreamItem}
    (h : StreamReads formats before items) (h' : StreamReads formats (before ++ items) items') :
    StreamReads formats before (items ++ items') := by
  induction items generalizing before with
  | nil =>
    rw [List.append_nil] at h'
    exact h'
  | cons item items ih =>
    refine ⟨h.1, ih h.2 ?_⟩
    rw [List.append_assoc]
    exact h'

/-- The formats that count as written are in the file. -/
def FormatsIn (formats : List WrittenFormat) (written : List Nat) (items : List StreamItem) :
    Prop :=
  ∀ format ∈ formats, format.formatIndex ∈ written →
    .format format.serverId format.serverRep ∈ items

section

variable {formats : List WrittenFormat} {written : List Nat} {items : List StreamItem}

theorem FormatsIn.announce (happart : FormatsApart formats) (h : FormatsIn formats written items)
    {format : WrittenFormat} (hformat : format ∈ formats) :
    FormatsIn formats (announce written format) (items ++ announced written format) := by
  unfold FFS.announce announced
  by_cases hin : format.formatIndex ∈ written
  · rw [if_pos hin, if_pos hin, List.append_nil]
    exact h
  · rw [if_neg hin, if_neg hin]
    intro other hother hwritten
    rcases List.mem_cons.mp hwritten with hsame | hwritten
    · rw [happart other hother format hformat (.inl hsame)]
      exact List.mem_append_right _ (List.mem_singleton_self _)
    · exact List.mem_append_left _ (h other hother hwritten)

/-- A record can be read behind its format. -/
theorem streamReads_record (happart : FormatsApart formats) (h : FormatsIn formats written items)
    {f : FFSWriter} {format : WrittenFormat} {attrs message : List UInt8}
    (hstreams : RecordStreams formats f format attrs message) :
    StreamReads formats items (announced written format ++ [.data message]) ∧
      FormatsIn formats (announce written format)
        (items ++ (announced written format ++ [.data message])) := by
  obtain ⟨loaded, hloads, hmessage⟩ := hstreams.loads
  have hin := h.announce happart hstreams.known
  refine ⟨streamReads_append ?_ ⟨?_, trivial⟩, fun other hother hwritten => ?_⟩
  · rw [announced]
    split
    · trivial
    · exact ⟨⟨hstreams.rep, format, hstreams.known, rfl, rfl, loaded, hloads⟩, trivial⟩
  · refine ⟨hstreams.length, format, hstreams.known, hin format hstreams.known ?_, loaded, hloads,
      hmessage⟩
    rw [announce]
    split
    · assumption
    · exact List.mem_cons_self
  · rw [← List.append_assoc]
    exact List.mem_append_left _ (hin other hother hwritten)

theorem streamReads_call (happart : FormatsApart formats) (h : FormatsIn formats written items)
    {f : FFSWriter} {call : WriterCall} (hcall : call.Streams formats f) :
    StreamReads formats items (call.items written) ∧
      FormatsIn formats (call.formats written) (items ++ call.items written) := by
  cases call with
  | comment text =>
    exact ⟨⟨hcall.1, trivial⟩, fun other hother hwritten =>
      List.mem_append_left _ (h other hother hwritten)⟩
  | register serverId rep =>
    rw [WriterCall.items, List.append_nil]
    exact ⟨trivial, h⟩
  | attrs format attrList vec => exact streamReads_record happart h hcall
  | encoded rep format attrList data =>
    obtain ⟨-, g, -, hcall⟩ := hcall
    exact streamReads_record happart h hcall

end

/-! ## Runs -/

theorem streaming_run {formats : List WrittenFormat} (happart : FormatsApart formats)
    {f : FFSWriter} {items : List StreamItem} (h : Streaming f items)
    (hin : FormatsIn formats f.written items) {calls : List WriterCall}
    (hcalls : RunMeets WriterCall.run (fun f call => call.Streams formats f) f calls) :
    ∃ g, runWriter f calls = some g ∧ Streaming g (items ++ streamOf f.written calls) ∧
      g.file.fileOrg = f.file.fileOrg ∧ StreamReads formats items (streamOf f.written calls) := by
  induction calls generalizing f items with
  | nil =>
    refine ⟨f, rfl, ?_, rfl, trivial⟩
    rw [streamOf, List.append_nil]
    exact h
  | cons call calls ih =>
    obtain ⟨hcall, hrest⟩ := hcalls
    obtain ⟨hreads, hin'⟩ := streamReads_call happart hin hcall
    obtain ⟨g, hg, hstreaming, hwritten, horg⟩ := h.run hcall
    rw [← hwritten] at hin'
    obtain ⟨g', hg', hstreaming', horg', hreads'⟩ := ih hstreaming hin' (hrest g hg)
    refine ⟨g', (run_cons calls hg).trans hg', ?_, horg'.trans horg, ?_⟩
    · rw [streamOf, ← hwritten, ← List.append_assoc]
      exact hstreaming'
    · rw [streamOf, ← hwritten]
      exact streamReads_append hreads hreads'

theorem streaming_opened (org : Organization) (maxIov : Nat) :
    Streaming (openedStream org maxIov) [] where
  laid := .plain rfl rfl rfl
  simple := fun _ => rfl
  indexed := by
    rintro rfl
    exact (Opened.created maxIov).between
  started := fun _ m hm => absurd hm List.not_mem_nil

/-- A file that is closed. -/
structure ClosedAs (org : Organization) (segments : List FileSegment) (items : List StreamItem) :
    Prop where
  items_eq : segments.filterMap FileSegment.item? = items
  blocks : ∀ b, .block b ∈ segments → BlockReads b
  simple : org = .simple → segments = items.map .record

/-- The records stand in the file when it is closed.  A file with an index has a block from its
first data record on. -/
theorem Streaming.close {f : FFSWriter} {items : List StreamItem} (h : Streaming f items)
    (hdata : f.file.fileOrg = .indexed → ∃ m, .data m ∈ items) :
    ∃ g segments, f.close = some g ∧ g.file.disk.bytes = written segments ∧
      ClosedAs f.file.fileOrg segments items := by
  cases horg : f.file.fileOrg with
  | simple =>
    have hnot : f.file.fileOrg ≠ .indexed := by rw [horg]; decide
    refine ⟨f, items.map .record, if_neg hnot, ?_, filterMap_records items, fun b hb => ?_,
      fun _ => rfl⟩
    · cases h.laid with
      | plain hnone hbytes => exact hbytes
      | filling hsome =>
        rw [h.simple horg] at hsome
        cases hsome
    · obtain ⟨item, -, hitem⟩ := List.mem_map.mp hb
      cases hitem
  | indexed =>
    obtain ⟨m, hm⟩ := hdata horg
    obtain ⟨file, segments, hdump, hbytes, -, hitems, hblocks⟩ :=
      h.laid.dump_closes horg (h.started horg m hm)
    refine ⟨{ f with file, log := logDump f.file f.log }, segments, ?_, hbytes, hitems, hblocks,
      nofun⟩
    rw [FFSWriter.close, if_pos horg, hdump]
    rfl

end FFS
