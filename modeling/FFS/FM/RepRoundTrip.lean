import FFS.FM.Registered
import FFS.FM.Rep
import Mathlib.Algebra.Order.BigOperators.Group.List

/-!
# Representations built and expanded again

The parts of a representation are located by the offsets the builder computed, so the
proof is about where each part lies: `holds_subformatRep` collects that once, and the
reads of the expander follow from it one by one.  The offsets are read back as `int`, and
the recorded lengths have 32 bits, which is where the sizes enter.
-/

namespace FFS

open Machine

/-! ## Lengths -/

theorem le_roundUp4 (n : Nat) : n ≤ roundUp4 n := by
  unfold roundUp4
  omega

theorem roundUp4_mod (n : Nat) : roundUp4 n % 4 = 0 := by
  unfold roundUp4
  omega

/-- Rounding a sum whose first part is a multiple of 4. -/
theorem roundUp4_add {m : Nat} (hm : m % 4 = 0) (n : Nat) : roundUp4 (m + n) = m + roundUp4 n := by
  unfold roundUp4
  omega

@[simp] theorem length_padding4 (n : Nat) : (padding4 n).length = roundUp4 n - n := by
  simp [padding4]

@[simp] theorem length_hostBytes (w v : Nat) : (hostBytes w v).length = w := by
  simp [hostBytes]

@[simp] theorem length_hostInt (x : Int32) : (hostInt x).length = 4 := by
  simp [hostInt]

@[simp] theorem length_fieldTable (offset : Nat) (fs : List FMField) :
    (fieldTable offset fs).length = fieldWireSize * fs.length := by
  induction fs generalizing offset with
  | nil => rfl
  | cons f fs ih =>
    simp only [fieldTable, List.length_append, length_hostBytes, length_hostInt, ih,
      List.length_cons, fieldWireSize]
    omega

@[simp] theorem length_optInfoTable (offset : Nat) (os : List FMOptInfo) :
    (optInfoTable offset os).length = (os.length + 1) * optInfoWireSize := by
  induction os generalizing offset with
  | nil => simp [optInfoTable]
  | cons o os ih =>
    simp only [optInfoTable, List.length_append, length_hostBytes, length_hostInt, ih,
      List.length_cons, optInfoWireSize]
    omega

theorem length_optInfoBlocks_cons (o : FMOptInfo) (os : List FMOptInfo) :
    (optInfoBlocks (o :: os)).length = roundUp4 o.infoBlock.length + (optInfoBlocks os).length := by
  have h := le_roundUp4 o.infoBlock.length
  simp only [optInfoBlocks, List.flatMap_cons, List.length_append, length_padding4]
  omega

theorem length_stringsOfFields (fs : List FMField) :
    (stringsOfFields fs).length =
      (fs.map fun f => f.fieldName.length + 1 + (f.fieldType.length + 1)).sum := by
  simp [stringsOfFields, fieldStrings, List.length_flatMap]

@[simp] theorem length_subformatHeader (f : FMFormatBody) :
    (subformatHeader f).length = subformatWireSize := by
  simp [subformatHeader, subformatWireSize]

/-- The loop that adds the blocks to the size keeps it a multiple of 4. -/
theorem foldl_roundUp4 (os : List FMOptInfo) {size : Nat} (h : size % 4 = 0) :
    os.foldl (fun size o => roundUp4 (size + o.infoBlock.length)) size =
      size + (optInfoBlocks os).length := by
  induction os generalizing size with
  | nil => rfl
  | cons o os ih =>
    rw [List.foldl_cons, roundUp4_add h, ih (by have := roundUp4_mod o.infoBlock.length; omega),
      length_optInfoBlocks_cons, Nat.add_assoc]

theorem subformatRepSize_eq (f : FMFormatBody) :
    subformatRepSize f = optInfoOffset f + (f.optInfo.length + 1) * optInfoWireSize
      + (optInfoBlocks f.optInfo).length := by
  have hfixed : fieldWireSize * f.fieldList.length + (f.formatName.length + 1)
      + (f.fieldList.map fun g => g.fieldName.length + 1 + (g.fieldType.length + 1)).sum
      + subformatWireSize = stringsEnd f := by
    rw [stringsEnd, stringsOffset, nameOffset, length_stringsOfFields, CString.length_stored]
    omega
  rw [subformatRepSize]
  simp only [hfixed]
  rw [foldl_roundUp4 _ (roundUp4_mod _), optInfoOffset]
  omega

theorem length_optInfoBlocks_le (f : FMFormatBody) :
    (optInfoBlocks f.optInfo).length ≤ subformatRepSize f := by
  rw [subformatRepSize_eq]
  omega

/-- The assertion at the end of `add_server_subformat_rep`. -/
theorem length_subformatRep (f : FMFormatBody) : (subformatRep f).length = subformatRepSize f := by
  have hpad := le_roundUp4 (stringsEnd f)
  rw [subformatRepSize_eq]
  simp only [subformatRep, List.length_append, length_subformatHeader, length_fieldTable,
    length_padding4, length_optInfoTable, optInfoOffset]
  unfold stringsEnd stringsOffset nameOffset at *
  omega

theorem length_formatRep (f : FMFormat) :
    (formatHeader f ++ f.bodies.flatMap subformatRep).length = formatRepSize f := by
  have hheader : (formatHeader f).length = formatWireSize := by simp [formatHeader, formatWireSize]
  rw [List.length_append, hheader, List.length_flatMap, formatRepSize]
  simp only [length_subformatRep]

/-! ## Where the parts lie -/

/-- The parts of a format's representation behind its header. -/
structure PartsAt (buffer : List UInt8) (f : FMFormatBody) : Prop where
  header : Holds buffer 0 (subformatHeader f)
  table : Holds buffer subformatWireSize (fieldTable (stringsOffset f) f.fieldList)
  name : Holds buffer (nameOffset f) f.formatName.stored
  strings : Holds buffer (stringsOffset f) (stringsOfFields f.fieldList)
  infos : Holds buffer (optInfoOffset f)
    (optInfoTable (optInfoOffset f + (f.optInfo.length + 1) * optInfoWireSize) f.optInfo)
  blocks : Holds buffer (optInfoOffset f + (f.optInfo.length + 1) * optInfoWireSize)
    (optInfoBlocks f.optInfo)

theorem holds_subformatRep (f : FMFormatBody) (rest : List UInt8) :
    PartsAt (subformatRep f ++ rest) f := by
  have h := holds_self (subformatRep f) rest
  have hpad := le_roundUp4 (stringsEnd f)
  have hinfos : stringsEnd f + (roundUp4 (stringsEnd f) - stringsEnd f) = optInfoOffset f := by
    rw [optInfoOffset]
    omega
  simp only [subformatRep, holds_append, Nat.zero_add, List.length_append, length_subformatHeader,
    length_fieldTable, length_optInfoTable, length_padding4] at h
  obtain ⟨⟨⟨⟨⟨⟨header, table⟩, name⟩, strings⟩, -⟩, infos⟩, blocks⟩ := h
  refine ⟨header, table, name, strings, infos.at_eq hinfos, blocks.at_eq ?_⟩
  rw [← hinfos]
  rfl

/-! ## Reading the parts -/

@[simp] theorem int32OfPattern_toNat (x : Int32) : int32OfPattern x.toUInt32.toNat = x := by
  simp [int32OfPattern]

theorem valueAt_hostInt {buffer : List UInt8} {offset : Nat} {x : Int32}
    (h : Holds buffer offset (hostInt x)) :
    valueAt false buffer offset 4 = some x.toUInt32.toNat := by
  have hx := x.toUInt32.toNat_lt
  rw [Holds.valueAt h, Nat.mod_eq_of_lt (by omega)]

theorem offsetAt_hostBytes {buffer : List UInt8} {offset v : Nat}
    (h : Holds buffer offset (hostBytes 4 v)) (hv : v < 2 ^ 31) :
    offsetAt false buffer offset 4 = some v := by
  rw [offsetAt, Holds.valueAt h, Nat.mod_eq_of_lt (by omega)]
  exact if_neg (by omega)

theorem expandFields_table {buffer : List UInt8} {fs : List FMField} {table strings : Nat}
    (ht : Holds buffer table (fieldTable strings fs))
    (hs : Holds buffer strings (stringsOfFields fs))
    (hlt : strings + (stringsOfFields fs).length < 2 ^ 31) :
    expandFields false 4 buffer table fs.length = some fs := by
  induction fs generalizing table strings with
  | nil => rfl
  | cons f fs ih =>
    simp only [stringsOfFields, List.flatMap_cons, fieldStrings, List.length_append] at hlt
    simp only [stringsOfFields, List.flatMap_cons, fieldStrings, holds_append] at hs
    obtain ⟨⟨hname, htype⟩, hrest⟩ := hs
    simp only [fieldTable, holds_append, List.length_append, length_hostBytes, length_hostInt,
      Nat.reduceAdd] at ht
    obtain ⟨⟨⟨⟨hnameOffset, htypeOffset⟩, hsize⟩, hoffset⟩, hfields⟩ := ht
    have htail := ih hfields hrest
      (by simp only [stringsOfFields, fieldStrings, List.length_append]; omega)
    rw [List.length_cons, expandFields, offsetAt_hostBytes hnameOffset (by omega)]
    simp only [Option.bind_eq_bind, Option.bind_some, hname.stringAt,
      offsetAt_hostBytes htypeOffset (by omega), htype.stringAt, Nat.reduceMul,
      valueAt_hostInt hsize, Nat.add_assoc, Nat.reduceAdd, valueAt_hostInt hoffset, htail,
      int32OfPattern_toNat]
    rfl

theorem expandOptInfos_table {buffer : List UInt8} {os : List FMOptInfo} {table blocks rounds : Nat}
    (ht : Holds buffer table (optInfoTable blocks os))
    (hb : Holds buffer blocks (optInfoBlocks os))
    (hlt : ∀ k < os.length, blocks + (optInfoBlocks (os.take k)).length < 2 ^ 31)
    (hr : os.length < rounds) :
    expandOptInfos false none buffer rounds table = some os := by
  induction os generalizing table blocks rounds with
  | nil =>
    obtain ⟨rounds, rfl⟩ : ∃ n, rounds = n + 1 := ⟨rounds - 1, by omega⟩
    have hzero : List.replicate optInfoWireSize (0 : UInt8) =
        hostInt 0 ++ hostBytes 4 0 ++ hostBytes 4 0 := by decide
    simp only [optInfoTable, hzero, holds_append, List.length_append, length_hostInt,
      length_hostBytes, Nat.reduceAdd] at ht
    obtain ⟨⟨htype, hlen⟩, hoffset⟩ := ht
    rw [expandOptInfos]
    simp only [Option.bind_eq_bind, Option.bind_some, valueAt_hostInt htype, Holds.valueAt hlen,
      Holds.valueAt hoffset, int32OfPattern_toNat]
    rfl
  | cons o os ih =>
    obtain ⟨rounds, rfl⟩ : ∃ n, rounds = n + 1 := ⟨rounds - 1, by omega⟩
    have hfirst := hlt 0 (Nat.zero_lt_succ _)
    have hround := le_roundUp4 o.infoBlock.length
    have hblockLt := o.lenLt
    have hlength : o.infoBlock.length + (padding4 o.infoBlock.length).length =
        roundUp4 o.infoBlock.length := by
      rw [length_padding4]
      omega
    simp only [optInfoBlocks, List.flatMap_cons, holds_append, List.length_append, hlength] at hb
    obtain ⟨⟨hblock, -⟩, hblocks⟩ := hb
    simp only [optInfoTable, holds_append, List.length_append, length_hostBytes, length_hostInt,
      Nat.reduceAdd] at ht
    obtain ⟨⟨⟨htype, hlen⟩, hoffset⟩, hrest⟩ := ht
    have hlenMod : o.infoBlock.length % 256 ^ 4 = o.infoBlock.length := Nat.mod_eq_of_lt (by omega)
    have hoffsetMod : blocks % 256 ^ 4 = blocks := Nat.mod_eq_of_lt (by omega)
    rw [List.length_cons] at hr
    have hlater : ∀ k < os.length,
        blocks + roundUp4 o.infoBlock.length + (optInfoBlocks (os.take k)).length < 2 ^ 31 := by
      intro k hk
      have hk := hlt (k + 1) (Nat.succ_lt_succ hk)
      rw [List.take_succ_cons, length_optInfoBlocks_cons] at hk
      omega
    have htail := ih hrest hblocks hlater (show os.length < rounds by omega)
    rw [expandOptInfos]
    simp only [Option.bind_eq_bind, Option.bind_some, valueAt_hostInt htype, Holds.valueAt hlen,
      Holds.valueAt hoffset, int32OfPattern_toNat, dif_neg o.typeNe, hlenMod, hoffsetMod,
      if_neg (show ¬ 2 ^ 31 ≤ blocks by omega), hblock.span rfl, Option.any_none,
      Bool.false_eq_true, if_false, optInfoWireSize, htail, dif_pos hblockLt]
    rfl

/-- The place of the first block of optional information. -/
def firstBlockOffset (f : FMFormatBody) : Nat :=
  optInfoOffset f + (f.optInfo.length + 1) * optInfoWireSize

/-- Every offset recorded in a format's part is non-negative as an `int`.  The strings lie
before the table of the optional information. -/
structure OffsetsFit (f : FMFormatBody) : Prop where
  table : optInfoOffset f < 2 ^ 31
  blocks : ∀ k < f.optInfo.length,
    firstBlockOffset f + (optInfoBlocks (f.optInfo.take k)).length < 2 ^ 31

theorem lengthAt_recorded {buffer : List UInt8} {low version high n : Nat} {v : UInt8}
    (hlow : Holds buffer low (beBytes 2 n)) (hversion : Holds buffer version [v]) (hv : v ≠ 0)
    (hhigh : Holds buffer high (beBytes 2 (n / 2 ^ 16))) (hn : n < 2 ^ 32) :
    lengthAt buffer low version high = some n := by
  have hpos : 0 < v.toNat := Nat.pos_of_ne_zero fun h => hv (UInt8.toNat_inj.mp h)
  have hlow' : valueAt true buffer low 2 = some (n % 256 ^ 2) := Holds.valueAt (e := true) hlow
  have hhigh' : valueAt true buffer high 2 = some (n / 2 ^ 16 % 256 ^ 2) :=
    Holds.valueAt (e := true) hhigh
  have hsum : n % 256 ^ 2 + n / 2 ^ 16 % 256 ^ 2 * 2 ^ 16 = n := by omega
  simp only [lengthAt, hlow', hversion.byteAt, hhigh', Option.bind_eq_bind, Option.bind_some,
    if_pos hpos, hsum]
  rfl

theorem recordedSubrepLength_rep (f : FMFormatBody) (rest : List UInt8)
    (hn : subformatRepSize f < 2 ^ 32) :
    recordedSubrepLength (subformatRep f ++ rest) = some (subformatRepSize f) := by
  have h := (holds_subformatRep f rest).header
  simp only [subformatHeader, holds_append, List.length_append, length_beBytes, length_hostBytes,
    length_hostInt, List.length_singleton, Nat.reduceAdd] at h
  obtain ⟨⟨⟨⟨⟨⟨⟨⟨⟨⟨⟨⟨⟨hlow, hversion⟩, -⟩, -⟩, -⟩, -⟩, -⟩, -⟩, -⟩, -⟩, -⟩, -⟩, hhigh⟩, -⟩ := h
  exact lengthAt_recorded hlow hversion (by decide) hhigh hn

theorem expandSubformatFromRep_rep {f : FMFormatBody} (hf : HostFormat f) (hn : OffsetsFit f)
    (rest : List UInt8) : expandSubformatFromRep (subformatRep f ++ rest) = some f.underived := by
  have hparts := holds_subformatRep f rest
  have hinfoLt := hn.table
  have hstrings : stringsOffset f + (stringsOfFields f.fieldList).length < 2 ^ 31 :=
    lt_of_le_of_lt (le_roundUp4 (stringsEnd f)) hinfoLt
  have hnameLt : nameOffset f < 2 ^ 31 := by
    rw [stringsOffset] at hstrings
    omega
  have hcountLt : f.fieldList.length < 2 ^ 31 := by
    simp only [nameOffset, fieldWireSize, subformatWireSize] at hnameLt
    omega
  have hinfoPos : 28 ≤ optInfoOffset f := by
    have := le_roundUp4 (stringsEnd f)
    simp only [optInfoOffset, stringsEnd, stringsOffset, nameOffset, subformatWireSize] at *
    omega
  have hrounds : f.optInfo.length < (subformatRep f ++ rest).length + 1 := by
    rw [List.length_append, length_subformatRep, subformatRepSize_eq]
    simp only [optInfoWireSize]
    omega
  have hinfos := expandOptInfos_table hparts.infos hparts.blocks hn.blocks hrounds
  have hfields := expandFields_table hparts.table hparts.strings hstrings
  have hname := hparts.name.stringAt
  have h := hparts.header
  generalize subformatRep f ++ rest = buffer at *
  simp only [subformatHeader, holds_append, List.length_append, length_beBytes, length_hostBytes,
    length_hostInt, List.length_singleton, Nat.reduceAdd] at h
  obtain ⟨⟨⟨⟨⟨⟨⟨⟨⟨⟨⟨⟨⟨-, hversion⟩, horder⟩, hnameOffset⟩, hcount⟩, hrecord⟩, hpointer⟩, hheader⟩,
    hfloat⟩, hinfoLow⟩, hcolumn⟩, halign⟩, -⟩, hinfoHigh⟩ := h
  have horder' : byteAt buffer 3 = some 0 := by
    rw [horder.byteAt, hf.byteReversal]
    rfl
  have hpointer' : byteAt buffer 16 = some f.pointerSize := by
    rw [hpointer.byteAt, hf.pointerSize]
    rfl
  have hfloat' : valueAt false buffer 18 2 = some f.floatFormat := by
    rw [Holds.valueAt hfloat, hf.floatFormat]
    rfl
  have halign' : byteAt buffer 23 = some f.alignment := by
    rw [halign.byteAt, UInt8.toNat_ofNat', Nat.mod_eq_of_lt hf.alignment]
  have hcolumn' : ∃ c, byteAt buffer 22 = some c ∧ decide (c ≠ 0) = f.columnMajorArrays := by
    refine ⟨_, hcolumn.byteAt, ?_⟩
    cases f.columnMajorArrays <;> rfl
  obtain ⟨c, hc, hcolumnMajor⟩ := hcolumn'
  have hinfoSum : optInfoOffset f % 256 ^ 2 + optInfoOffset f / 2 ^ 16 % 256 ^ 2 * 2 ^ 16 =
      optInfoOffset f := by omega
  have hinfoOffset : wireInfoOffset wireLayout1 false buffer = some (optInfoOffset f) := by
    refine bind_eq_of_eq_some (Holds.valueAt hinfoLow) ?_
    refine bind_eq_of_eq_some (Holds.valueAt hinfoHigh) ?_
    rw [hinfoSum]
    rfl
  have hinfo : expandOptInfo false none buffer (optInfoOffset f) = some f.optInfo := by
    rw [expandOptInfo, if_neg (by omega), if_neg (Nat.not_le.mpr hinfoLt), hinfos]
  have hfloatFormat : wireFloatFormat 0 f.floatFormat = f.floatFormat := by
    rw [hf.floatFormat]
    rfl
  have hexpand : expandSubformat wireLayout1 4 subformatWireSize (fun _ => none) buffer =
      some f.underived := by
    refine bind_eq_of_eq_some horder' ?_
    refine bind_eq_of_eq_some (offsetAt_hostBytes hnameOffset hnameLt) ?_
    refine bind_eq_of_eq_some hname ?_
    refine bind_eq_of_eq_some (offsetAt_hostBytes hcount hcountLt) ?_
    refine bind_eq_of_eq_some (valueAt_hostInt hrecord) ?_
    refine bind_eq_of_eq_some hpointer' ?_
    refine bind_eq_of_eq_some hfloat' ?_
    refine bind_eq_of_eq_some hfields ?_
    refine bind_eq_of_eq_some halign' ?_
    refine bind_eq_of_eq_some hc ?_
    refine bind_eq_of_eq_some hinfoOffset ?_
    refine bind_eq_of_eq_some hinfo ?_
    rw [int32OfPattern_toNat, hfloatFormat, hcolumnMajor, FMFormatBody.underived, hf.byteReversal,
      hf.ioVersion]
    rfl
  refine bind_eq_of_eq_some hversion.byteAt ?_
  rw [if_neg (by decide), if_pos (by decide)]
  refine bind_eq_of_eq_some hheader.byteAt ?_
  exact hexpand

/-! ## The whole representation -/

theorem drop_subformatRep (f : FMFormatBody) (rest : List UInt8) :
    (subformatRep f ++ rest).drop (subformatRepSize f) = rest := by
  rw [← length_subformatRep, List.drop_left]

/-- Walking the recorded lengths finds the parts one by one. -/
theorem recordedSubrepLengths_reps (fs : List FMFormatBody)
    (hn : ∀ f ∈ fs, subformatRepSize f < 2 ^ 32) :
    recordedSubrepLengths fs.length (fs.flatMap subformatRep) = some (fs.map subformatRepSize) := by
  induction fs with
  | nil => rfl
  | cons f fs ih =>
    have hf := hn f List.mem_cons_self
    rw [List.length_cons, recordedSubrepLengths, List.flatMap_cons]
    refine bind_eq_of_eq_some (recordedSubrepLength_rep f _ hf) ?_
    rw [drop_subformatRep]
    exact bind_eq_of_eq_some (ih fun g hg => hn g (List.mem_cons_of_mem _ hg)) rfl

theorem expandSubformats_reps {f : FMFormatBody} {fs : List FMFormatBody}
    (hhost : AllHost fs) (hn : ∀ g ∈ f :: fs, subformatRepSize g < 2 ^ 32)
    (hfit : ∀ g ∈ fs, OffsetsFit g) :
    expandSubformats fs.length (subformatRep f ++ fs.flatMap subformatRep) =
      some (fs.map FMFormatBody.underived) := by
  induction fs generalizing f with
  | nil => rfl
  | cons g fs ih =>
    rw [List.length_cons, expandSubformats]
    refine bind_eq_of_eq_some (recordedSubrepLength_rep f _ (hn f List.mem_cons_self)) ?_
    rw [drop_subformatRep, List.flatMap_cons]
    refine bind_eq_of_eq_some
      (expandSubformatFromRep_rep (hhost g List.mem_cons_self) (hfit g List.mem_cons_self) _) ?_
    have htail := ih (fun b hb => hhost b (List.mem_cons_of_mem _ hb))
      (fun b hb => hn b (List.mem_cons_of_mem _ hb))
      (fun b hb => hfit b (List.mem_cons_of_mem _ hb))
    exact bind_eq_of_eq_some htail rfl

/-- A format without its derived values. -/
def FMFormat.underived (f : FMFormat) : FMFormat :=
  { top := f.top.underived, subformats := f.subformats.map FMFormatBody.underived }

/-- The representation of `f` expands to the formats of `f` again, in their order, and the
lengths recorded in it, its own and those of its parts, cover it exactly. -/
def RepRoundTrips (f : FMFormat) : Prop :=
  ∃ rep lengths, buildServerFormatRep f = some rep ∧
    expandFormatFromRep rep = some f.underived ∧
    recordedRepLength rep = some rep.length ∧
    recordedSubrepLengths f.bodies.length (rep.drop formatWireSize) = some lengths ∧
    formatWireSize + lengths.sum = rep.length

theorem recordedRepLength_rep {f : FMFormat} (rest : List UInt8) (hn : formatRepSize f < 2 ^ 32) :
    recordedRepLength (formatHeader f ++ rest) = some (formatRepSize f) := by
  have h := holds_self (formatHeader f) rest
  simp only [formatHeader, holds_append, List.length_append, length_beBytes,
    List.length_singleton, Nat.reduceAdd, Nat.zero_add] at h
  obtain ⟨⟨⟨⟨⟨hlow, -⟩, hversion⟩, -⟩, -⟩, hhigh⟩ := h
  exact lengthAt_recorded hlow hversion (by decide) hhigh hn

theorem byteAt_formatHeader {f : FMFormat} (rest : List UInt8) (hn : f.subformats.length < 256) :
    byteAt (formatHeader f ++ rest) 4 = some f.subformats.length := by
  have h := holds_self (formatHeader f) rest
  generalize formatHeader f ++ rest = buffer at h
  simp only [formatHeader, holds_append, List.length_append, length_beBytes,
    List.length_singleton, Nat.reduceAdd, Nat.zero_add] at h
  obtain ⟨⟨⟨-, hcount⟩, -⟩, -⟩ := h
  rw [Holds.byteAt hcount, UInt8.toNat_ofNat', Nat.mod_eq_of_lt hn]

theorem subformatRepSize_le {f : FMFormat} {b : FMFormatBody} (hb : b ∈ f.bodies) :
    subformatRepSize b ≤ formatRepSize f := by
  have := List.le_sum_of_mem (List.mem_map_of_mem (f := subformatRepSize) hb)
  rw [formatRepSize]
  omega

theorem repRoundTrips_of_host {f : FMFormat} (hhost : AllHost f.bodies)
    (hcount : f.subformats.length < 100) (hfit : ∀ b ∈ f.bodies, OffsetsFit b)
    (htotal : formatRepSize f < 2 ^ 32) : RepRoundTrips f := by
  have hheader : (formatHeader f).length = formatWireSize := by simp [formatHeader, formatWireSize]
  have hdrop : (formatHeader f ++ f.bodies.flatMap subformatRep).drop formatWireSize =
      f.bodies.flatMap subformatRep := by
    rw [← hheader, List.drop_left]
  have hlength := length_formatRep f
  have hparts : ∀ b ∈ f.bodies, subformatRepSize b < 2 ^ 32 :=
    fun b hb => lt_of_le_of_lt (subformatRepSize_le hb) htotal
  refine ⟨_, f.bodies.map subformatRepSize, if_neg (by omega), ?_, ?_, ?_, ?_⟩
  · refine bind_eq_of_eq_some (byteAt_formatHeader _ (by omega)) ?_
    rw [hdrop, FMFormat.bodies, List.flatMap_cons]
    refine bind_eq_of_eq_some
      (expandSubformatFromRep_rep (hhost _ List.mem_cons_self) (hfit _ List.mem_cons_self) _) ?_
    have hsubs := expandSubformats_reps
      (fun b (hb : b ∈ f.subformats) => hhost b (List.mem_cons_of_mem _ hb)) hparts
      (fun b hb => hfit b (List.mem_cons_of_mem _ hb))
    exact bind_eq_of_eq_some hsubs rfl
  · rw [recordedRepLength_rep _ htotal, hlength]
  · rw [hdrop]
    exact recordedSubrepLengths_reps _ hparts
  · rw [hlength, formatRepSize]

theorem repRoundTrips_of_registered {columnMajor ignoreDefaultValues : Bool}
    {structList : List FMStructDesc} {f : FMFormat}
    (h : registerFormats columnMajor ignoreDefaultValues structList = some f)
    (hfit : ∀ b ∈ f.bodies, OffsetsFit b) (htotal : formatRepSize f < 2 ^ 32) :
    RepRoundTrips f := by
  obtain ⟨copied, derived, aligned, hstages⟩ := registration_of_some h
  have hcount := hstages.length_lt
  rw [topoArraySize] at hcount
  exact repRoundTrips_of_host hstages.host (by omega) hfit htotal

/-- What registration accepts comes back from its representation, as long as the recorded
lengths and offsets have room for it. -/
theorem registerFormats_repRoundTrips {columnMajor ignoreDefaultValues : Bool}
    {structList : List FMStructDesc} {f : FMFormat}
    (h : registerFormats columnMajor ignoreDefaultValues structList = some f)
    (hfit : ∀ b ∈ f.bodies, OffsetsFit b) (htotal : formatRepSize f < 2 ^ 32) :
    RepRoundTrips f :=
  repRoundTrips_of_registered h hfit htotal

theorem pathFormat_offsetsFit : ∀ b ∈ pathFormat.bodies, OffsetsFit b := by
  have hfit : ∀ b ∈ pathFormat.bodies, optInfoOffset b < 2 ^ 31 ∧ b.optInfo = [] := by decide
  intro b hb
  obtain ⟨htable, hnil⟩ := hfit b hb
  exact ⟨htable, fun k hk => absurd hk (by rw [hnil]; exact Nat.not_lt_zero k)⟩

theorem registerFormats_repRoundTrips_path : RepRoundTrips pathFormat :=
  registerFormats_repRoundTrips registerFormats_pathList pathFormat_offsetsFit (by decide)

/-! ## Too long to record -/

theorem valueAt_lt {bigEndian : Bool} {buffer : List UInt8} {offset w v : Nat}
    (h : valueAt bigEndian buffer offset w = some v) : v < 256 ^ w := by
  simp only [valueAt, span, Option.map_eq_some_iff] at h
  obtain ⟨bs, hbs, rfl⟩ := h
  split at hbs
  · simp only [Option.some.injEq] at hbs
    have hlength : bs.length ≤ w := by
      rw [← hbs]
      exact List.length_take_le _ _
    exact lt_of_lt_of_le (getValue_lt _ bs) (Nat.pow_le_pow_right (by decide) hlength)
  · cases hbs

theorem lengthAt_lt {buffer : List UInt8} {low version high n : Nat}
    (h : lengthAt buffer low version high = some n) : n < 2 ^ 32 := by
  simp only [lengthAt, Option.bind_eq_bind, Option.bind_eq_some_iff] at h
  obtain ⟨lowBytes, hlow, v, -, h⟩ := h
  have hlow := valueAt_lt hlow
  split at h
  · simp only [Option.bind_eq_some_iff, Option.pure_def, Option.some.injEq] at h
    obtain ⟨highBytes, hhigh, rfl⟩ := h
    have hhigh := valueAt_lt hhigh
    omega
  · simp only [Option.pure_def, Option.some.injEq] at h
    omega

/-- The recorded length has 32 bits. -/
theorem not_repRoundTrips {f : FMFormat} (h : 2 ^ 32 ≤ formatRepSize f) : ¬ RepRoundTrips f := by
  rintro ⟨rep, lengths, hbuild, -, hrecorded, -, -⟩
  rw [buildServerFormatRep] at hbuild
  split at hbuild
  · cases hbuild
  · simp only [Option.some.injEq] at hbuild
    have hlength := length_formatRep f
    have hlt := lengthAt_lt hrecorded
    rw [hbuild] at hlength
    omega

/-- A block of 2^30 bytes. -/
def hugeOptInfo : FMOptInfo :=
  { infoType := 1, infoBlock := List.replicate (2 ^ 30) 0, typeNe := by decide,
    lenLt := by rw [List.length_replicate]; decide }

theorem registerFormats_not_repRoundTrips : ∃ structList f,
    registerFormats false false structList = some f ∧ ¬ RepRoundTrips f := by
  refine ⟨_, _, registerFormats_pointList (cstr ['p'] (.refl false)) (List.replicate 4 hugeOptInfo),
    not_repRoundTrips ?_⟩
  have hblocks : (optInfoBlocks (List.replicate 4 hugeOptInfo)).length = 2 ^ 32 := by
    simp only [List.replicate, length_optInfoBlocks_cons, hugeOptInfo, List.length_replicate]
    rfl
  calc 2 ^ 32 = (optInfoBlocks (List.replicate 4 hugeOptInfo)).length := hblocks.symm
    _ ≤ subformatRepSize (pointFormat (cstr ['p'] (.refl false)) (List.replicate 4 hugeOptInfo)) :=
      length_optInfoBlocks_le (pointFormat (cstr ['p'] (.refl false)) (List.replicate 4 hugeOptInfo))
    _ ≤ _ := subformatRepSize_le List.mem_cons_self

end FFS
