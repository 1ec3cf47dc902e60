import FFS.FM.Format
import FFS.Machine.Fallible

/-!
# What registration keeps

The stages of `registerFormats` change the flags, the derived values, the order and the
alignment of formats and nothing else.  `underived` is the part of a format that is never
touched, and `HostFormat` what every registered format has in common.
-/

namespace FFS

open Machine

/-- A format with nothing but what its representation says. -/
def FMFormatBody.underived (f : FMFormatBody) : FMFormatBody :=
  { f with variant := false, recursive := false, varList := [], fieldSubformats := [] }

/-- What `register_data_format` makes sure of and a representation relies on. -/
structure HostFormat (f : FMFormatBody) : Prop where
  byteReversal : f.byteReversal = false
  floatFormat : f.floatFormat = fmMyFloatFormat
  pointerSize : f.pointerSize = sizeofPointer
  alignment : f.alignment < 256
  ioVersion : f.ioVersion = 4

theorem hostFormat_underived {f : FMFormatBody} : HostFormat f.underived ↔ HostFormat f :=
  ⟨fun h => ⟨h.1, h.2, h.3, h.4, h.5⟩, fun h => ⟨h.1, h.2, h.3, h.4, h.5⟩⟩

/-- All formats of a list are host formats, which only their underived parts decide. -/
def AllHost (formats : List FMFormatBody) : Prop := ∀ f ∈ formats, HostFormat f

theorem AllHost.of_map_underived {formats formats' : List FMFormatBody} (h : AllHost formats)
    (heq : formats'.map FMFormatBody.underived = formats.map FMFormatBody.underived) :
    AllHost formats' := by
  intro f hf
  have hmem := List.mem_map_of_mem (f := FMFormatBody.underived) hf
  rw [heq, List.mem_map] at hmem
  obtain ⟨g, hg, hgf⟩ := hmem
  rw [← hostFormat_underived, ← hgf, hostFormat_underived]
  exact h g hg

theorem AllHost.set {formats : List FMFormatBody} (h : AllHost formats) {f : FMFormatBody}
    (hf : HostFormat f) (i : Nat) : AllHost (formats.set i f) := by
  intro g hg
  rcases List.mem_or_eq_of_mem_set hg with hg | rfl
  · exact h g hg
  · exact hf

/-! ## New formats -/

theorem newFormat_host {columnMajor ignoreDefaultValues : Bool} {s : FMStructDesc}
    {f : FMFormatBody} (h : newFormat columnMajor ignoreDefaultValues s = some f) :
    HostFormat f := by
  simp only [newFormat, Option.bind_eq_bind, Option.bind_eq_some_iff, Option.pure_def,
    Option.some.injEq] at h
  obtain ⟨_, -, rfl⟩ := h
  exact ⟨rfl, rfl, rfl, Nat.zero_lt_succ 255, rfl⟩

theorem mapM_newFormat_host {columnMajor ignoreDefaultValues : Bool} {l : List FMStructDesc}
    {formats : List FMFormatBody}
    (h : l.mapM (newFormat columnMajor ignoreDefaultValues) = some formats) : AllHost formats := by
  intro f hf
  obtain ⟨s, -, hs⟩ := mem_of_mapM_eq_some h hf
  exact newFormat_host hs

/-! ## Derivation -/

theorem generateVarList_underived {candidates : List Nat} {formats : List FMFormatBody}
    {self : Nat} {f g : FMFormatBody} (h : generateVarList candidates formats self f = some g) :
    g.underived = f.underived := by
  simp only [generateVarList, Option.bind_eq_bind, Option.bind_eq_some_iff, Option.pure_def,
    Option.some.injEq] at h
  obtain ⟨vars, -, rfl⟩ := h
  rfl

theorem pass_underived {gen : List FMFormatBody → Nat → FMFormatBody → Option FMFormatBody}
    (hgen : ∀ formats self f g, gen formats self f = some g → g.underived = f.underived)
    {formats formats' : List FMFormatBody} {order : List Nat}
    (h : pass gen formats order = some formats') :
    formats'.map FMFormatBody.underived = formats.map FMFormatBody.underived := by
  refine foldlM_invariant
    (fun formats' => formats'.map FMFormatBody.underived = formats.map FMFormatBody.underived)
    (fun hkeep hstep => ?_) rfl h
  obtain ⟨f, hf, hstep⟩ := Option.bind_eq_some_iff.mp hstep
  obtain ⟨g, hg, rfl⟩ := Option.map_eq_some_iff.mp hstep
  exact (map_set_of_eq _ hf (hgen _ _ _ _ hg)).trans hkeep

/-! ## Order -/

theorem reorder_host {formats : List FMFormatBody} (h : AllHost formats) (order : List Nat) :
    AllHost (reorder formats order) := by
  intro f hf
  simp only [reorder, List.mem_filterMap, Option.map_eq_some_iff] at hf
  obtain ⟨i, -, g, hg, rfl⟩ := hf
  have hhost := h g (List.mem_of_getElem? hg)
  exact ⟨hhost.1, hhost.2, hhost.3, hhost.4, hhost.5⟩

theorem length_reorder_le (formats : List FMFormatBody) (order : List Nat) :
    (reorder formats order).length ≤ order.length := List.length_filterMap_le _ _

theorem topoOrderSubformats_eq_cons (formats : List FMFormatBody) :
    ∃ below, topoOrderSubformats formats = 0 :: below := by
  rw [topoOrderSubformats, postOrder, visit, if_neg (by simp)]
  dsimp only
  rw [List.reverse_append]
  exact ⟨_, rfl⟩

/-! ## Alignment -/

theorem simpleAlignment_le {size : Int32} {dataType : FMDataType} {a : Int}
    (h : simpleAlignment size dataType = some a) : a ≤ 16 := by
  have hbelow : ∀ n, sizeBelow size n = true → size.toInt < n := by
    intro n hn
    simp only [sizeBelow, Bool.and_eq_true, decide_eq_true_eq] at hn
    exact hn.2
  have hinteger : integerAlignment size ≤ 16 := by
    rw [integerAlignment]
    split_ifs <;> omega
  have hfloat : floatAlignment size ≤ 16 := by
    rw [floatAlignment]
    split_ifs with h₁ h₂
    · omega
    · have := hbelow 4 h₂
      omega
    all_goals omega
  cases dataType <;> simp only [simpleAlignment, Option.some.injEq, reduceCtorEq] at h <;> omega

theorem typeAlignment_lt {size : Int32} {subAlignment : Option Nat}
    (hsub : ∀ a ∈ subAlignment, a < 256) {descs : List FMTypeDesc} {a : Int}
    (h : typeAlignment size subAlignment descs = some a) : a < 256 := by
  induction descs with
  | nil =>
    simp only [typeAlignment, Option.some.injEq] at h
    omega
  | cons desc descs ih =>
    rw [typeAlignment.eq_def] at h
    dsimp only at h
    split at h
    · simp only [Option.some.injEq, sizeofPointer] at h
      omega
    · simp only [Option.some.injEq, sizeofPointer] at h
      omega
    · exact ih h
    · simp only [Option.map_eq_some_iff, Option.filter_eq_some_iff] at h
      obtain ⟨b, ⟨hb, -⟩, rfl⟩ := h
      exact Int.ofNat_lt.mpr (hsub b hb)
    · have := simpleAlignment_le h
      omega

theorem foldl_max_lt {l : List Int} {n bound : Int} (hn : n < bound) (hl : ∀ a ∈ l, a < bound) :
    l.foldl max n < bound := by
  induction l generalizing n with
  | nil => exact hn
  | cons a l ih =>
    rw [List.foldl_cons]
    refine ih (max_lt hn (hl a (by simp))) fun b hb => hl b (by simp [hb])

theorem fieldAlignments_lt {formats : List FMFormatBody} (h : AllHost formats) {f : FMFormatBody}
    {alignments : List Int} (ha : fieldAlignments formats f = some alignments) :
    ∀ a ∈ alignments, a < 256 := by
  intro a hmem
  obtain ⟨field, -, hfield⟩ := mem_of_mapM_eq_some ha hmem
  simp only [Option.bind_eq_bind, Option.bind_eq_some_iff] at hfield
  obtain ⟨fmField, -, var, -, subformat, -, hfield⟩ := hfield
  refine typeAlignment_lt ?_ hfield
  intro b hb
  simp only [Option.mem_def, Option.bind_eq_some_iff, Option.map_eq_some_iff] at hb
  obtain ⟨i, -, g, hg, rfl⟩ := hb
  exact (h g (List.mem_of_getElem? hg)).alignment

theorem setAlignment_host {formats formats' : List FMFormatBody} {i : Nat} (h : AllHost formats)
    (hs : setAlignment formats i = some formats') : AllHost formats' := by
  simp only [setAlignment, Option.bind_eq_bind, Option.bind_eq_some_iff] at hs
  obtain ⟨f, hf, hs⟩ := hs
  split at hs
  · simp only [Option.pure_def, Option.some.injEq] at hs
    subst hs
    exact h
  · simp only [Option.bind_eq_some_iff, Option.pure_def, Option.some.injEq] at hs
    obtain ⟨alignments, ha, rfl⟩ := hs
    have hhost := h f (List.mem_of_getElem? hf)
    have hlt := foldl_max_lt (show (0 : Int) < 256 by decide) (fieldAlignments_lt h ha)
    have halignment : (alignments.foldl max 0).toNat < 256 := by omega
    exact h.set (f := { f with alignment := (alignments.foldl max 0).toNat })
      ⟨hhost.1, hhost.2, hhost.3, halignment, hhost.5⟩ i

theorem setAlignment_length {formats formats' : List FMFormatBody} {i : Nat}
    (hs : setAlignment formats i = some formats') : formats'.length = formats.length := by
  simp only [setAlignment, Option.bind_eq_bind, Option.bind_eq_some_iff] at hs
  obtain ⟨f, hf, hs⟩ := hs
  split at hs
  · simp only [Option.pure_def, Option.some.injEq] at hs
    rw [hs]
  · simp only [Option.bind_eq_some_iff, Option.pure_def, Option.some.injEq] at hs
    obtain ⟨alignments, ha, rfl⟩ := hs
    exact List.length_set

/-! ## Flags -/

theorem bubbleVariant_underived (formats : List FMFormatBody) (i : Nat) :
    (bubbleVariant formats i).map FMFormatBody.underived = formats.map FMFormatBody.underived := by
  rw [bubbleVariant]
  split
  · rfl
  · next f hf => exact map_set_of_eq _ hf rfl

theorem bubbleVariants_underived (formats : List FMFormatBody) (count : Nat) :
    (bubbleVariants formats count).map FMFormatBody.underived =
      formats.map FMFormatBody.underived := by
  let Same (formats' : List FMFormatBody) : Prop :=
    formats'.map FMFormatBody.underived = formats.map FMFormatBody.underived
  have hround : ∀ {formats'} i, Same formats' → Same (bubbleVariant formats' i) :=
    fun i h => (bubbleVariant_underived _ i).trans h
  exact foldl_invariant Same (fun _ h => foldl_invariant Same hround _ h) _ rfl

/-! ## Registration -/

/-- The stages of a registration that succeeds. -/
structure Registration (columnMajor ignoreDefaultValues : Bool) (structList : List FMStructDesc)
    (f : FMFormat) (copied derived aligned : List FMFormatBody) : Prop where
  copied_eq : structList.mapM (newFormat columnMajor ignoreDefaultValues) = some copied
  derived_eq : pass (generateVarList (List.range copied.length)) copied
    (List.range copied.length).reverse = some derived
  order_lt : (topoOrderSubformats derived).length < topoArraySize
  aligned_eq : (List.range (reorder derived (topoOrderSubformats derived)).length).reverse.foldlM
    setAlignment (reorder derived (topoOrderSubformats derived)) = some aligned
  bodies_eq : f.bodies = bubbleVariants aligned aligned.length
  fit : f.bodies.all (fieldsFit f.bodies) = true

variable {columnMajor ignoreDefaultValues : Bool} {structList : List FMStructDesc} {f : FMFormat}
  {copied derived aligned : List FMFormatBody}

theorem registration_of_some
    (h : registerFormats columnMajor ignoreDefaultValues structList = some f) :
    ∃ copied derived aligned,
      Registration columnMajor ignoreDefaultValues structList f copied derived aligned := by
  simp only [registerFormats, Option.bind_eq_bind, Option.bind_eq_some_iff,
    Option.guard_eq_some', exists_const] at h
  obtain ⟨copied, hcopied, derived, hderived, horder, aligned, haligned, hfit, h⟩ := h
  have hbodies : f.bodies = bubbleVariants aligned aligned.length := by
    split at h
    · cases h
    · next top subformats heq =>
      simp only [Option.pure_def, Option.some.injEq] at h
      rw [heq, ← h, FMFormat.bodies]
  exact ⟨copied, derived, aligned,
    { copied_eq := hcopied, derived_eq := hderived, order_lt := horder, aligned_eq := haligned,
      bodies_eq := hbodies, fit := by rw [hbodies]; exact hfit }⟩

theorem Registration.host
    (h : Registration columnMajor ignoreDefaultValues structList f copied derived aligned) :
    AllHost f.bodies := by
  have hcopied := mapM_newFormat_host h.copied_eq
  have hderived := hcopied.of_map_underived
    (pass_underived (fun _ _ _ _ => generateVarList_underived) h.derived_eq)
  have haligned : AllHost aligned :=
    foldlM_invariant AllHost setAlignment_host (reorder_host hderived _) h.aligned_eq
  rw [h.bodies_eq]
  exact haligned.of_map_underived (bubbleVariants_underived aligned _)

theorem Registration.length_lt
    (h : Registration columnMajor ignoreDefaultValues structList f copied derived aligned) :
    f.subformats.length + 1 < topoArraySize := by
  have horder := h.order_lt
  have hreorder := length_reorder_le derived (topoOrderSubformats derived)
  have haligned : aligned.length = (reorder derived (topoOrderSubformats derived)).length :=
    foldlM_invariant (fun formats => formats.length = (reorder derived _).length)
      (fun hlength hs => (setAlignment_length hs).trans hlength) rfl h.aligned_eq
  have hbodies : f.bodies.length = aligned.length := by
    have := congrArg List.length (bubbleVariants_underived aligned aligned.length)
    rw [h.bodies_eq]
    simpa only [List.length_map] using this
  simp only [FMFormat.bodies, List.length_cons] at hbodies
  omega

/-! ## A smallest format -/

/-- One integer. -/
def pointFields : List FMField :=
  [{ fieldName := cstr ['x'] (.refl false),
     fieldType := cstr ['i', 'n', 't', 'e', 'g', 'e', 'r'] (.refl false),
     fieldSize := 4, fieldOffset := 0 }]

/-- A struct list of one format with one integer, and any name and optional information. -/
def pointList (formatName : CString) (optInfo : List FMOptInfo) : List FMStructDesc :=
  [{ formatName, fieldList := pointFields, structSize := 4, optInfo }]

def pointFormat (formatName : CString) (optInfo : List FMOptInfo) : FMFormatBody :=
  { formatName, recordLength := 4, byteReversal := false, floatFormat := fmMyFloatFormat,
    pointerSize := sizeofPointer, ioVersion := 4, fieldList := pointFields, optInfo,
    alignment := 4, columnMajorArrays := false, variant := false, recursive := false,
    varList := [{ string := false, varArray := false, byteVector := false,
                  dataType := .integerType, dimens := [],
                  typeDesc := [{ FMTypeDesc.new .simple with dataType := .integerType }] }],
    fieldSubformats := [none] }

theorem registerFormats_pointList (formatName : CString) (optInfo : List FMOptInfo) :
    registerFormats false false (pointList formatName optInfo) =
      some { top := pointFormat formatName optInfo, subformats := [] } := rfl

/-! ## Formats that refer to each other -/

/-- Points counted by a field, one of them, and a pointer to another path. -/
def pathList : List FMStructDesc :=
  [{ formatName := cstr ['p', 'a', 't', 'h'] (.refl false),
     fieldList :=
       [⟨cstr ['n'] (.refl false), cstr ['i', 'n', 't', 'e', 'g', 'e', 'r'] (.refl false), 4, 0⟩,
        ⟨cstr ['o'] (.refl false), cstr ['p'] (.refl false), 4, 4⟩,
        ⟨cstr ['a'] (.refl false), cstr ['p', '[', 'n', ']'] (.refl false), 4, 8⟩,
        ⟨cstr ['t'] (.refl false), cstr ['*', 'p', 'a', 't', 'h'] (.refl false), 24, 16⟩],
     structSize := 24, optInfo := [] }] ++ pointList (cstr ['p'] (.refl false)) []

def pathFormat : FMFormat := (registerFormats false false pathList).get (by decide)

theorem registerFormats_pathList : registerFormats false false pathList = some pathFormat :=
  (Option.some_get _).symm

end FFS
