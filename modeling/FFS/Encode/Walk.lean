import FFS.Encode.Placing

/-!
# Walking a record twice

`FFSencode` and `FFSencode_vector` walk the same record in copies at different places.  When
the pointers of a record lie in it, apart from the fields that count the elements of its arrays,
both see the same pointers and sizes at each step, and store the same offsets.
-/

namespace FFS

open Machine

/-! ## Layout -/

/-- The bytes that a field's chain covers in its record, none when they depend on the record. -/
def recordExtent (formats : List FMFormatBody) (f : FMFormatBody) : List FMTypeDesc → Option Nat
  | [] => none
  | desc :: next =>
    match desc.type with
    | .pointer | .string => some f.pointerSize
    | .array =>
      if desc.staticSize = 0 then none
      else (recordExtent formats f next).map ((desc.staticSize % 2 ^ 64).toNat * ·)
    | .subformat => (subformatOf formats f desc).map fun sub => sizeOfInt sub.recordLength
    | .simple => f.fieldList[desc.fieldIndex]?.map fun field => sizeOfInt field.fieldSize

/-- The fields that count the elements of the arrays of a chain. -/
def controls (f : FMFormatBody) (chain : List FMTypeDesc) : List FMField :=
  (chain.filter fun desc => desc.type = .array && desc.staticSize = 0).filterMap (controlOf f)

/-- What is read of such a field. -/
def controlSize (control : FMField) : Nat := quickSize (sizeOfInt control.fieldSize)

/-- The fields of a record that the walk descends into. -/
def pointerFields (formats : List FMFormatBody) (f : FMFormatBody) :
    List (FMField × FMVarInfo) :=
  (f.fieldList.zip f.varList).filter fun entry =>
    fieldIsFlat formats f entry.2.typeDesc = some false

/-- The offset and the length of a field's part of its record. -/
def pointerSpan (formats : List FMFormatBody) (f : FMFormatBody) (entry : FMField × FMVarInfo) :
    Nat × Nat :=
  (sizeOfInt entry.1.fieldOffset, (recordExtent formats f entry.2.typeDesc).getD 0)

def countSpan (control : FMField) : Nat × Nat :=
  (sizeOfInt control.fieldOffset, controlSize control)

def InRecord (f : FMFormatBody) (span : Nat × Nat) : Prop :=
  span.1 + span.2 ≤ sizeOfInt f.recordLength
deriving Decidable

def Apart (a b : Nat × Nat) : Prop := a.1 + a.2 ≤ b.1 ∨ b.1 + b.2 ≤ a.1
deriving Decidable

/-- The fields of a C structure: those with pointers, static arrays and subformats in full, lie
in the record one beside the other and beside the fields that count elements. -/
structure LaidOut (formats : List FMFormatBody) (f : FMFormatBody) : Prop where
  sized : ∀ entry ∈ pointerFields formats f,
    (recordExtent formats f entry.2.typeDesc).isSome = true
  inside : ∀ entry ∈ pointerFields formats f, InRecord f (pointerSpan formats f entry)
  apart : (pointerFields formats f).Pairwise fun entry other =>
    Apart (pointerSpan formats f entry) (pointerSpan formats f other)
  counts : ∀ entry ∈ pointerFields formats f, ∀ control ∈ controls f entry.2.typeDesc,
    InRecord f (countSpan control) ∧ ∀ other ∈ pointerFields formats f,
      Apart (countSpan control) (pointerSpan formats f other)

instance (formats : List FMFormatBody) (f : FMFormatBody) : Decidable (LaidOut formats f) :=
  decidable_of_iff (_ ∧ _ ∧ _ ∧ _)
    ⟨fun h => ⟨h.1, h.2.1, h.2.2.1, h.2.2.2⟩, fun h => ⟨h.1, h.2, h.3, h.4⟩⟩

/-- The span of a field that the walk descends into. -/
theorem LaidOut.entry {formats : List FMFormatBody} {f : FMFormatBody} (h : LaidOut formats f)
    {entry : FMField × FMVarInfo} (hmem : entry ∈ f.fieldList.zip f.varList)
    (hflat : fieldIsFlat formats f entry.2.typeDesc = some false) :
    entry ∈ pointerFields formats f ∧
      recordExtent formats f entry.2.typeDesc = some (pointerSpan formats f entry).2 := by
  have hentry : entry ∈ pointerFields formats f :=
    List.mem_filter.mpr ⟨hmem, decide_eq_true hflat⟩
  obtain ⟨extent, hextent⟩ := Option.isSome_iff_exists.mp (h.sized entry hentry)
  exact ⟨hentry, by rw [pointerSpan, hextent]; rfl⟩

theorem controls_tail (f : FMFormatBody) (desc : FMTypeDesc) (next : List FMTypeDesc) :
    controls f next ⊆ controls f (desc :: next) := by
  intro control hcontrol
  unfold controls at hcontrol ⊢
  obtain ⟨link, hlink, heq⟩ := List.mem_filterMap.mp hcontrol
  obtain ⟨hmem, hp⟩ := List.mem_filter.mp hlink
  exact List.mem_filterMap.mpr ⟨link, List.mem_filter.mpr ⟨List.mem_cons_of_mem _ hmem, hp⟩, heq⟩

theorem mem_controls_head {f : FMFormatBody} {desc : FMTypeDesc} {control : FMField}
    (next : List FMTypeDesc) (hdesc : desc.type = .array) (hsize : desc.staticSize = 0)
    (h : controlOf f desc = some control) : control ∈ controls f (desc :: next) := by
  unfold controls
  refine List.mem_filterMap.mpr ⟨desc, List.mem_filter.mpr ⟨List.mem_cons_self, ?_⟩, h⟩
  simp [hdesc, hsize]

/-! ## Sizes -/

variable {formats : List FMFormatBody} {f : FMFormatBody} {m m' : Mem} {p p' : Nat}

/-- Two copies of a record have the same counts. -/
def SameControls (f : FMFormatBody) (m m' : Mem) (p p' : Nat) (chain : List FMTypeDesc) : Prop :=
  ∀ control ∈ controls f chain,
    m'.read (p' + sizeOfInt control.fieldOffset) (controlSize control) =
      m.read (p + sizeOfInt control.fieldOffset) (controlSize control)

theorem SameControls.tail {desc : FMTypeDesc} {next : List FMTypeDesc}
    (h : SameControls f m m' p p' (desc :: next)) : SameControls f m m' p p' next :=
  fun control hcontrol => h control (controls_tail f desc next hcontrol)

theorem dimenSize_congr {desc : FMTypeDesc} {next : List FMTypeDesc} (hdesc : desc.type = .array)
    (h : SameControls f m m' p p' (desc :: next)) :
    dimenSize f m' p' desc = dimenSize f m p desc := by
  unfold dimenSize
  split
  · next hsize =>
    cases hcontrol : controlOf f desc with
    | none => rfl
    | some control =>
      have hread := h control (mem_controls_head next hdesc hsize hcontrol)
      exact congrArg some (congrArg leValue hread)
  · rfl

theorem determineSize_congr {chain : List FMTypeDesc} (h : SameControls f m m' p p' chain) :
    determineSize formats f m' p' chain = determineSize formats f m p chain := by
  induction chain with
  | nil => rfl
  | cons desc next ih =>
    rw [determineSize, determineSize]
    cases hdesc : desc.type with
    | array => simp only [dimenSize_congr hdesc h, ih h.tail]
    | pointer => rfl
    | string => rfl
    | subformat => rfl
    | simple => rfl

theorem arrayElements_congr {chain : List FMTypeDesc} (h : SameControls f m m' p p' chain) :
    arrayElements f m' p' chain = arrayElements f m p chain := by
  induction chain with
  | nil => rfl
  | cons desc next ih =>
    rw [arrayElements, arrayElements]
    by_cases hdesc : desc.type = .array
    · simp only [if_pos hdesc, dimenSize_congr hdesc h, ih h.tail]
    · rw [if_neg hdesc, if_neg hdesc]

theorem mem_of_subformatOf {desc : FMTypeDesc} {sub : FMFormatBody}
    (h : subformatOf formats f desc = some sub) : sub ∈ formats := by
  simp only [subformatOf, Option.bind_eq_bind, Option.bind_eq_some_iff] at h
  obtain ⟨-, -, number, -, hsub⟩ := h
  exact List.mem_of_getElem? hsub

theorem determineSize_of_extent {chain : List FMTypeDesc} {extent : Nat}
    (h : recordExtent formats f chain = some extent) (m : Mem) (p : Nat) :
    determineSize formats f m p chain = some extent := by
  induction chain generalizing extent with
  | nil => cases h
  | cons desc next ih =>
    rw [recordExtent] at h
    rw [determineSize]
    cases hdesc : desc.type with
    | array =>
      simp only [hdesc] at h ⊢
      by_cases hsize : desc.staticSize = 0
      · rw [if_pos hsize] at h
        cases h
      · rw [if_neg hsize] at h
        obtain ⟨rest, hrest, rfl⟩ := Option.map_eq_some_iff.mp h
        rw [ih hrest, dimenSize, if_neg hsize]
        rfl
    | pointer => simpa only [hdesc] using h
    | string => simpa only [hdesc] using h
    | subformat => simpa only [hdesc] using h
    | simple => simpa only [hdesc] using h

/-- The elements of an array fill it. -/
theorem determineSize_of_elements {chain element : List FMTypeDesc} {count : Nat}
    (h : arrayElements f m p chain = some (count, element)) :
    (∀ size, determineSize formats f m p element = some size →
      determineSize formats f m p chain = some (count * size)) ∧
    controls f element ⊆ controls f chain := by
  induction chain generalizing count with
  | nil => cases h
  | cons desc next ih =>
    rw [arrayElements] at h
    by_cases hdesc : desc.type = .array
    · simp only [if_pos hdesc, Option.bind_eq_bind, Option.bind_eq_some_iff, Option.pure_def,
        Option.some.injEq, Prod.mk.injEq] at h
      obtain ⟨dimen, hdimen, ⟨rest, element'⟩, hrest, rfl, rfl⟩ := h
      obtain ⟨hsize, hsub⟩ := ih hrest
      refine ⟨fun size h => ?_, fun control hcontrol => controls_tail f desc next (hsub hcontrol)⟩
      rw [determineSize]
      simp only [hdesc, hdimen, hsize size h, Option.bind_eq_bind, Option.bind_some,
        Option.pure_def, Option.some.injEq]
      rw [Nat.mul_assoc]
    · rw [if_neg hdesc] at h
      cases h
      refine ⟨fun size h => ?_, List.Subset.refl _⟩
      rw [Nat.one_mul, h]

/-- The size of an element that is no array does not depend on the record. -/
theorem determineSize_element {chain element : List FMTypeDesc} {count : Nat}
    (h : arrayElements f m p chain = some (count, element)) (m' m'' : Mem) (p' p'' : Nat) :
    determineSize formats f m' p' element = determineSize formats f m'' p'' element := by
  induction chain generalizing count with
  | nil => cases h
  | cons desc next ih =>
    rw [arrayElements] at h
    by_cases hdesc : desc.type = .array
    · simp only [if_pos hdesc, Option.bind_eq_bind, Option.bind_eq_some_iff, Option.pure_def,
        Option.some.injEq, Prod.mk.injEq] at h
      obtain ⟨dimen, -, ⟨rest, element'⟩, hrest, -, rfl⟩ := h
      exact ih hrest
    · rw [if_neg hdesc] at h
      cases h
      rw [determineSize, determineSize]
      cases htype : desc.type with
      | array => exact absurd htype hdesc
      | pointer => rfl
      | string => rfl
      | subformat => rfl
      | simple => rfl

/-! ## Steps of the walk -/

variable {mem before : Mem} {header : Nat} {s₁ s₂ : EncodeState}

/-- Two results that fail together or are again similar. -/
def Follow (mem before : Mem) (header : Nat) (s₂ : EncodeState) (r₁ r₂ : Option EncodeState) :
    Prop :=
  Option.Rel (fun t₁ t₂ => Sim mem before header t₁ t₂ ∧ Grows header s₂ t₂) r₁ r₂

/-- Where the two walks are: in frames of the data and of the record around it. -/
structure Placed (formats : List FMFormatBody) (header : Nat) (f : FMFormatBody)
    (s₁ s₂ : EncodeState) (chain : List FMTypeDesc) (d₁ d₂ p₁ p₂ : Nat) : Prop where
  parent : Frame header s₂ p₁ p₂ (sizeOfInt f.recordLength)
  inRecord : ∀ control ∈ controls f chain,
    sizeOfInt control.fieldOffset + controlSize control ≤ sizeOfInt f.recordLength
  sized : ∃ n, determineSize formats f s₁.buf.tmpBuffer p₁ chain = some n ∧
    Frame header s₂ d₁ d₂ n ∧ ∀ control ∈ controls f chain,
      p₁ + sizeOfInt control.fieldOffset + controlSize control ≤ d₁ ∨
        d₁ + n ≤ p₁ + sizeOfInt control.fieldOffset

theorem quickSize_le (size : Nat) : quickSize size ≤ size := by
  unfold quickSize
  split <;> omega

theorem sameControls_of_frame {chain : List FMTypeDesc} {p₁ p₂ : Nat}
    (h : Sim mem before header s₁ s₂) (hparent : Frame header s₂ p₁ p₂ (sizeOfInt f.recordLength))
    (hcontrols : ∀ control ∈ controls f chain,
      sizeOfInt control.fieldOffset + controlSize control ≤ sizeOfInt f.recordLength) :
    SameControls f s₁.buf.tmpBuffer s₂.buf.tmpBuffer p₁ p₂ chain :=
  fun control hcontrol => hparent.read h (hcontrols control hcontrol)

theorem quickGetUlong_eq {d₁ d₂ n : Nat} (h : Sim mem before header s₁ s₂)
    (hframe : Frame header s₂ d₁ d₂ n) :
    quickGetUlong s₂.buf.tmpBuffer d₂ n = quickGetUlong s₁.buf.tmpBuffer d₁ n := by
  have hread := hframe.read (k := 0) (m := quickSize n) h (by have := quickSize_le n; omega)
  exact congrArg leValue hread

theorem Sim.put {d₁ d₂ n : Nat} (h : Sim mem before header s₁ s₂)
    (hframe : Frame header s₂ d₁ d₂ n) (value : Nat) :
    Sim mem before header (s₁.quickPutUlong d₁ n value) (s₂.quickPutUlong d₂ n value) ∧
      Grows header s₂ (s₂.quickPutUlong d₂ n value) :=
  h.store hframe (by rw [length_leBytes]; exact quickSize_le n)

theorem Sim.addToAddrList (h : Sim mem before header s₁ s₂) (addr offset : Nat) :
    Sim mem before header (s₁.addToAddrList addr offset) (s₂.addToAddrList addr offset) ∧
      Grows header s₂ (s₂.addToAddrList addr offset) := by
  refine ⟨{ h with addrList := ?_ }, ⟨fun _ => rfl, Nat.le_refl _, fun _ hnot => hnot⟩⟩
  show s₂.addrList ++ _ = s₁.addrList ++ _
  rw [h.addrList]

/-- A block behind the end leaves the message before it as it was. -/
theorem placeBlock_old (h : Sim mem before header s₁ s₂) (block : Block) (addr : Nat) {i : Nat}
    (hi : i < s₁.outputLen) :
    (s₁.placeBlock mem block addr).1.buf.tmpBuffer i = s₁.buf.tmpBuffer i := by
  obtain ⟨e, he⟩ := Option.isSome_iff_exists.mp h.tmp₁
  obtain ⟨happended, -, -⟩ := @placeBlock_appended mem s₁ e h.copyAll₁ he block addr
  exact happended.old (h.inUse₁ ▸ hi)

theorem Placed.addToAddrList {chain : List FMTypeDesc} {d₁ d₂ p₁ p₂ : Nat}
    (h : Placed formats header f s₁ s₂ chain d₁ d₂ p₁ p₂) (addr offset : Nat) :
    Placed formats header f (s₁.addToAddrList addr offset) (s₂.addToAddrList addr offset) chain
      d₁ d₂ p₁ p₂ := by
  obtain ⟨hparent, hcontrols, n, hn, hframe, hapart⟩ := h
  exact ⟨⟨hparent.inside, hparent.place, hparent.strays⟩, hcontrols, n, hn,
    ⟨hframe.inside, hframe.place, hframe.strays⟩, hapart⟩

theorem Follow.trans {t₂ : EncodeState} {r₁ r₂ : Option EncodeState}
    (hsim : Sim mem before header s₁ s₂) (hgrows : Grows header s₂ t₂)
    (h : Follow mem before header t₂ r₁ r₂) : Follow mem before header s₂ r₁ r₂ := by
  cases h with
  | some hresult => exact .some ⟨hresult.1, hgrows.trans hsim hresult.2⟩
  | none => exact .none

/-- The fields of a record. -/
theorem handleSubfields_follow
    {handle : EncodeState → List FMTypeDesc → Nat → Nat → Option EncodeState} {d₁ d₂ : Nat}
    (hhandle : ∀ {t₁ t₂ : EncodeState} {chain : List FMTypeDesc} {e₁ e₂ : Nat},
      Sim mem before header t₁ t₂ → Placed formats header f t₁ t₂ chain e₁ e₂ d₁ d₂ →
        Follow mem before header t₂ (handle t₁ chain e₁ d₁) (handle t₂ chain e₂ d₂))
    (hlaid : LaidOut formats f) (h : Sim mem before header s₁ s₂)
    (hframe : Frame header s₂ d₁ d₂ (sizeOfInt f.recordLength)) :
    Follow mem before header s₂ (handleSubfields formats handle f s₁ d₁)
      (handleSubfields formats handle f s₂ d₂) := by
  unfold handleSubfields
  split
  · exact .some ⟨h, Grows.refl header s₂⟩
  · refine rel_foldlM ?_ ⟨h, Grows.refl header s₂⟩
    rintro ⟨field, var⟩ hmem t₁ t₂ ⟨hsim, hgrows⟩
    dsimp only
    cases hflat : fieldIsFlat formats f var.typeDesc with
    | none => exact .none
    | some flat =>
      cases flat with
      | true => exact .some ⟨hsim, hgrows⟩
      | false =>
        obtain ⟨hentry, hextent⟩ := hlaid.entry hmem hflat
        have hrecord := hframe.grows h hgrows
        refine Follow.trans h hgrows (hhandle hsim ⟨hrecord, ?_, _, ?_,
          hrecord.sub (hlaid.inside _ hentry), ?_⟩)
        · exact fun control hcontrol => (hlaid.counts _ hentry control hcontrol).1
        · exact determineSize_of_extent hextent _ _
        · intro control hcontrol
          have hapart := (hlaid.counts _ hentry control hcontrol).2 _ hentry
          simp only [Apart, countSpan, pointerSpan] at hapart ⊢
          omega

/-- The target of a pointer is placed, and the pointer becomes its offset. -/
theorem target_follow {next : List FMTypeDesc} {d₁ d₂ p₁ p₂ n size : Nat}
    (h : Sim mem before header s₁ s₂)
    (hparent : Frame header s₂ p₁ p₂ (sizeOfInt f.recordLength))
    (hcontrols : ∀ control ∈ controls f next,
      sizeOfInt control.fieldOffset + controlSize control ≤ sizeOfInt f.recordLength)
    (hframe : Frame header s₂ d₁ d₂ n)
    (hapart : ∀ control ∈ controls f next,
      p₁ + sizeOfInt control.fieldOffset + controlSize control ≤ d₁ ∨
        d₁ + n ≤ p₁ + sizeOfInt control.fieldOffset)
    (hsize : determineSize formats f s₁.buf.tmpBuffer p₁ next = some size) (hpos : size ≠ 0)
    (ptr : Nat) (flat : Bool) :
    let block : Block := { leaf := flat, alignment := 8, length := size }
    let r₁ := s₁.placeBlock mem block ptr
    let r₂ := s₂.placeBlock mem block ptr
    r₂.2.1 = r₁.2.1 ∧ r₂.1.savedOffsetDifference = r₁.1.savedOffsetDifference ∧ ∀ offset,
      let t₁ := r₁.1.quickPutUlong d₁ n offset
      let t₂ := r₂.1.quickPutUlong d₂ n offset
      Sim mem before header t₁ t₂ ∧ Grows header s₂ t₂ ∧
        (flat = false → Placed formats header f t₁ t₂ next r₁.2.2 r₂.2.2 p₁ p₂) := by
  intro block r₁ r₂
  have hplaced : r₂.2.1 = r₁.2.1 ∧ Sim mem before header r₁.1 r₂.1 ∧ Grows header s₂ r₂.1 ∧
      (flat = false → r₁.2.2 = r₁.2.1 ∧ s₂.outputLen ≤ r₁.2.1 ∧
        Frame header r₂.1 r₁.2.1 r₂.2.2 size) := by
    cases flat with
    | true =>
      obtain ⟨hoffset, hsim, hgrows⟩ := placeBlock_leaf h (show block.leaf = true from rfl) ptr
      exact ⟨hoffset, hsim, hgrows, fun hfalse => by cases hfalse⟩
    | false =>
      obtain ⟨hoffset, hloc, hle, hsim, hgrows, hblock⟩ :=
        placeBlock_copied h (show block.leaf = false from rfl) (.inl hpos) ptr
      exact ⟨hoffset, hsim, hgrows, fun _ => ⟨hloc, hle, hblock⟩⟩
  obtain ⟨hoffset, hsim, hgrows, hcopied⟩ := hplaced
  refine ⟨hoffset, hsim.saved, fun offset => ?_⟩
  obtain ⟨hput, hgrows'⟩ := hsim.put (hframe.grows h hgrows) offset
  have hall := hgrows.trans h hgrows'
  refine ⟨hput, hall, fun hflat => ?_⟩
  obtain ⟨hloc, hle, hblock⟩ := hcopied hflat
  -- The counts are where they were: before the new block and apart from the pointer.
  have hinside : ∀ control ∈ controls f next,
      p₁ + sizeOfInt control.fieldOffset + controlSize control ≤ s₁.outputLen := by
    intro control hcontrol
    have hin := hcontrols control hcontrol
    have hend := hparent.inside
    have houtput := h.outputLen
    omega
  have hsame : SameControls f s₁.buf.tmpBuffer (r₁.1.quickPutUlong d₁ n offset).buf.tmpBuffer
      p₁ p₁ next := by
    intro control hcontrol
    have hin := hinside control hcontrol
    have hput : (r₁.1.quickPutUlong d₁ n offset).buf.tmpBuffer.read
        (p₁ + sizeOfInt control.fieldOffset) (controlSize control) =
          r₁.1.buf.tmpBuffer.read (p₁ + sizeOfInt control.fieldOffset) (controlSize control) := by
      refine Mem.read_write_of_disjoint ?_
      have hwidth := quickSize_le n
      rw [length_leBytes]
      have := hapart control hcontrol
      omega
    rw [hput]
    exact Mem.read_congr fun i _ hi => placeBlock_old h block ptr (by omega)
  refine ⟨hparent.grows h hall, hcontrols, size, ?_, ?_, fun control hcontrol => .inl ?_⟩
  · rw [determineSize_congr hsame, hsize]
  · rw [hloc]
    exact hblock.grows hsim hgrows'
  · have hin := hinside control hcontrol
    have houtput := h.outputLen
    omega

/-! ## The walk -/

/-- Walks of the same chain from similar states follow one another. -/
def Follows (mem before : Mem) (header : Nat) (formats : List FMFormatBody) (fuel : Nat) : Prop :=
  ∀ {f : FMFormatBody} {s₁ s₂ : EncodeState} {chain : List FMTypeDesc} {d₁ d₂ p₁ p₂ : Nat},
    Sim mem before header s₁ s₂ → Placed formats header f s₁ s₂ chain d₁ d₂ p₁ p₂ →
      Follow mem before header s₂ (handleSubfield formats mem fuel f s₁ chain d₁ p₁)
        (handleSubfield formats mem fuel f s₂ chain d₂ p₂)

theorem searchAddrList_eq (h : Sim mem before header s₁ s₂) (addr : Nat) :
    s₂.searchAddrList addr = s₁.searchAddrList addr := by
  rw [EncodeState.searchAddrList, EncodeState.searchAddrList, h.addrList]

/-- A target that the encoder remembers, in a recursive format. -/
theorem remember_follow {t₁ t₂ : EncodeState} {next : List FMTypeDesc} {e₁ e₂ p₁ p₂ : Nat}
    {flat : Bool} (recursive : Bool) (ptr offset : Nat) (h : Sim mem before header s₁ s₂)
    (ht : Sim mem before header t₁ t₂ ∧ Grows header s₂ t₂ ∧
      (flat = false → Placed formats header f t₁ t₂ next e₁ e₂ p₁ p₂)) :
    let u₁ := if recursive = true then t₁.addToAddrList ptr offset else t₁
    let u₂ := if recursive = true then t₂.addToAddrList ptr offset else t₂
    Sim mem before header u₁ u₂ ∧ Grows header s₂ u₂ ∧
      (flat = false → Placed formats header f u₁ u₂ next e₁ e₂ p₁ p₂) := by
  obtain ⟨hsim, hgrows, hnext⟩ := ht
  cases recursive with
  | false => exact ⟨hsim, hgrows, hnext⟩
  | true =>
    obtain ⟨hsim', hgrows'⟩ := hsim.addToAddrList ptr offset
    exact ⟨hsim', hgrows.trans h hgrows', fun hflat => (hnext hflat).addToAddrList ptr offset⟩

theorem pointer_follow {fuel : Nat} {desc : FMTypeDesc} {next : List FMTypeDesc}
    {d₁ d₂ p₁ p₂ : Nat} (hdesc : desc.type = .pointer)
    (ih : Follows mem before header formats fuel) (h : Sim mem before header s₁ s₂)
    (hplaced : Placed formats header f s₁ s₂ (desc :: next) d₁ d₂ p₁ p₂) :
    Follow mem before header s₂
      (handleSubfield formats mem (fuel + 1) f s₁ (desc :: next) d₁ p₁)
      (handleSubfield formats mem (fuel + 1) f s₂ (desc :: next) d₂ p₂) := by
  obtain ⟨n, hn, hframe, hapart⟩ := hplaced.sized
  have hsize : n = f.pointerSize := by
    simpa [determineSize, hdesc] using hn.symm
  subst hsize
  have hcontrols : ∀ control ∈ controls f next,
      sizeOfInt control.fieldOffset + controlSize control ≤ sizeOfInt f.recordLength :=
    fun control hcontrol => hplaced.inRecord control (controls_tail f desc next hcontrol)
  have hsame := sameControls_of_frame h hplaced.parent hcontrols
  rw [handleSubfield, handleSubfield]
  simp only [hdesc, quickGetUlong_eq h hframe, searchAddrList_eq h, determineSize_congr hsame,
    h.noLeafCopy₁, h.noLeafCopy₂, Bool.false_and, Bool.false_eq_true, if_false]
  generalize quickGetUlong s₁.buf.tmpBuffer d₁ f.pointerSize = ptr
  split
  · exact .some ⟨h, Grows.refl header s₂⟩
  · split
    · exact .some (h.put hframe _)
    · cases hsize : determineSize formats f s₁.buf.tmpBuffer p₁ next with
      | none => exact .none
      | some size =>
        simp only [Option.bind_eq_bind, Option.bind_some]
        split
        · exact .some (h.put hframe 0)
        · next hpos =>
          cases fieldIsFlat formats f next with
          | none => exact .none
          | some flat =>
            obtain ⟨hoffset, hsaved, htarget⟩ := target_follow h hplaced.parent hcontrols hframe
              (fun control hcontrol => hapart control (controls_tail f desc next hcontrol)) hsize
              hpos ptr flat
            simp only [Option.bind_some, hoffset, hsaved]
            generalize s₁.placeBlock mem _ ptr = r₁ at *
            generalize s₂.placeBlock mem _ ptr = r₂ at *
            generalize r₁.2.1 - r₁.1.savedOffsetDifference = offset
            have hstep := remember_follow f.recursive ptr offset h (htarget offset)
            generalize (if f.recursive = true then _ else _ : EncodeState) = t₁ at hstep ⊢
            generalize (if f.recursive = true then _ else _ : EncodeState) = t₂ at hstep ⊢
            obtain ⟨hsim, hgrows, hnext⟩ := hstep
            cases flat with
            | true => exact .some ⟨hsim, hgrows⟩
            | false => exact Follow.trans h hgrows (ih hsim (hnext rfl))

theorem string_follow {fuel : Nat} {desc : FMTypeDesc} {next : List FMTypeDesc}
    {d₁ d₂ p₁ p₂ : Nat} (hdesc : desc.type = .string) (h : Sim mem before header s₁ s₂)
    (hplaced : Placed formats header f s₁ s₂ (desc :: next) d₁ d₂ p₁ p₂) :
    Follow mem before header s₂
      (handleSubfield formats mem (fuel + 1) f s₁ (desc :: next) d₁ p₁)
      (handleSubfield formats mem (fuel + 1) f s₂ (desc :: next) d₂ p₂) := by
  obtain ⟨n, hn, hframe, -⟩ := hplaced.sized
  have hsize : n = f.pointerSize := by
    simpa [determineSize, hdesc] using hn.symm
  subst hsize
  rw [handleSubfield, handleSubfield]
  simp only [hdesc, quickGetUlong_eq h hframe]
  generalize quickGetUlong s₁.buf.tmpBuffer d₁ f.pointerSize = ptr
  split
  · exact .some ⟨h, Grows.refl header s₂⟩
  · cases stringLength mem fuel ptr with
    | none => exact .none
    | some length =>
      simp only [Option.bind_eq_bind, Option.bind_some]
      obtain ⟨hoffset, hsim, hgrows⟩ :=
        placeBlock_leaf h (show (Block.mk true 1 (length + 1)).leaf = true from rfl) ptr
      rw [hoffset, hsim.saved]
      obtain ⟨hput, hgrows'⟩ := hsim.put (hframe.grows h hgrows) _
      exact .some ⟨hput, hgrows.trans h hgrows'⟩

/-- The elements of an array, which lie one behind the other. -/
theorem array_follow {fuel : Nat} {desc : FMTypeDesc} {next : List FMTypeDesc}
    {d₁ d₂ p₁ p₂ : Nat} (hdesc : desc.type = .array)
    (ih : Follows mem before header formats fuel) (h : Sim mem before header s₁ s₂)
    (hplaced : Placed formats header f s₁ s₂ (desc :: next) d₁ d₂ p₁ p₂) :
    Follow mem before header s₂
      (handleSubfield formats mem (fuel + 1) f s₁ (desc :: next) d₁ p₁)
      (handleSubfield formats mem (fuel + 1) f s₂ (desc :: next) d₂ p₂) := by
  obtain ⟨n, hn, hframe, hapart⟩ := hplaced.sized
  have hsame := sameControls_of_frame h hplaced.parent hplaced.inRecord
  rw [handleSubfield, handleSubfield]
  simp only [hdesc, arrayElements_congr hsame]
  cases helements : arrayElements f s₁.buf.tmpBuffer p₁ (desc :: next) with
  | none => exact .none
  | some found =>
    obtain ⟨elements, element⟩ := found
    obtain ⟨hfill, hsub⟩ := @determineSize_of_elements formats f _ _ _ _ _ helements
    simp only [Option.bind_eq_bind, Option.bind_some]
    rw [determineSize_element helements s₂.buf.tmpBuffer s₁.buf.tmpBuffer p₂ p₁]
    cases hsize : determineSize formats f s₁.buf.tmpBuffer p₁ element with
    | none => exact .none
    | some size =>
      have hfilled : elements * size = n := Option.some.inj ((hfill size hsize).symm.trans hn)
      simp only [Option.bind_some]
      cases fieldIsFlat formats f element with
      | none => exact .none
      | some flat =>
        cases flat with
        | true => exact .some ⟨h, Grows.refl header s₂⟩
        | false =>
          refine rel_foldlM (fun i hi t₁ t₂ ht => ?_) ⟨h, Grows.refl header s₂⟩
          obtain ⟨hsim, hgrows⟩ := ht
          have hi : i < elements := List.mem_range.mp hi
          have hin : i * size + size ≤ n := by
            calc i * size + size = (i + 1) * size := (Nat.succ_mul i size).symm
              _ ≤ elements * size := Nat.mul_le_mul_right size hi
              _ = n := hfilled
          refine Follow.trans h hgrows (ih hsim ⟨hplaced.parent.grows h hgrows, ?_, size, ?_,
            (hframe.sub hin).grows h hgrows, ?_⟩)
          · exact fun control hcontrol => hplaced.inRecord control (hsub hcontrol)
          · rw [determineSize_element helements _ s₁.buf.tmpBuffer _ p₁, hsize]
          · intro control hcontrol
            have := hapart control (hsub hcontrol)
            omega

theorem subformat_follow {fuel : Nat} {desc : FMTypeDesc} {next : List FMTypeDesc}
    {d₁ d₂ p₁ p₂ : Nat} (hdesc : desc.type = .subformat)
    (hlaid : ∀ f ∈ formats, LaidOut formats f)
    (ih : Follows mem before header formats fuel) (h : Sim mem before header s₁ s₂)
    (hplaced : Placed formats header f s₁ s₂ (desc :: next) d₁ d₂ p₁ p₂) :
    Follow mem before header s₂
      (handleSubfield formats mem (fuel + 1) f s₁ (desc :: next) d₁ p₁)
      (handleSubfield formats mem (fuel + 1) f s₂ (desc :: next) d₂ p₂) := by
  obtain ⟨n, hn, hframe, -⟩ := hplaced.sized
  rw [handleSubfield, handleSubfield]
  simp only [hdesc]
  cases hsub : subformatOf formats f desc with
  | none => exact .none
  | some sub =>
    have hsize : n = sizeOfInt sub.recordLength := by
      simpa [determineSize, hdesc, hsub] using hn.symm
    subst hsize
    exact handleSubfields_follow ih (hlaid sub (mem_of_subformatOf hsub)) h hframe

/-- From similar states the walks of a chain lead to similar states, or both come to no end. -/
theorem handleSubfield_follows (hlaid : ∀ f ∈ formats, LaidOut formats f) (fuel : Nat) :
    Follows mem before header formats fuel := by
  induction fuel with
  | zero => exact fun _ _ => .none
  | succ fuel ih =>
    intro f s₁ s₂ chain d₁ d₂ p₁ p₂ h hplaced
    cases chain with
    | nil => exact .none
    | cons desc next =>
      cases hdesc : desc.type with
      | pointer => exact pointer_follow hdesc ih h hplaced
      | string => exact string_follow hdesc h hplaced
      | array => exact array_follow hdesc ih h hplaced
      | subformat => exact subformat_follow hdesc hlaid ih h hplaced
      | simple =>
        rw [handleSubfield, handleSubfield]
        simp only [hdesc]
        exact .none

end FFS
