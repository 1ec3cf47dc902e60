import FFS.FM.TypeChain

/-!
# The pieces of a type string

`gen_FMTypeDesc` takes a type string apart at its outermost parentheses.  What is left are pieces
without parentheses, from the outside in, whose dimensions become the array links of the chain.
The last piece gives the element.
-/

namespace FFS

open Machine

/-- The pieces of a type string, from the outside in.  `none` where only one kind of parenthesis
is left. -/
def typePieces : Nat → List UInt8 → Option (List (List UInt8))
  | 0, _ => none
  | depth + 1, typ =>
    let first := typ.idxOf? (chr '(')
    let last := (typ.reverse.idxOf? (chr ')')).map (typ.length - 1 - ·)
    match first, last with
    | none, none => some [typ]
    | some i, some j => do
      let inner := if i < j then (typ.drop (i + 1)).take (j - i - 1) else typ.drop (i + 1)
      let washed :=
        if i < j then typ.take i ++ List.replicate (j - i + 1) (chr 'a') ++ typ.drop (j + 1)
        else typ.take j
      let base ← typePieces depth inner
      let root ← typePieces depth washed
      return root ++ base
    | _, _ => none

/-- What `IOget_array_size_dimen` says about each bracket of a string. -/
def arrayDimensions (fields : List FMField) (field : Nat) (typ : List UInt8) : List (Int × Int) :=
  (List.range (typ.count (chr '['))).map fun dimen => getArraySizeDimen typ fields dimen field

/-- The dimensions of a piece, whose pointers are skipped first. -/
def pieceDimensions (fields : List FMField) (field : Nat) (piece : List UInt8) : List (Int × Int) :=
  arrayDimensions fields field (skipPointers piece).2

/-- What an array link makes of a dimension. -/
def nodeDimension (dimension : Int × Int) : Int × Int :=
  (if dimension.1 = -1 then 0 else dimension.1, dimension.2)

/-- The sizes and control fields of the array links of a chain. -/
def arrayNodes (chain : List FMTypeDesc) : List (Int × Int) :=
  (chain.filter fun desc => desc.type = .array).map fun desc =>
    (desc.staticSize, desc.controlFieldIndex)

/-- The links of a piece in front of its element: its pointers, one more if a dimension is not
constant, and its dimensions. -/
def pieceLinks (fields : List FMField) (field : Nat) (piece : List UInt8) : List FMTypeDesc :=
  let dims := pieceDimensions fields field piece
  List.replicate (skipPointers piece).1 { FMTypeDesc.new .pointer with fieldIndex := field } ++
    (if dims.any (·.1 = -1) then [FMTypeDesc.new .pointer] else []) ++
    dims.map fun (staticSize, control) =>
      { FMTypeDesc.new .array with
        fieldIndex := field, staticSize := if staticSize = -1 then 0 else staticSize,
        controlFieldIndex := control }

/-- The element of a piece. -/
def pieceElement (field : Nat) (piece : List UInt8) : FMTypeDesc :=
  let dataType := (arrayStrToDataType piece).1
  let elementType : FMTypeEnum :=
    if dataType = .unknownType then .subformat
    else if isStringName (skipPointers piece).2 then .string
    else .simple
  { FMTypeDesc.new elementType with fieldIndex := field, dataType }

/-- The chain of pieces: the links of all of them and the element of the last one. -/
def pieceChain (fields : List FMField) (field : Nat) (pieces : List (List UInt8)) :
    List FMTypeDesc :=
  pieces.flatMap (pieceLinks fields field) ++ (pieces.getLast?.map (pieceElement field)).toList

/-- A chain describes pieces: behind pointers and arrays comes the element of the last one. -/
structure Describes (fields : List FMField) (field : Nat) (pieces : List (List UInt8))
    (chain : List FMTypeDesc) : Prop where
  nodes : arrayNodes chain =
    pieces.flatMap fun piece => (pieceDimensions fields field piece).map nodeDimension
  element : ∃ links piece, pieces.getLast? = some piece ∧
    chain = links ++ [pieceElement field piece] ∧
    ∀ desc ∈ links, desc.type = .pointer ∨ desc.type = .array

section
variable {fields : List FMField} {field : Nat}

theorem arrayNodes_append (chain chain' : List FMTypeDesc) :
    arrayNodes (chain ++ chain') = arrayNodes chain ++ arrayNodes chain' := by
  simp [arrayNodes]

theorem pieceElement_type (field : Nat) (piece : List UInt8) :
    (pieceElement field piece).type = .subformat ∧
        (arrayStrToDataType piece).1 = .unknownType ∨
      ((pieceElement field piece).type = .string ∨ (pieceElement field piece).type = .simple) ∧
        (arrayStrToDataType piece).1 ≠ .unknownType := by
  by_cases hunknown : (arrayStrToDataType piece).1 = .unknownType
  · exact .inl ⟨by simp [pieceElement, hunknown, FMTypeDesc.new], hunknown⟩
  · refine .inr ⟨?_, hunknown⟩
    by_cases hstring : isStringName (skipPointers piece).2 = true
    · exact .inl (by simp [pieceElement, hunknown, hstring, FMTypeDesc.new])
    · exact .inr (by simp [pieceElement, hunknown, hstring, FMTypeDesc.new])

theorem arrayNodes_element {chain : List FMTypeDesc} {desc : FMTypeDesc}
    (h : desc.type ≠ .array) : arrayNodes (chain ++ [desc]) = arrayNodes chain := by
  rw [arrayNodes_append]
  simp [arrayNodes, h]

theorem pieceElement_ne_array (piece : List UInt8) : (pieceElement field piece).type ≠ .array := by
  intro harray
  rcases pieceElement_type field piece with ⟨h, -⟩ | ⟨h | h, -⟩
  · rw [h] at harray
    cases harray
  · rw [h] at harray
    cases harray
  · rw [h] at harray
    cases harray

theorem genFlatTypeDesc_eq (piece : List UInt8) : genFlatTypeDesc fields field piece =
    pieceLinks fields field piece ++ [pieceElement field piece] := rfl

theorem pieceLinks_type {piece : List UInt8} {desc : FMTypeDesc}
    (h : desc ∈ pieceLinks fields field piece) : desc.type = .pointer ∨ desc.type = .array := by
  rw [pieceLinks, List.mem_append, List.mem_append] at h
  rcases h with (h | h) | h
  · rw [List.eq_of_mem_replicate h]
    exact .inl rfl
  · split at h
    · rw [List.mem_singleton.mp h]
      exact .inl rfl
    · cases h
  · obtain ⟨dimension, -, rfl⟩ := List.mem_map.mp h
    exact .inr rfl

theorem arrayNodes_pieceLinks (piece : List UInt8) : arrayNodes (pieceLinks fields field piece) =
    (pieceDimensions fields field piece).map nodeDimension := by
  have hpointers : arrayNodes (List.replicate (skipPointers piece).1
      { FMTypeDesc.new .pointer with fieldIndex := field }) = [] := by
    rw [arrayNodes, List.filter_replicate_of_neg, List.map_nil]
    exact (by decide : ¬ decide (FMTypeEnum.pointer = .array) = true)
  rw [pieceLinks, arrayNodes_append, arrayNodes_append, hpointers]
  generalize pieceDimensions fields field piece = dims
  have hvariable : arrayNodes (if dims.any (·.1 = -1) then [FMTypeDesc.new .pointer] else []) = [] := by
    split <;> rfl
  rw [hvariable, List.nil_append, List.nil_append, arrayNodes, List.filter_eq_self.mpr, List.map_map]
  · rfl
  · intro desc hdesc
    obtain ⟨dimension, -, rfl⟩ := List.mem_map.mp hdesc
    rfl

theorem arrayNodes_flatMap (pieces : List (List UInt8)) :
    arrayNodes (pieces.flatMap (pieceLinks fields field)) =
      pieces.flatMap fun piece => (pieceDimensions fields field piece).map nodeDimension := by
  induction pieces with
  | nil => rfl
  | cons piece pieces ih =>
    rw [List.flatMap_cons, List.flatMap_cons, arrayNodes_append, arrayNodes_pieceLinks, ih]

theorem pieceChain_concat (pieces : List (List UInt8)) (piece : List UInt8) :
    pieceChain fields field (pieces ++ [piece]) =
      (pieces ++ [piece]).flatMap (pieceLinks fields field) ++ [pieceElement field piece] := by
  rw [pieceChain, List.getLast?_concat]
  rfl

/-- A chain of pieces put in the place of the element of another. -/
theorem pieceChain_append {pieces pieces' : List (List UInt8)} (h : pieces ≠ []) (h' : pieces' ≠ []) :
    (pieceChain fields field pieces).dropLast ++ pieceChain fields field pieces' =
      pieceChain fields field (pieces ++ pieces') := by
  obtain ⟨front, piece, rfl⟩ := (List.eq_nil_or_concat' pieces).resolve_left h
  obtain ⟨front', piece', rfl⟩ := (List.eq_nil_or_concat' pieces').resolve_left h'
  have hassoc : front ++ [piece] ++ (front' ++ [piece']) = front ++ [piece] ++ front' ++ [piece'] :=
    (List.append_assoc ..).symm
  rw [pieceChain_concat, List.dropLast_concat, pieceChain_concat, hassoc, pieceChain_concat,
    ← hassoc, ← List.append_assoc, ← List.flatMap_append]

theorem describes_pieceChain {pieces : List (List UInt8)} (h : pieces ≠ []) :
    Describes fields field pieces (pieceChain fields field pieces) := by
  obtain ⟨front, piece, rfl⟩ := (List.eq_nil_or_concat' pieces).resolve_left h
  rw [pieceChain_concat]
  refine ⟨?_, _, piece, List.getLast?_concat, rfl, fun desc hdesc => ?_⟩
  · rw [arrayNodes_element (pieceElement_ne_array piece), arrayNodes_flatMap]
  · obtain ⟨part, -, hdesc⟩ := List.mem_flatMap.mp hdesc
    exact pieceLinks_type hdesc

theorem typePieces_ne_nil {depth : Nat} {typ : List UInt8} {pieces : List (List UInt8)}
    (h : typePieces depth typ = some pieces) : pieces ≠ [] := by
  induction depth generalizing typ pieces with
  | zero => cases h
  | succ depth ih =>
    rw [typePieces] at h
    dsimp only at h
    split at h
    · cases h
      exact List.cons_ne_nil _ _
    · simp only [Option.bind_eq_bind, Option.bind_eq_some_iff, Option.pure_def,
        Option.some.injEq] at h
      obtain ⟨base, -, root, hroot, rfl⟩ := h
      exact List.append_ne_nil_of_left_ne_nil (ih hroot) base
    · cases h

/-- A type has a chain just if it falls into pieces, whose chain it is. -/
theorem genTypeDesc_eq (depth : Nat) (typ : List UInt8) : genTypeDesc fields field depth typ =
    (typePieces depth typ).map (pieceChain fields field) := by
  induction depth generalizing typ with
  | zero => rfl
  | succ depth ih =>
    rw [typePieces, genTypeDesc]
    dsimp only
    cases typ.idxOf? (chr '(') with
    | none =>
      cases (typ.reverse.idxOf? (chr ')')).map (typ.length - 1 - ·) with
      | none =>
        rw [genFlatTypeDesc_eq, Option.map_some, ← List.nil_append [typ], pieceChain_concat,
          List.nil_append, List.flatMap_singleton]
      | some j => rfl
    | some i =>
      cases (typ.reverse.idxOf? (chr ')')).map (typ.length - 1 - ·) with
      | none => rfl
      | some j =>
        dsimp only
        generalize (if i < j then (typ.drop (i + 1)).take (j - i - 1) else typ.drop (i + 1)) = inner
        generalize (if i < j then typ.take i ++ List.replicate (j - i + 1) (chr 'a') ++
          typ.drop (j + 1) else typ.take j) = washed
        rw [ih, ih]
        cases hbase : typePieces depth inner with
        | none => rfl
        | some pieces' =>
          cases hroot : typePieces depth washed with
          | none => rfl
          | some pieces =>
            exact congrArg some
              (pieceChain_append (typePieces_ne_nil hroot) (typePieces_ne_nil hbase))

/-! ## Whole fields -/

/-- A type is described in pieces unless it has neither pointers nor dimensions. -/
def Compound (typ : List UInt8) : Prop := chr '*' ∈ typ ∨ chr '[' ∈ typ

/-- The pieces of the type of a field. -/
def fieldPieces (typ : List UInt8) : Option (List (List UInt8)) := typePieces (typ.length + 1) typ

theorem typeChain_of_compound {typ : List UInt8} (h : Compound typ) :
    typeChain fields field typ = (fieldPieces typ).map (pieceChain fields field) := by
  rw [typeChain, if_neg, genTypeDesc_eq, fieldPieces]
  rcases h with h | h <;> simp [h]

theorem typeChain_of_not_compound {typ : List UInt8} (h : ¬ Compound typ) :
    typeChain fields field typ =
      some [{ FMTypeDesc.new .simple with fieldIndex := field, dataType := strToDataType typ }] := by
  rw [Compound, not_or] at h
  rw [typeChain, if_pos (by simp [h.1, h.2])]

theorem typeChain_eq_none_iff {typ : List UInt8} :
    typeChain fields field typ = none ↔ Compound typ ∧ fieldPieces typ = none := by
  by_cases h : Compound typ
  · rw [typeChain_of_compound h, Option.map_eq_none_iff]
    exact (and_iff_right h).symm
  · rw [typeChain_of_not_compound h]
    simp [h]

theorem describes_of_typeChain {typ : List UInt8} (h : Compound typ) {chain : List FMTypeDesc}
    (hchain : typeChain fields field typ = some chain) :
    ∃ pieces, fieldPieces typ = some pieces ∧ Describes fields field pieces chain := by
  rw [typeChain_of_compound h] at hchain
  obtain ⟨pieces, hpieces, rfl⟩ := Option.map_eq_some_iff.mp hchain
  exact ⟨pieces, hpieces, describes_pieceChain (typePieces_ne_nil hpieces)⟩

/-! ## Closing -/

/-- Closing a chain leaves its pointers and arrays. -/
theorem closeTypeDesc_links {dataType : FMDataType} {subformat : Option Bool}
    {links : List FMTypeDesc} {last : FMTypeDesc}
    (hlinks : ∀ desc ∈ links, desc.type = .pointer ∨ desc.type = .array) :
    ∃ links', closeTypeDesc field dataType subformat (links ++ [last]) =
        links' ++ closeTypeDesc field dataType subformat [last] ∧
      (∀ desc ∈ links', desc.type = .pointer ∨ desc.type = .array) ∧
      arrayNodes links' = arrayNodes links ∧ links'.map (·.type) = links.map (·.type) := by
  induction links with
  | nil => exact ⟨[], rfl, by simp, rfl, rfl⟩
  | cons desc links ih =>
    obtain ⟨links', hclose, hlinks', hnodes, htypes⟩ :=
      ih fun d hd => hlinks d (List.mem_cons_of_mem _ hd)
    obtain ⟨n, hcons⟩ : ∃ n, closeTypeDesc field dataType subformat (desc :: (links ++ [last])) =
        { desc with pointerRecursive := n } ::
          closeTypeDesc field dataType subformat (links ++ [last]) := closeTypeDesc_cons (by simp)
    refine ⟨{ desc with pointerRecursive := n } :: links', ?_, ?_, ?_, ?_⟩
    · rw [List.cons_append, hcons, hclose, List.cons_append]
    · intro d hd
      rcases List.mem_cons.mp hd with rfl | hd
      · exact hlinks desc List.mem_cons_self
      · exact hlinks' d hd
    · have hhead : arrayNodes [{ desc with pointerRecursive := n }] = arrayNodes [desc] := by
        by_cases harray : desc.type = .array <;> simp [arrayNodes, harray]
      rw [← List.singleton_append, arrayNodes_append, hhead, hnodes, ← arrayNodes_append,
        List.singleton_append]
    · rw [List.map_cons, List.map_cons, htypes]

/-- The last link of a closed chain is a string, a subformat where the field has one, or what it
was. -/
theorem closeTypeDesc_singleton {dataType : FMDataType} {subformat : Option Bool}
    (last : FMTypeDesc) : ∃ last', closeTypeDesc field dataType subformat [last] = [last'] ∧
      (dataType = .stringType ∧ last'.type = .string ∨
        dataType ≠ .stringType ∧ subformat.isSome ∧ last'.type = .subformat ∨
        dataType ≠ .stringType ∧ subformat = none ∧ last' = last) := by
  rw [closeTypeDesc]
  by_cases hstring : dataType = .stringType
  · rw [if_pos hstring]
    exact ⟨_, rfl, .inl ⟨hstring, rfl⟩⟩
  · rw [if_neg hstring]
    by_cases hsub : subformat.isSome = true
    · rw [if_pos hsub]
      exact ⟨_, rfl, .inr (.inl ⟨hstring, hsub, rfl⟩)⟩
    · rw [if_neg hsub]
      exact ⟨_, rfl, .inr (.inr ⟨hstring, by simpa using hsub, rfl⟩)⟩

/-- The array links stay what they are. -/
theorem arrayNodes_closeTypeDesc {dataType : FMDataType} {subformat : Option Bool}
    {links : List FMTypeDesc} {last : FMTypeDesc}
    (hlinks : ∀ desc ∈ links, desc.type = .pointer ∨ desc.type = .array)
    (hlast : last.type ≠ .array) :
    arrayNodes (closeTypeDesc field dataType subformat (links ++ [last])) =
      arrayNodes (links ++ [last]) := by
  obtain ⟨links', hclose, -, hnodes, -⟩ :=
    @closeTypeDesc_links field dataType subformat _ last hlinks
  obtain ⟨last', hsingle, hcases⟩ := @closeTypeDesc_singleton field dataType subformat last
  have hlast' : last'.type ≠ .array := by
    rcases hcases with ⟨-, heq⟩ | ⟨-, -, heq⟩ | ⟨-, -, heq⟩
    · rw [heq]
      exact fun heq => by cases heq
    · rw [heq]
      exact fun heq => by cases heq
    · rw [heq]
      exact hlast
  rw [hclose, hsingle, arrayNodes_element hlast', hnodes, arrayNodes_element hlast]

end

end FFS
