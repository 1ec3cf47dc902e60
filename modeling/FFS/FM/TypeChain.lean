import Mathlib.Data.List.DropRight
import FFS.FM.Derive

/-!
# Type strings and their chains

Two readings of a type string, `array_str_to_data_type` and `base_data_type` followed by
`str_to_data_type`, agree on the simple types.  A chain of type descriptors ends in
something that is no pointer, and closing it shows the recursive flag of the subformat
exactly if there is a link before the last.
-/

namespace FFS

open Machine

/-! ## Base types -/

theorem takeWhile_dropWhile {α : Type} {p q : α → Bool} (h : ∀ a, p a = true → q a = true)
    (l : List α) : (l.dropWhile p).takeWhile q = (l.takeWhile q).dropWhile p := by
  induction l with
  | nil => rfl
  | cons a l ih =>
    by_cases hp : p a = true
    · rw [List.dropWhile_cons_of_pos hp, List.takeWhile_cons_of_pos (h a hp),
        List.dropWhile_cons_of_pos hp, ih]
    · rw [List.dropWhile_cons_of_neg hp]
      by_cases hq : q a = true
      · rw [List.takeWhile_cons_of_pos hq, List.dropWhile_cons_of_neg hp]
      · rw [List.takeWhile_cons_of_neg hq, List.dropWhile_nil]

theorem arrayStrToDataType_fst (str : List UInt8) :
    (arrayStrToDataType str).1 = strToDataType (str.takeWhile (· ≠ chr '[')) := by
  rw [arrayStrToDataType]
  split
  · next hnone =>
    rw [strchr] at hnone
    split at hnone
    · next hdrop =>
      have hself : str.takeWhile (· ≠ chr '[') = str := by
        have happend := List.takeWhile_append_dropWhile (p := (· ≠ chr '[')) (l := str)
        rwa [hdrop, List.append_nil] at happend
      rw [hself]
    · cases hnone
  · rfl

/-- The part of a type string that is compared with the names of the data types. -/
def typeName (str : List UInt8) : List UInt8 := dropTypeSuffix (skipTypePrefix str)

theorem strToDataType_congr {str str' : List UInt8} (h : typeName str = typeName str') :
    strToDataType str = strToDataType str' := by
  rw [typeName, typeName] at h
  rw [strToDataType, strToDataType, h]

theorem typeName_mem {str : List UInt8} (h : strToDataType str ≠ .unknownType) :
    (typeName str).map toLower ∈ dataTypeNames.map Prod.fst := by
  rw [strToDataType] at h
  split at h
  · next name t hfind =>
    have hname := List.find?_some hfind
    simp only [decide_eq_true_eq] at hname
    exact List.mem_map.mpr ⟨_, List.mem_of_find?_eq_some hfind, hname⟩
  · exact absurd rfl h

theorem dataTypeNames_plain :
    ∀ name ∈ dataTypeNames.map Prod.fst, name ≠ [] ∧ chr ')' ∉ name := by decide

theorem toLower_paren : toLower (chr ')') = chr ')' := by decide

/-- What follows the name of a simple type up to a parenthesis is blank. -/
theorem typeName_takeWhile {str : List UInt8} (h : strToDataType str ≠ .unknownType) :
    typeName ((skipTypePrefix str).takeWhile (· ≠ chr ')')) = typeName str := by
  obtain ⟨hne, hparen⟩ := dataTypeNames_plain _ (typeName_mem h)
  have hne : typeName str ≠ [] := fun heq => hne (by rw [heq, List.map_nil])
  have hparen : chr ')' ∉ typeName str := fun hmem =>
    hparen (List.mem_map.mpr ⟨_, hmem, toLower_paren⟩)
  obtain ⟨suffix, hsplit, hsuffix⟩ : ∃ suffix, skipTypePrefix str = typeName str ++ suffix ∧
      ∀ b ∈ suffix, (isSpace b || b == chr ')') = true :=
    ⟨_, (List.rdropWhile_append_rtakeWhile ..).symm,
      fun b (hb : b ∈ List.rtakeWhile (fun b => isSpace b || b == chr ')') (skipTypePrefix str)) =>
        by simpa using List.mem_rtakeWhile_imp hb⟩
  have htake : (skipTypePrefix str).takeWhile (· ≠ chr ')') =
      typeName str ++ suffix.takeWhile (· ≠ chr ')') := by
    rw [hsplit, List.takeWhile_append_of_pos]
    intro b hb
    simp only [decide_eq_true_eq]
    exact fun heq => hparen (heq ▸ hb)
  have hskip : skipTypePrefix (typeName str ++ suffix.takeWhile (· ≠ chr ')')) =
      typeName str ++ suffix.takeWhile (· ≠ chr ')') := by
    have hskipped : skipTypePrefix (typeName str ++ suffix) = typeName str ++ suffix := by
      rw [← hsplit]
      exact List.dropWhile_idempotent _ _
    cases hname : typeName str with
    | nil => exact absurd hname hne
    | cons b name =>
      rw [hname] at hskipped
      have hhead := List.dropWhile_eq_self_iff.mp hskipped (by simp)
      exact List.dropWhile_cons_of_neg hhead
  have hlast : dropTypeSuffix (typeName str) = typeName str := List.rdropWhile_idempotent _ _
  rw [typeName, htake, hskip, dropTypeSuffix, List.reverse_append, List.dropWhile_append_of_pos]
  · exact hlast
  · intro b hb
    exact hsuffix b (List.takeWhile_subset _ (List.mem_reverse.mp hb))

/-- What is in front of the dimensions decides the base. -/
theorem baseDataType_eq (typ : List UInt8) : baseDataType typ =
    (skipTypePrefix (typ.takeWhile (· ≠ chr '['))).takeWhile (· ≠ chr ')') := by
  rw [baseDataType, skipTypePrefix, takeWhile_dropWhile]
  · rfl
  · intro b hb
    simp only [Bool.or_eq_true, beq_iff_eq, isSpace, Bool.and_eq_true, decide_eq_true_eq] at hb
    simp only [ne_eq, decide_eq_true_eq]
    rintro rfl
    revert hb
    decide

/-- The base of a simple type is of that type. -/
theorem strToDataType_baseDataType {typ : List UInt8}
    (h : (arrayStrToDataType typ).1 ≠ .unknownType) :
    strToDataType (baseDataType typ) = (arrayStrToDataType typ).1 := by
  rw [arrayStrToDataType_fst] at h ⊢
  refine strToDataType_congr ?_
  rw [← typeName_takeWhile h, baseDataType_eq]

/-! ## Chains -/

/-- A chain ends, and not in a pointer. -/
def Ends (chain : List FMTypeDesc) : Prop :=
  ∃ links last, chain = links ++ [last] ∧ last.type ≠ .pointer

theorem ends_genFlatTypeDesc (fields : List FMField) (field : Nat) (typ : List UInt8) :
    Ends (genFlatTypeDesc fields field typ) := by
  rw [genFlatTypeDesc]
  refine ⟨_, _, rfl, ?_⟩
  show (if _ then FMTypeEnum.subformat else if _ then .string else .simple) ≠ .pointer
  split_ifs <;> exact fun heq => by cases heq

theorem ends_genTypeDesc {fields : List FMField} {field depth : Nat} {typ : List UInt8}
    {chain : List FMTypeDesc} (h : genTypeDesc fields field depth typ = some chain) :
    Ends chain := by
  induction depth generalizing typ chain with
  | zero => cases h
  | succ depth ih =>
    rw [genTypeDesc] at h
    dsimp only at h
    split at h
    · cases h
      exact ends_genFlatTypeDesc fields field typ
    · simp only [Option.bind_eq_bind, Option.bind_eq_some_iff, Option.pure_def,
        Option.some.injEq] at h
      obtain ⟨base, hbase, root, -, rfl⟩ := h
      obtain ⟨links, last, rfl, hlast⟩ := ih hbase
      exact ⟨root.dropLast ++ links, last, by rw [List.append_assoc], hlast⟩
    · cases h

theorem ends_typeChain {fields : List FMField} {field : Nat} {typ : List UInt8}
    {chain : List FMTypeDesc} (h : typeChain fields field typ = some chain) : Ends chain := by
  rw [typeChain] at h
  split at h
  · cases h
    exact ⟨[], _, rfl, fun heq => by cases heq⟩
  · exact ends_genTypeDesc h

theorem closeTypeDesc_cons {field : Nat} {dataType : FMDataType} {subformat : Option Bool}
    {desc : FMTypeDesc} {chain : List FMTypeDesc} (h : chain ≠ []) :
    ∃ n, closeTypeDesc field dataType subformat (desc :: chain) =
      { desc with pointerRecursive := n } :: closeTypeDesc field dataType subformat chain := by
  match chain, h with
  | [element], _ => exact ⟨_, rfl⟩
  | _ :: _ :: _, _ => exact ⟨desc.pointerRecursive, rfl⟩

/-- A closed chain has a pointer only where the chain had one before its last link. -/
theorem closeTypeDesc_pointer {field : Nat} {dataType : FMDataType} {subformat : Option Bool}
    {chain : List FMTypeDesc} (hends : Ends chain)
    (h : (closeTypeDesc field dataType subformat chain).any (·.type = .pointer) = true) :
    chain.dropLast.any (·.type = .pointer) = true := by
  obtain ⟨links, last, rfl, hlast⟩ := hends
  rw [List.dropLast_concat]
  induction links with
  | nil =>
    rw [List.nil_append, closeTypeDesc] at h
    split_ifs at h <;> simp [hlast] at h
  | cons desc links ih =>
    have hne : links ++ [last] ≠ [] := by simp
    obtain ⟨n, hclose⟩ : ∃ n, closeTypeDesc field dataType subformat (desc :: (links ++ [last])) =
        { desc with pointerRecursive := n } ::
          closeTypeDesc field dataType subformat (links ++ [last]) := closeTypeDesc_cons hne
    rw [List.cons_append, hclose, List.any_cons, Bool.or_eq_true] at h
    rw [List.any_cons, Bool.or_eq_true]
    exact h.imp_right ih

/-- Whether the chain of a field has a link before its last, which notes that the subformat
is recursive. -/
def linked (fields : List FMField) (field : Nat) (typ : List UInt8) : Bool :=
  (typeChain fields field typ).any fun chain => 2 ≤ chain.length

theorem closeTypeDesc_eq_iff {field : Nat} {dataType : FMDataType} {r r' : Bool}
    (hdata : dataType ≠ .stringType) (chain : List FMTypeDesc) :
    closeTypeDesc field dataType (some r) chain = closeTypeDesc field dataType (some r') chain ↔
      (2 ≤ chain.length → r = r') := by
  induction chain with
  | nil => simp [closeTypeDesc]
  | cons desc chain ih =>
    match chain with
    | [] => simp [closeTypeDesc, hdata]
    | [element] =>
      cases r <;> cases r' <;> simp [closeTypeDesc, hdata]
    | next :: after :: rest =>
      have hcons : ∀ r, closeTypeDesc field dataType (some r) (desc :: next :: after :: rest) =
          desc :: closeTypeDesc field dataType (some r) (next :: after :: rest) := fun r => rfl
      rw [hcons, hcons, List.cons_inj_right, ih]
      simp

end FFS
