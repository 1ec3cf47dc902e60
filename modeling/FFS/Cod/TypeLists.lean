import FFS.Cod.StructFields

/-!
# Type lists

`type_list_to_string` has the rules of `reduce_type_list` for keywords but one, that of `signed`
alone, and it stops where the keywords end.  A list that has a type string keeps its type when there
is nothing behind them.
-/

namespace FFS
namespace Cod

open Machine

/-- `signed` is all there is to a type. -/
def SignedAlone (tokens : List Token) : Prop :=
  0 < specCount tokens ∧ ∀ t ∈ tokens, t.uncounted = true ∨ t = .signed

instance (tokens : List Token) : Decidable (SignedAlone tokens) :=
  inferInstanceAs (Decidable (_ ∧ _))

/-- The scalar type of a list that has a type string. -/
def stringScalar (l : List DeclNode) : Option CgType :=
  (stringType l).filter fun cg => cg.asString.isSome

section

variable (types : Nat → ScopeType) (addressed : CString → Bool)

/-- Nothing is behind the keywords, no pointer either, and they are not `signed` alone.  What is
behind them may be of no account: a variable keeps their type where an enumeration that is not
declared ends its analysis. -/
def KeepsScalar (cg : CgType) (l : List DeclNode) (s : Scopes) : Prop :=
  if behind l = [] then ¬ SignedAlone (leading l)
  else reduceTypeList types addressed l s = some (cg, .null)

/-- A type list in error. -/
def Typeless (l : List DeclNode) (s : Scopes) : Prop :=
  ∀ type ∈ reduceTypeList types addressed l s, type = (.err, .null)

end

/-! ## Keywords -/

theorem pointer_of_mem_leading {l : List DeclNode} : ∀ t ∈ leading l, t.pointer = false := by
  induction l with
  | nil => exact fun t ht => by cases ht
  | cons d l ih =>
    intro t ht
    cases d with
    | typeSpecifier t' =>
      rw [leading] at ht
      split at ht
      · cases ht
      · next hpointer =>
        rcases List.mem_cons.mp ht with rfl | ht
        · exact Bool.eq_false_iff.mpr hpointer
        · exact ih t ht
    | _ => cases ht

theorem specifiedType_eq (tokens : List Token) (more : Bool) :
    specifiedType tokens more =
      keywordType (if 0 < tokens.count .int then .i else .err) tokens more := rfl

/-- The keywords of an `int`, or `signed` in their place. -/
structure IntBranch (tokens : List Token) : Prop where
  counted : specCount tokens ≠ 0
  void : tokens.count .void = 0
  string : tokens.count .string = 0
  double : tokens.count .double = 0
  float : tokens.count .float = 0
  unsigned : tokens.count .unsigned = 0
  char : tokens.count .char = 0
  short : tokens.count .short = 0
  long : tokens.count .long = 0

theorem keywordType_congr {tokens : List Token} (h : ¬ IntBranch tokens) (last last' : CgType)
    (more : Bool) : keywordType last tokens more = keywordType last' tokens more := by
  unfold keywordType
  by_cases hcounted : specCount tokens = 0
  · rw [if_pos hcounted, if_pos hcounted]
  rw [if_neg hcounted, if_neg hcounted]
  refine ite_congr rfl (fun _ => rfl) fun _ => ite_congr rfl (fun _ => rfl) fun _ =>
    ite_congr rfl (fun _ => rfl) fun hvoid => ite_congr rfl (fun _ => rfl) fun hstring =>
    ite_congr rfl (fun _ => rfl) fun _ => ite_congr rfl (fun _ => rfl) fun _ =>
    ite_congr rfl (fun _ => rfl) fun hfloat => ite_congr rfl (fun _ => rfl) fun _ =>
    ite_congr rfl (fun _ => rfl) fun _ => ite_congr rfl (fun _ => rfl) fun hunsigned =>
    congrArg some (ite_congr rfl (fun _ => rfl) fun hchar => ite_congr rfl (fun _ => rfl)
      fun hshort => ite_congr rfl (fun _ => rfl) fun hlong => ?_)
  refine absurd ⟨hcounted, by omega, by omega, by omega, by omega, by omega, by omega, by omega,
    ?_⟩ h
  split at hlong <;> omega

theorem keywordType_int {tokens : List Token} (h : IntBranch tokens) {last cg : CgType}
    {more : Bool} (hcg : keywordType last tokens more = some cg) (last' : CgType) :
    cg = last ∧ keywordType last' tokens more = some last' := by
  unfold keywordType at hcg ⊢
  have hlong : ¬ 0 = 2 := by decide
  simp only [if_neg h.counted, h.void, h.string, h.double, h.float, h.unsigned, h.char, h.short,
    h.long, if_false, Nat.lt_irrefl, false_and, Nat.zero_add, or_self, if_neg hlong] at hcg ⊢
  rw [if_neg (by decide)] at hcg ⊢
  split at hcg
  · cases hcg
  · next hsigned =>
    rw [if_neg hsigned]
    exact ⟨(Option.some.inj hcg).symm, rfl⟩

/-- Among keywords the branch is reached with `signed` alone. -/
theorem signedAlone_iff {tokens : List Token} (h : ∀ t ∈ tokens, t.pointer = false) :
    SignedAlone tokens ↔ IntBranch tokens ∧ tokens.count .int = 0 := by
  symm
  constructor
  · rintro ⟨hlast, hint⟩
    refine ⟨Nat.pos_of_ne_zero hlast.counted, fun t ht => ?_⟩
    have hpos : 0 < tokens.count t := List.count_pos_iff.mpr ht
    have hpointer := h t ht
    cases t with
    | signed => exact .inr rfl
    | typedef | static | externToken | const => exact .inl rfl
    | star | atSign => cases hpointer
    | int => exact absurd hint hpos.ne'
    | long => exact absurd hlast.long hpos.ne'
    | short => exact absurd hlast.short hpos.ne'
    | double => exact absurd hlast.double hpos.ne'
    | string => exact absurd hlast.string hpos.ne'
    | void => exact absurd hlast.void hpos.ne'
    | float => exact absurd hlast.float hpos.ne'
    | char => exact absurd hlast.char hpos.ne'
    | unsigned => exact absurd hlast.unsigned hpos.ne'
  · intro hsigned
    have hzero : ∀ t : Token, t.uncounted = false → t ≠ .signed → tokens.count t = 0 := by
      intro t hcounted hne
      refine List.count_eq_zero.mpr fun hmem => ?_
      rcases hsigned.2 t hmem with huncounted | heq
      · rw [hcounted] at huncounted
        cases huncounted
      · exact hne heq
    exact ⟨⟨hsigned.1.ne', hzero _ rfl (by decide), hzero _ rfl (by decide),
      hzero _ rfl (by decide), hzero _ rfl (by decide), hzero _ rfl (by decide),
      hzero _ rfl (by decide), hzero _ rfl (by decide), hzero _ rfl (by decide)⟩,
      hzero _ rfl (by decide)⟩

theorem keywords_of_stringScalar {l : List DeclNode} {cg : CgType} (hbehind : behind l = [])
    (hcg : stringScalar l = some cg) : specifiedType (leading l) false =
      some (if SignedAlone (leading l) then .err else cg) := by
  have hfinal : keywordType .i (leading l) false = some cg := by
    have hstring := (Option.filter_eq_some_iff.mp hcg).1
    rw [stringType, hbehind] at hstring
    exact hstring
  have halone := signedAlone_iff (pointer_of_mem_leading (l := l))
  rw [specifiedType_eq]
  by_cases hint : IntBranch (leading l)
  · obtain ⟨rfl, hkeyword⟩ := keywordType_int hint hfinal
      (if 0 < (leading l).count .int then .i else .err)
    rw [hkeyword]
    by_cases hzero : (leading l).count .int = 0
    · rw [if_pos (halone.mpr ⟨hint, hzero⟩), if_neg (by omega)]
    · rw [if_neg fun h => hzero (halone.mp h).2, if_pos (by omega)]
  · rw [if_neg fun h => hint (halone.mp h).1, ← hfinal]
    exact keywordType_congr hint _ _ _

theorem ne_err_of_stringScalar {l : List DeclNode} {cg : CgType} (h : stringScalar l = some cg) :
    cg ≠ .err := by
  rintro rfl
  have hstring := (Option.filter_eq_some_iff.mp h).2
  cases hstring

/-! ## `reduce_type_list` -/

theorem specifiedType_cons {t : Token} (h : t.uncounted = true) (tokens : List Token)
    (more : Bool) : specifiedType (t :: tokens) more = specifiedType tokens more := by
  have hspec : specCount (t :: tokens) = specCount tokens := by
    rw [specCount, specCount, List.countP_cons_of_neg (by rw [h]; decide)]
  have hcount : ∀ x : Token, x.uncounted = false → (t :: tokens).count x = tokens.count x := by
    intro x hx
    refine List.count_cons_of_ne fun heq => ?_
    rw [heq, hx] at h
    cases h
  simp only [specifiedType, keywordType, hspec, hcount .void rfl, hcount .string rfl, hcount .short rfl,
    hcount .long rfl, hcount .double rfl, hcount .float rfl, hcount .signed rfl,
    hcount .unsigned rfl, hcount .char rfl, hcount .int rfl]

theorem pointer_of_uncounted {t : Token} (h : t.uncounted = true) : t.pointer = false := by
  cases t <;> first | rfl | cases h

section

variable {types : Nat → ScopeType} {addressed : CString → Bool}

theorem reduceTypeList_withoutFirst {tokens : List Token} (h : ∀ t ∈ tokens, t.uncounted = true)
    (l : List DeclNode) (s : Scopes) : reduceTypeList types addressed (withoutFirst tokens l) s =
      reduceTypeList types addressed l s := by
  cases l with
  | nil => rfl
  | cons d l =>
    cases d with
    | typeSpecifier t =>
      rw [withoutFirst]
      split
      · next ht =>
        have hleading : leading (.typeSpecifier t :: l) = t :: leading l := by
          rw [leading, if_neg (by rw [pointer_of_uncounted (h t ht)]; decide)]
        have hbehind : behind (.typeSpecifier t :: l) = behind l := by
          rw [behind, hleading]
          rfl
        rw [reduceTypeList, reduceTypeList, hleading, hbehind, specifiedType_cons (h t ht)]
      · rfl
    | _ => rfl

/-- A type node that `reduce_type_list` makes or finds. -/
def ComplexType.found : ComplexType → Bool
  | reference _ referenced _ => referenced.found
  | array .. => false
  | _ => true

theorem taggedRound_next {node : Nat} {id : CString} {defined : Bool} {d : DeclNode} {cg : CgType}
    {st st' : Found} {s s' : Scopes}
    (h : taggedRound types addressed node id defined d cg st s = some (.next st' s')) :
    ∃ n, st'.complexType = .node n := by
  rw [taggedRound] at h
  split at h
  · obtain ⟨s'', -, heq⟩ := Option.map_eq_some_iff.mp h
    cases heq
    exact ⟨node, rfl⟩
  · split at h
    · next n _ =>
      cases h
      exact ⟨n, rfl⟩
    · cases h

theorem taggedRound_done {node : Nat} {id : CString} {defined : Bool} {d : DeclNode} {cg : CgType}
    {st : Found} {s : Scopes} {type : TypePair}
    (h : taggedRound types addressed node id defined d cg st s = some (.done type)) :
    type.2 = .null := by
  rw [taggedRound] at h
  split at h
  · obtain ⟨s'', -, heq⟩ := Option.map_eq_some_iff.mp h
    cases heq
  · split at h
    · cases h
    · cases h
      rfl

theorem named_found (n : Nat) (cg : CgType) : (named types n cg).2.found = true := by
  rw [named]
  split <;> rfl

theorem reduceRound_next {st st' : Found} {d : DeclNode} {s s' : Scopes}
    (hst : st.complexType.found = true)
    (h : reduceRound types addressed st d s = some (.next st' s')) :
    st'.complexType.found = true := by
  cases d with
  | typeSpecifier t =>
    rw [reduceRound] at h
    split at h
    · cases h
      exact hst
    · split at h
      · cases h
      · cases h
        exact hst
  | identifier id =>
    rw [reduceRound] at h
    split at h
    · cases h
    · split at h
      · cases h
        exact named_found _ _
      · split at h
        · cases h
          rfl
        · split at h
          · cases h
            rfl
          · split at h
            · cases h
            · cases h
              rfl
  | structTypeDecl node id fields =>
    obtain ⟨n, hn⟩ := taggedRound_next h
    rw [hn]
    rfl
  | enumTypeDecl node id enums =>
    obtain ⟨n, hn⟩ := taggedRound_next h
    rw [hn]
    rfl
  | _ => cases h

theorem reduceRound_done {st : Found} {d : DeclNode} {s : Scopes} {type : TypePair}
    (h : reduceRound types addressed st d s = some (.done type)) : type.2 = .null := by
  cases d with
  | typeSpecifier t =>
    rw [reduceRound] at h
    split at h
    · cases h
    · split at h
      · cases h
        rfl
      · cases h
  | identifier id =>
    rw [reduceRound] at h
    split at h
    · cases h
      rfl
    · split at h
      · cases h
      · split at h
        · cases h
        · split at h
          · cases h
          · split at h
            · cases h
            · cases h
  | structTypeDecl node id fields => exact taggedRound_done h
  | enumTypeDecl node id enums => exact taggedRound_done h
  | _ =>
    cases h
    rfl

theorem reduceBehind_found {st : Found} (hst : st.complexType.found = true) {l : List DeclNode}
    {s : Scopes} {type : TypePair} (h : reduceBehind types addressed st l s = some type) :
    type.2.found = true := by
  induction l generalizing st s with
  | nil =>
    cases h
    exact hst
  | cons d l ih =>
    rw [reduceBehind] at h
    split at h
    · next hround => exact ih (reduceRound_next hst hround) h
    · next hround =>
      cases h
      rw [reduceRound_done hround]
      rfl
    · cases h

theorem reduceTypeList_found {l : List DeclNode} {s : Scopes} {type : TypePair}
    (h : reduceTypeList types addressed l s = some type) : type.2.found = true := by
  rw [reduceTypeList] at h
  split at h
  · cases h
    rfl
  · exact reduceBehind_found (by rfl) h

/-- Pointers make references.  Behind a type `const` between them is an error. -/
theorem reduceBehind_pointers {tokens : List Token}
    (h : ∀ t ∈ tokens, t.pointer = true ∨ t = .const) {typeFound : Bool} {cg : CgType}
    {c : ComplexType} {k : Bool} {s : Scopes} :
    (∃ cg' c' k', reduceBehind types addressed ⟨typeFound, .p, .reference cg c k⟩
        (tokens.map .typeSpecifier) s = some (.p, .reference cg' c' k')) ∨
      typeFound = true ∧ reduceBehind types addressed ⟨typeFound, .p, .reference cg c k⟩
        (tokens.map .typeSpecifier) s = some (.err, .null) := by
  induction tokens generalizing cg c k with
  | nil => exact .inl ⟨cg, c, k, rfl⟩
  | cons t tokens ih =>
    have htail := fun t' ht' => h t' (List.mem_cons_of_mem t ht')
    rw [List.map_cons, reduceBehind, reduceRound]
    by_cases hpointer : t.pointer = true
    · rw [if_pos hpointer]
      exact ih htail
    · rw [if_neg hpointer]
      cases typeFound with
      | true => exact .inr ⟨rfl, rfl⟩
      | false => exact ih htail

/-- A declarator in parentheses makes the elements pointers. -/
theorem reduceTypeList_pointers {spec : PointerSpec} (h : spec.tokens ≠ []) (s : Scopes) :
    ∃ cg c k, reduceTypeList types addressed spec.nodes s = some (.p, .reference cg c k) := by
  obtain ⟨tokens, hpointers, hfirst⟩ := spec
  cases tokens with
  | nil => exact absurd rfl h
  | cons t tokens =>
    have ht : t.pointer = true := hfirst t rfl
    have hleading : leading (.typeSpecifier t :: tokens.map .typeSpecifier) = [] := by
      rw [leading, if_pos ht]
    rw [PointerSpec.nodes, List.map_cons, reduceTypeList, behind, hleading]
    show ∃ cg c k, reduceBehind types addressed ⟨false, .err, .null⟩
      (.typeSpecifier t :: tokens.map .typeSpecifier) s = some (.p, .reference cg c k)
    rw [reduceBehind, reduceRound, if_pos ht]
    exact (reduceBehind_pointers fun t' ht' =>
      hpointers t' (List.mem_cons_of_mem t ht')).resolve_right fun h => nomatch h.1

theorem reduceTypeList_keywords {l : List DeclNode} (h : behind l = []) (s : Scopes) :
    reduceTypeList types addressed l s =
      some ((specifiedType (leading l) false).getD .err, .null) := by
  have hmore : (!(behind l).isEmpty) = false := by
    rw [h]
    rfl
  rw [reduceTypeList, hmore, h]
  cases specifiedType (leading l) false <;> rfl

theorem keepsScalar_iff {l : List DeclNode} {cg : CgType} (hcg : stringScalar l = some cg)
    (s : Scopes) : KeepsScalar types addressed cg l s ↔
      reduceTypeList types addressed l s = some (cg, .null) := by
  rw [KeepsScalar]
  by_cases hbehind : behind l = []
  · rw [if_pos hbehind, reduceTypeList_keywords hbehind, keywords_of_stringScalar hbehind hcg,
      Option.getD_some]
    by_cases halone : SignedAlone (leading l)
    · rw [if_pos halone]
      refine iff_of_false (not_not_intro halone) fun h => ?_
      exact ne_err_of_stringScalar hcg (Prod.mk.inj (Option.some.inj h)).1.symm
    · rw [if_neg halone]
      exact iff_of_true halone rfl
  · rw [if_neg hbehind]

end

/-! ## Types as they are said -/

theorem described_of_ne {cg : CgType} {c : ComplexType} (h : c ≠ .null) :
    described (cg, c) = .given (.complex c) := by
  cases c with
  | null => exact absurd rfl h
  | _ => cases cg <;> rfl

theorem described_scalar {cg : CgType} (h : cg ≠ .err) :
    described (cg, .null) = .given (.scalar cg) := by
  cases cg with
  | err => exact absurd rfl h
  | _ => rfl

theorem described_eq_scalar_iff {type : TypePair} {cg : CgType} (hcg : cg ≠ .err) :
    described type = .given (.scalar cg) ↔ type = (cg, .null) := by
  obtain ⟨cg', c⟩ := type
  constructor
  · intro h
    by_cases hc : c = .null
    · subst hc
      by_cases hcg' : cg' = .err
      · subst hcg'
        cases h
      · rw [described_scalar hcg'] at h
        cases h
        rfl
    · rw [described_of_ne hc] at h
      cases h
  · rintro ⟨⟩
    exact described_scalar hcg

section

variable {types : Nat → ScopeType} {addressed : CString → Bool}

theorem variablePair_eq_iff {l : List DeclNode} {s : Scopes} {type : TypePair}
    (h : type ≠ (.err, .null)) : variablePair types addressed l s = .given type ↔
      reduceTypeList types addressed l s = some type := by
  rw [variablePair, reducedPair]
  cases reduceTypeList types addressed l s with
  | none => exact iff_of_false (fun heq => by cases heq) fun heq => by cases heq
  | some type' =>
    show (if type' = (.err, .null) then Outcome.refused else .given type') = .given type ↔ _
    split_ifs with herr
    · refine iff_of_false (fun heq => by cases heq) fun heq => h ?_
      rw [← Option.some.inj heq, herr]
    · rw [Outcome.given.injEq, Option.some.injEq]

theorem described_given {type : TypePair} (h : type ≠ (.err, .null)) :
    ∃ d, described type = .given d := by
  obtain ⟨cg, c⟩ := type
  by_cases hc : c = .null
  · subst hc
    exact ⟨_, described_scalar fun heq => h (by rw [heq])⟩
  · exact ⟨_, described_of_ne hc⟩

theorem variablePair_described_iff {l : List DeclNode} {s : Scopes} {d : DeclaredType} :
    (variablePair types addressed l s).bind described = .given d ↔
      ∃ type ∈ reduceTypeList types addressed l s, described type = .given d := by
  rw [variablePair, reducedPair]
  cases reduceTypeList types addressed l s with
  | none =>
    refine iff_of_false (fun heq => by cases heq) fun hexists => ?_
    obtain ⟨type, htype, -⟩ := hexists
    cases htype
  | some type =>
    show (if type = (.err, .null) then Outcome.refused else .given type).bind described =
      .given d ↔ _
    by_cases herr : type = (.err, .null)
    · rw [if_pos herr]
      refine iff_of_false (fun heq => by cases heq) ?_
      rintro ⟨type', htype', heq⟩
      cases htype'
      rw [herr] at heq
      cases heq
    · rw [if_neg herr]
      exact ⟨fun heq => ⟨type, rfl, heq⟩, fun ⟨type', htype', heq⟩ => by
        cases htype'
        exact heq⟩

theorem variablePair_withoutFirst {tokens : List Token} (h : ∀ t ∈ tokens, t.uncounted = true)
    (l : List DeclNode) (s : Scopes) : variablePair types addressed (withoutFirst tokens l) s =
      variablePair types addressed l s := by
  rw [variablePair, variablePair, reducedPair, reducedPair, reduceTypeList_withoutFirst h]

/-- A field without a type string has the type of a variable. -/
theorem declaredAlike_reducedPair (l : List DeclNode) (s : Scopes) :
    DeclaredAlike (reducedPair types addressed l s) (variablePair types addressed l s) := by
  rw [variablePair, reducedPair]
  cases reduceTypeList types addressed l s with
  | none => trivial
  | some type =>
    by_cases herr : type = (.err, .null)
    · rw [herr]
      trivial
    · show DeclaredAlike (.given type) (if type = (.err, .null) then .refused else .given type)
      rw [if_neg herr, DeclaredAlike]
      split
      · assumption
      · trivial
      · trivial
      · next hfault =>
        obtain ⟨cg, c⟩ := type
        by_cases hc : c = .null
        · subst hc
          rw [Outcome.bind, described_scalar fun heq => herr (by rw [heq])] at hfault
          cases hfault
        · rw [Outcome.bind, described_of_ne hc] at hfault
          cases hfault

theorem declaredAlike_given {type : DeclaredType} {field declared : Outcome TypePair}
    (h : field.bind described = .given type) :
    DeclaredAlike field declared ↔ declared.bind described = .given type := by
  rw [DeclaredAlike, h]

/-- A field with the type string of a scalar type. -/
theorem declaredAlike_scalar {l : List DeclNode} {cg : CgType} (herr : cg ≠ .err)
    (s : Scopes) : DeclaredAlike (.given (cg, .null)) (variablePair types addressed l s) ↔
      reduceTypeList types addressed l s = some (cg, .null) := by
  have hfield : (Outcome.given (cg, ComplexType.null)).bind described = .given (.scalar cg) :=
    described_scalar herr
  rw [declaredAlike_given hfield,
    ← variablePair_eq_iff fun heq => herr (Prod.mk.inj heq).1]
  cases hpair : variablePair types addressed l s with
  | given type =>
    rw [Outcome.given.injEq]
    exact described_eq_scalar_iff herr
  | _ => exact iff_of_false (fun heq => by cases heq) fun heq => by cases heq

theorem elementPair_eq_iff {l : List DeclNode} {cg : CgType} (hcg : cg ≠ .err)
    (spec : PointerSpec) (s : Scopes) :
    elementPair types addressed l spec.nodes s = .given (cg, .null) ↔
      spec.tokens = [] ∧ reduceTypeList types addressed l s = some (cg, .null) := by
  have herr : ((cg, .null) : TypePair) ≠ (.err, .null) := fun heq => hcg (Prod.mk.inj heq).1
  rw [elementPair]
  by_cases htokens : spec.tokens = []
  · have hnodes : spec.nodes = [] := by rw [PointerSpec.nodes, htokens, List.map_nil]
    rw [hnodes, List.isEmpty_nil, if_pos rfl, variablePair_withoutFirst (by decide),
      variablePair_eq_iff herr, and_iff_right htokens]
  · have hnodes : spec.nodes.isEmpty = false := by
      rw [PointerSpec.nodes, List.isEmpty_map, List.isEmpty_eq_false_iff]
      exact htokens
    rw [hnodes, if_neg Bool.false_ne_true, variablePair_eq_iff herr]
    obtain ⟨cg', c, k, hreduce⟩ := reduceTypeList_pointers htokens s
    rw [hreduce]
    exact iff_of_false (fun heq => by cases heq) fun h => htokens h.1

end

end Cod
end FFS
