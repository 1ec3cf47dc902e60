import FFS.Server.Korvo

/-!
# The texts of the web format server

Where a body has a member in plain text, the server finds its value.  The names of files are
different for different strings, IDs and numbers, unless they are cut, and then no file has one.
-/

namespace FFS

open Machine

/-! ## Members -/

/-- A body has a quoted key first where it is a key, and then a text, with nothing between them
but blanks, tabs and the colon. -/
def MemberAt (key text behind body : List UInt8) : Prop :=
  ∃ before gap, body = before ++ (quoted key ++ gap ++ text ++ behind) ∧
    (∀ c ∈ gap, isGap c = true) ∧ ∀ i < before.length, ¬ quoted key <+: body.drop i

variable {key text behind body s : List UInt8}

theorem strstr_append {pattern before rest : List UInt8} (hpattern : pattern <+: rest)
    (hne : pattern ≠ [])
    (hfirst : ∀ i < before.length, ¬ pattern <+: (before ++ rest).drop i) :
    strstr pattern (before ++ rest) = some rest := by
  induction before with
  | nil =>
    cases rest with
    | nil => exact absurd (List.prefix_nil.mp hpattern) hne
    | cons c rest =>
      rw [List.nil_append, strstr, if_pos (List.isPrefixOf_iff_prefix.mpr hpattern)]
  | cons c before ih =>
    have hhere : ¬ pattern <+: c :: (before ++ rest) := hfirst 0 (Nat.zero_lt_succ _)
    rw [List.cons_append, strstr]
    rw [if_neg fun h => hhere (List.isPrefixOf_iff_prefix.mp h)]
    exact ih fun i hi => hfirst (i + 1) (Nat.succ_lt_succ hi)

theorem dropWhile_append_of_forall {p : UInt8 → Bool} {gap rest : List UInt8}
    (hgap : ∀ c ∈ gap, p c = true) (hrest : ∀ c ∈ rest.head?, p c = false) :
    (gap ++ rest).dropWhile p = rest := by
  rw [List.dropWhile_append_of_pos hgap]
  cases rest with
  | nil => rfl
  | cons c rest =>
    rw [List.dropWhile_cons_of_neg]
    rw [hrest c rfl]
    exact Bool.false_ne_true

theorem jsonValue_of_member (h : MemberAt key text behind body) {c : UInt8} {rest : List UInt8}
    (htext : text = c :: rest) (hc : isGap c = false) :
    jsonValue body key = some (text ++ behind) := by
  obtain ⟨before, gap, rfl, hgap, hfirst⟩ := h
  have hprefix : quoted key <+: quoted key ++ gap ++ text ++ behind :=
    ⟨gap ++ text ++ behind, by simp only [List.append_assoc]⟩
  unfold jsonValue
  rw [strstr_append hprefix (List.cons_ne_nil _ _) hfirst]
  refine congrArg some ?_
  rw [List.append_assoc, List.append_assoc, List.drop_left]
  refine dropWhile_append_of_forall hgap fun d hd => ?_
  rw [htext, List.cons_append, List.head?_cons, Option.mem_some_iff] at hd
  rw [← hd, hc]

/-- A string that is written as it is. -/
theorem jsonGetString_of_member (h : MemberAt key (quoted s) behind body) (hs : chr '"' ∉ s) :
    jsonGetString body key = some s := by
  unfold jsonGetString
  rw [jsonValue_of_member h rfl (by decide)]
  have hquote : (s ++ [chr '"'] ++ behind).takeWhile (· ≠ chr '"') = s := by
    rw [List.append_assoc, List.takeWhile_append_of_pos]
    · simp
    · intro b hb
      exact decide_eq_true fun heq => hs (heq ▸ hb)
  have hclosed : (strchr (s ++ [chr '"'] ++ behind) (chr '"')).isSome = true := by
    unfold strchr
    have hne : (s ++ [chr '"'] ++ behind).dropWhile (· ≠ chr '"') ≠ [] := by
      rw [Ne, List.dropWhile_eq_nil_iff]
      intro hall
      have hquoted := hall (chr '"') (by simp)
      simp at hquoted
    cases hdrop : (s ++ [chr '"'] ++ behind).dropWhile (· ≠ chr '"') with
    | nil => exact absurd hdrop hne
    | cons c rest => rfl
  obtain ⟨rest, hrest⟩ := Option.isSome_iff_exists.mp hclosed
  show (if chr '"' ≠ chr '"' then none else (strchr (s ++ [chr '"'] ++ behind) (chr '"')).bind
    fun _ => some ((s ++ [chr '"'] ++ behind).takeWhile (· ≠ chr '"'))) = some s
  rw [if_neg (fun h => h rfl), hrest, Option.bind_some, hquote]

/-- The values of an `int`. -/
def IsInt (n : Int) : Prop := -2 ^ 31 ≤ n ∧ n < 2 ^ 31

instance (n : Int) : Decidable (IsInt n) := inferInstanceAs (Decidable (_ ∧ _))

theorem bmod_of_isInt {n : Int} (h : IsInt n) : n.bmod (2 ^ 32) = n := by
  unfold IsInt at h
  rw [Int.bmod_eq_of_le] <;> omega

theorem clampLong_of_isInt {n : Int} (h : IsInt n) : clampLong n = n := by
  unfold IsInt at h
  unfold clampLong
  omega

theorem atoi_decimal {n : Int} (hn : IsInt n) {rest : List UInt8} (h : EndsNumber rest) :
    atoi (decimal n ++ rest) = n := by
  rw [atoi, strtol_decimal n h, clampLong_of_isInt hn, bmod_of_isInt hn]

theorem decimal_head (n : Int) : ∃ c rest, decimal n = c :: rest ∧ isGap c = false := by
  unfold decimal
  by_cases hneg : n < 0
  · rw [if_pos hneg]
    exact ⟨_, _, rfl, by decide⟩
  · obtain ⟨d, rest, hd, hdigits⟩ := digits_head (Nat.lt_succ_self n.natAbs)
    rw [if_neg hneg]
    have hgap : ∀ d < 10, isGap (digitByte d) = false := by decide
    exact ⟨_, _, hdigits, hgap d hd⟩

theorem jsonGetInt_of_member {n : Int} (h : MemberAt key (decimal n) behind body) (hn : IsInt n)
    (hbehind : EndsNumber behind) : jsonGetInt body key = n := by
  obtain ⟨c, rest, hdecimal, hc⟩ := decimal_head n
  rw [jsonGetInt, jsonValue_of_member h hdecimal hc]
  exact atoi_decimal hn hbehind

/-! ## Hexadecimal texts -/

theorem hexDigit_spec : ∀ d < 16, hexValue (hexDigit d) = some d ∧ isUrlSafe (hexDigit d) = true := by
  decide

theorem hexDecode_hexEncode (data : List UInt8) : hexDecode (hexEncode data) = some data := by
  induction data with
  | nil => rfl
  | cons b data ih =>
    have hb := b.toNat_lt
    have hhigh := (hexDigit_spec (b.toNat / 16) (by omega)).1
    have hlow := (hexDigit_spec (b.toNat % 16) (by omega)).1
    have hbyte : UInt8.ofNat (b.toNat / 16 * 16 + b.toNat % 16) = b := by
      rw [Nat.div_add_mod' b.toNat 16]
      exact UInt8.ofNat_toNat
    rw [hexEncode, List.flatMap_cons]
    show (hexValue _).bind (fun hi => (hexValue _).bind fun lo =>
      (hexDecode (hexEncode data)).bind fun rest => some (UInt8.ofNat (hi * 16 + lo) :: rest)) = _
    rw [hhigh, Option.bind_some, hlow, Option.bind_some, ih, Option.bind_some, hbyte]

theorem hexEncode_inj {data data' : List UInt8} (h : hexEncode data = hexEncode data') :
    data = data' := by
  have hdecode := hexDecode_hexEncode data
  rw [h, hexDecode_hexEncode] at hdecode
  exact (Option.some.inj hdecode).symm

theorem length_hexEncode (data : List UInt8) : (hexEncode data).length = 2 * data.length := by
  induction data with
  | nil => rfl
  | cons b data ih =>
    rw [hexEncode, List.flatMap_cons, List.length_append, List.length_cons]
    show 2 + (hexEncode data).length = 2 * (data.length + 1)
    omega

theorem hexDecode_length {t data : List UInt8} (h : hexDecode t = some data) :
    t.length = 2 * data.length := by
  induction t using hexDecode.induct generalizing data with
  | case1 =>
    cases h
    rfl
  | case2 => cases h
  | case3 hi lo rest ih =>
    rw [hexDecode] at h
    obtain ⟨x, -, h⟩ := Option.bind_eq_some_iff.mp h
    obtain ⟨y, -, h⟩ := Option.bind_eq_some_iff.mp h
    obtain ⟨ds, hds, h⟩ := Option.bind_eq_some_iff.mp h
    cases h
    rw [List.length_cons, List.length_cons, List.length_cons, ih hds]
    omega

/-! ## Names of files -/

/-- The name of a string that is not cut. -/
def urlSafe (s : List UInt8) : List UInt8 := s.flatMap urlSafeByte

theorem length_urlSafeByte (c : UInt8) :
    1 ≤ (urlSafeByte c).length ∧ (urlSafeByte c).length ≤ 3 := by
  unfold urlSafeByte
  split <;> simp

/-- A name is cut only where it is too long for a file. -/
theorem urlSafeEncode_eq (out s : List UInt8) :
    urlSafeEncode 512 out s = out ++ urlSafe s ∨
      (255 < (urlSafeEncode 512 out s).length ∧ 255 < (out ++ urlSafe s).length) := by
  induction s generalizing out with
  | nil =>
    left
    rw [urlSafe, List.flatMap_nil, List.append_nil]
    rfl
  | cons c s ih =>
    rw [urlSafeEncode]
    by_cases hroom : out.length < 512 - 5
    · have hnext := ih (out ++ urlSafeByte c)
      rw [if_pos hroom]
      rw [List.append_assoc] at hnext
      exact hnext
    · rw [if_neg hroom]
      right
      rw [List.length_append]
      omega

theorem urlSafeByte_cancel {c d : UInt8} {xs ys : List UInt8}
    (h : urlSafeByte c ++ xs = urlSafeByte d ++ ys) : c = d ∧ xs = ys := by
  have hpercent : isUrlSafe (chr '%') = false := by decide
  unfold urlSafeByte at h
  by_cases hc : isUrlSafe c = true
  · rw [if_pos hc] at h
    by_cases hd : isUrlSafe d = true
    · rw [if_pos hd] at h
      exact List.cons.inj h
    · rw [if_neg hd] at h
      rw [(List.cons.inj h).1, hpercent] at hc
      cases hc
  · rw [if_neg hc] at h
    by_cases hd : isUrlSafe d = true
    · rw [if_pos hd] at h
      rw [← (List.cons.inj h).1, hpercent] at hd
      cases hd
    · rw [if_neg hd] at h
      obtain ⟨-, h⟩ := List.cons.inj h
      obtain ⟨hhigh, h⟩ := List.cons.inj h
      obtain ⟨hlow, hrest⟩ := List.cons.inj h
      have hpair : hexEncode [c] = hexEncode [d] := by
        show [hexDigit (c.toNat / 16), hexDigit (c.toNat % 16)] =
          [hexDigit (d.toNat / 16), hexDigit (d.toNat % 16)]
        rw [hhigh, hlow]
      exact ⟨List.singleton_inj.mp (hexEncode_inj hpair), hrest⟩

/-- Strings that differ have names that differ. -/
theorem urlSafe_inj {s s' : List UInt8} (h : urlSafe s = urlSafe s') : s = s' := by
  induction s generalizing s' with
  | nil =>
    cases s' with
    | nil => rfl
    | cons d s' =>
      have hlength := congrArg List.length h
      have hbyte := (length_urlSafeByte d).1
      rw [urlSafe, urlSafe, List.flatMap_cons, List.length_append, List.flatMap_nil,
        List.length_nil] at hlength
      omega
  | cons c s ih =>
    cases s' with
    | nil =>
      have hlength := congrArg List.length h
      have hbyte := (length_urlSafeByte c).1
      rw [urlSafe, urlSafe, List.flatMap_cons, List.length_append, List.flatMap_nil,
        List.length_nil] at hlength
      omega
    | cons d s' =>
      rw [urlSafe, urlSafe, List.flatMap_cons, List.flatMap_cons] at h
      obtain ⟨rfl, hrest⟩ := urlSafeByte_cancel h
      rw [ih hrest]

/-- No `%` of a string has two hexadecimal digits behind it. -/
def NoEscape (s : List UInt8) : Prop :=
  ∀ before hi lo rest, s = before ++ chr '%' :: hi :: lo :: rest → hexDecode [hi, lo] = none

theorem NoEscape.tail {c : UInt8} (h : NoEscape (c :: s)) : NoEscape s :=
  fun before hi lo rest heq => h (c :: before) hi lo rest (congrArg (c :: ·) heq)

theorem urlSafeDecode_eq (room : Nat) (h : NoEscape s) : urlSafeDecode room s = s.take room := by
  induction room generalizing s with
  | zero => rw [urlSafeDecode, List.take_zero]
  | succ room ih =>
    cases s with
    | nil => rfl
    | cons c enc =>
      have hrest := ih h.tail
      rw [List.take_succ_cons, ← hrest]
      cases enc with
      | nil => rfl
      | cons hi enc =>
        cases enc with
        | nil => rfl
        | cons lo rest =>
          have hnone : (if c = chr '%' then hexDecode [hi, lo] else none) = none := by
            by_cases hc : c = chr '%'
            · rw [if_pos hc]
              exact h [] hi lo rest (by rw [hc, List.nil_append])
            · rw [if_neg hc]
          rw [urlSafeDecode, hnone]

/-- A name of digits and letters is the name of a file. -/
theorem isFileName_of_safe {name : List UInt8} (hne : name ≠ []) (hlength : name.length ≤ 255)
    (hdots : ∀ c ∈ name, c ≠ chr '.' ∧ c ≠ chr '/') : isFileName name = true := by
  have hdot : name ≠ bytesOf "." := by
    intro heq
    exact (hdots (chr '.') (heq ▸ List.mem_singleton.mpr rfl)).1 rfl
  have hdotdot : name ≠ bytesOf ".." := by
    intro heq
    exact (hdots (chr '.') (heq ▸ List.mem_cons_self)).1 rfl
  have hslash : name.contains (chr '/') = false := by
    rw [List.contains_eq_mem, decide_eq_false_iff_not]
    exact fun hmem => (hdots _ hmem).2 rfl
  unfold isFileName
  simp only [hne, hdot, hdotdot, hslash, hlength, ne_eq, not_false_eq_true, decide_true,
    Bool.not_false, Bool.and_self]

theorem isFileName_hexEncode {data : List UInt8} (hne : data ≠ []) (h : data.length ≤ 127) :
    isFileName (hexEncode data) = true := by
  have hlength := length_hexEncode data
  have hpos := List.length_pos_iff.mpr hne
  refine isFileName_of_safe (fun hnil => ?_) (by omega) fun c hc => ?_
  · rw [hnil, List.length_nil] at hlength
    omega
  · obtain ⟨b, -, hc⟩ := List.mem_flatMap.mp hc
    have hb := b.toNat_lt
    have hhex : ∀ d < 16, hexDigit d ≠ chr '.' ∧ hexDigit d ≠ chr '/' := by decide
    simp only [List.mem_cons, List.not_mem_nil, or_false] at hc
    cases hc with
    | inl hhigh => exact hhigh ▸ hhex _ (by omega)
    | inr hlow => exact hlow ▸ hhex _ (by omega)

theorem digits_bounds {bound n k : Nat} (hn : n < 10 ^ k) :
    (digits bound n).length ≤ max k 1 ∧
      ∀ c ∈ digits bound n, c ≠ chr '.' ∧ c ≠ chr '/' := by
  have hdigit : ∀ d < 10, digitByte d ≠ chr '.' ∧ digitByte d ≠ chr '/' := by decide
  induction bound generalizing n k with
  | zero => exact ⟨Nat.zero_le _, fun c hc => nomatch hc⟩
  | succ bound ih =>
    rw [digits]
    have hlast := hdigit (n % 10) (Nat.mod_lt n (by decide))
    by_cases hsmall : n / 10 = 0
    · rw [if_pos hsmall]
      refine ⟨?_, fun c hc => ?_⟩
      · show 1 ≤ max k 1
        omega
      · rw [List.mem_singleton.mp hc]
        exact hlast
    · rw [if_neg hsmall]
      cases k with
      | zero => omega
      | succ k =>
        have hk : n / 10 < 10 ^ k := by
          rw [Nat.pow_succ] at hn
          omega
        obtain ⟨hlength, hall⟩ := ih hk
        have hpos : 0 < k := by
          cases k with
          | zero => omega
          | succ k => exact Nat.succ_pos k
        refine ⟨?_, fun c hc => ?_⟩
        · rw [List.length_append, List.length_singleton]
          omega
        · cases List.mem_append.mp hc with
          | inl hfront => exact hall c hfront
          | inr hend =>
            rw [List.mem_singleton.mp hend]
            exact hlast

theorem isFileName_decimal {n : Int} (h : IsInt n) : isFileName (decimal n) = true := by
  unfold IsInt at h
  obtain ⟨hlength, hall⟩ := @digits_bounds (n.natAbs + 1) n.natAbs 10 (by omega)
  obtain ⟨d, rest, -, hdigits⟩ := digits_head (Nat.lt_succ_self n.natAbs)
  unfold decimal
  by_cases hneg : n < 0
  · rw [if_pos hneg]
    refine isFileName_of_safe (List.cons_ne_nil _ _) ?_ fun c hc => ?_
    · rw [List.length_cons]
      omega
    · cases List.mem_cons.mp hc with
      | inl hhead =>
        rw [hhead]
        decide
      | inr htail => exact hall c htail
  · rw [if_neg hneg]
    refine isFileName_of_safe ?_ (by omega) hall
    rw [hdigits]
    exact List.cons_ne_nil _ _

/-! ## Texts of numbers -/

/-- A printed number is a JSON text of it. -/
theorem text_decimal (n : Int) : Json.Text (.number (decimal n)) (decimal n) := by
  have hlt := Nat.lt_succ_self n.natAbs
  obtain ⟨d, rest, -, hdigits⟩ := digits_head hlt
  have hint : Json.Digits (digits (n.natAbs + 1) n.natAbs) := by
    refine ⟨?_, digits_all⟩
    rw [hdigits]
    exact List.cons_ne_nil _ _
  have hzero : (digits (n.natAbs + 1) n.natAbs).head? = some (chr '0') →
      (digits (n.natAbs + 1) n.natAbs).length = 1 := by
    intro hhead
    rw [digits_leading hlt hhead]
    rfl
  refine .number ?_
  unfold decimal
  by_cases hneg : n < 0
  · rw [if_pos hneg]
    refine ⟨[chr '-'], _, [], [], ?_, .inr rfl, hint, hzero, .inl rfl, .inl rfl⟩
    rw [List.append_nil, List.append_nil, List.singleton_append]
  · rw [if_neg hneg]
    refine ⟨[], _, [], [], ?_, .inl rfl, hint, hzero, .inl rfl, .inl rfl⟩
    rw [List.append_nil, List.append_nil, List.nil_append]

end FFS
