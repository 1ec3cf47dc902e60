import FFS.FM.ContextStore

/-!
# Format IDs

An ID of version 2 carries the length of the representation it was made from, in units of 4.
`FMformat_from_ID` and `get_local_format_IOcontext` compare a packed field of an ID before
they compare the whole ID, and both take an ID that is the beginning of the one they look for.
-/

namespace FFS

open Machine

/-! ## What an ID says -/

/-- `FMformatID_len` -/
def formatIDLen (buffer : List UInt8) : Option Nat := idLength (versionOfFormatID buffer)

/-- `get_rep_len_format_ID` -/
def getRepLenFormatID (id : List UInt8) : Nat :=
  if versionOfFormatID id = 2 then
    (beValue ((id.drop 2).take 2) + ((id[1]?).map UInt8.toNat).getD 0 * 2 ^ 16) * 4
  else 0

/-- The ID is one of version 2 and of 12 bytes, and tells the length of a representation. -/
structure CarriesLength (id : List UInt8) (length : Nat) : Prop where
  version : versionOfFormatID id = 2
  repLen : getRepLenFormatID id = length
  idLen : formatIDLen id = some 12

theorem beBytes_eq_zeros_iff {n : Nat} (h : n < 2 ^ 32) : beBytes 4 n = [0, 0, 0, 0] ↔ n = 0 := by
  have hzero : beBytes 4 0 = [0, 0, 0, 0] := rfl
  constructor
  · intro heq
    have hmod := beBytes_inj (heq.trans hzero.symm)
    omega
  · rintro rfl
    exact hzero

section
variable {hash : List UInt8 → UInt32 × UInt32} {rep id : List UInt8} {n : Nat}

theorem generateFormat3ServerID_eq_some (hn : recordedRepLength rep = some n)
    (h : generateFormat3ServerID hash rep = some id) :
    id = [2, UInt8.ofNat (n / 2 ^ 18)] ++ beBytes 2 (n / 4) ++
      beBytes 4 (hash (rep.take n)).1.toNat ++ beBytes 4 (hash (rep.take n)).2.toNat := by
  rw [generateFormat3ServerID, hn] at h
  exact (Option.some.inj h).symm

/-- An ID whose first hash is zero looks like one of version 0. -/
theorem versionOfFormatID_generated (hn : recordedRepLength rep = some n)
    (h : generateFormat3ServerID hash rep = some id) :
    versionOfFormatID id = if (hash (rep.take n)).1 = 0 then 0 else 2 := by
  have hid := generateFormat3ServerID_eq_some hn h
  have hhash : (id.drop 4).take 4 = beBytes 4 (hash (rep.take n)).1.toNat := by
    rw [hid, List.append_assoc, List.drop_left' (by simp), List.take_left' (by simp)]
  have hzero : (hash (rep.take n)).1.toNat = 0 ↔ (hash (rep.take n)).1 = 0 :=
    ⟨fun heq => UInt32.toNat_inj.mp heq, fun heq => by rw [heq]; rfl⟩
  have hhead : id.head? = some 2 := by rw [hid]; rfl
  rw [versionOfFormatID, hhash, hhead]
  refine if_congr ?_ rfl rfl
  rw [beBytes_eq_zeros_iff (UInt32.toNat_lt _), hzero]

theorem repLen_generated (hn : recordedRepLength rep = some n)
    (h : generateFormat3ServerID hash rep = some id) (hfour : n % 4 = 0) :
    (beValue ((id.drop 2).take 2) + ((id[1]?).map UInt8.toNat).getD 0 * 2 ^ 16) * 4 =
      n % 2 ^ 26 := by
  have hid := generateFormat3ServerID_eq_some hn h
  have htwo : (id.drop 2).take 2 = beBytes 2 (n / 4) := by
    rw [hid, List.append_assoc, List.append_assoc, List.drop_left' (by simp),
      List.take_left' (by simp)]
  have htop : id[1]? = some (UInt8.ofNat (n / 2 ^ 18)) := by rw [hid]; rfl
  rw [htwo, htop, beValue_beBytes, Option.map_some, Option.getD_some, UInt8.toNat_ofNat']
  omega

/-- A generated ID carries the length unless the first hash is zero or the length is 64 MiB. -/
theorem generated_carriesLength_iff (hn : recordedRepLength rep = some n)
    (h : generateFormat3ServerID hash rep = some id) (hfour : n % 4 = 0) (hle : n ≤ 2 ^ 26) :
    CarriesLength id n ↔ (hash (rep.take n)).1 ≠ 0 ∧ n ≠ 2 ^ 26 := by
  have hversion := versionOfFormatID_generated hn h
  constructor
  · rintro ⟨htwo, hlength, -⟩
    have hhash : (hash (rep.take n)).1 ≠ 0 := by
      intro hzero
      rw [hversion, if_pos hzero] at htwo
      cases htwo
    rw [getRepLenFormatID, if_pos htwo, repLen_generated hn h hfour] at hlength
    refine ⟨hhash, ?_⟩
    rintro rfl
    norm_num at hlength
  · rintro ⟨hhash, hne⟩
    rw [if_neg hhash] at hversion
    refine ⟨hversion, ?_, ?_⟩
    · rw [getRepLenFormatID, if_pos hversion, repLen_generated hn h hfour]
      omega
    · rw [formatIDLen, hversion]
      rfl

end

/-- The representation of a point of a name. -/
def pointRep (formatName : CString) : List UInt8 :=
  (buildServerFormatRep { top := pointFormat formatName [], subformats := [] }).getD []

theorem generated_carriesLength_iff_point : ∃ id,
    generateFormat3ServerID hashlittle2 (pointRep (cstr ['p'] (.refl false))) = some id ∧
      CarriesLength id 76 := by
  have hn : recordedRepLength (pointRep (cstr ['p'] (.refl false))) = some 76 := by decide
  have hid : (generateFormat3ServerID hashlittle2 (pointRep (cstr ['p'] (.refl false)))).isSome := by
    rw [generateFormat3ServerID, hn]
    rfl
  obtain ⟨id, hid⟩ := Option.isSome_iff_exists.mp hid
  refine ⟨id, hid, (generated_carriesLength_iff hn hid (by decide) (by decide)).mpr ⟨?_, ?_⟩⟩
  · decide +kernel
  · decide

/-- The hash of this format is zero in its first word. -/
theorem sgwqort_not_carriesLength :
    recordedRepLength (pointRep (cstr ['s', 'g', 'w', 'q', 'o', 'r', 't'] (.refl false))) = some 84 ∧
      ∃ id, generateFormat3ServerID hashlittle2
          (pointRep (cstr ['s', 'g', 'w', 'q', 'o', 'r', 't'] (.refl false))) = some id ∧
        ¬ CarriesLength id 84 := by
  have hid : (generateFormat3ServerID hashlittle2
      (pointRep (cstr ['s', 'g', 'w', 'q', 'o', 'r', 't'] (.refl false)))).any
        (fun id => versionOfFormatID id = 0) = true := by decide +kernel
  obtain ⟨id, hid, hversion⟩ := (Option.any_eq_true _ _).mp hid
  refine ⟨by decide, id, hid, fun h => ?_⟩
  have htwo := h.version
  rw [of_decide_eq_true hversion] at htwo
  cases htwo

/-! ## Searching -/

/-- The scan from the newest entry that compares the whole ID with the first `length` bytes of
the buffer. -/
def plainScan (context : FMContext) (buffer : List UInt8) (length : Nat) : Option StoredFormat :=
  context.formatList.reverse.find? fun entry => entry.serverID = buffer.take length

/-- Both functions return what the plain scan does. -/
def FindPlainly (context : FMContext) (buffer : List UInt8) (length : Nat) : Prop :=
  formatFromID context buffer = plainScan context buffer length ∧
    getLocalFormat context buffer = plainScan context buffer length

/-- An entry with an ID of another length passes the comparison, and no newer one has the ID. -/
def Shadowed (context : FMContext) (buffer : List UInt8) (length : Nat) : Prop :=
  ∃ front entry behind, context.formatList = front ++ entry :: behind ∧
    entry.serverID ≠ buffer.take length ∧ idShortcut false buffer entry.serverID = true ∧
    buffer.take entry.serverID.length = entry.serverID ∧
    ∀ e ∈ behind, e.serverID ≠ buffer.take length

theorem find?_eq_find?_iff {α : Type} {p q : α → Bool} {l : List α} : l.find? p = l.find? q ↔
    (∀ x, l.find? q = some x → p x = true) ∧ ∀ x, l.find? p = some x → q x = true := by
  constructor
  · intro h
    exact ⟨fun x hx => List.find?_some (h.trans hx), fun x hx => List.find?_some (h.symm.trans hx)⟩
  · rintro ⟨hq, hp⟩
    induction l with
    | nil => rfl
    | cons a l ih =>
      rw [List.find?_cons] at hq hp
      rw [List.find?_cons, List.find?_cons]
      cases hpa : p a with
      | true =>
        rw [hpa] at hp
        rw [hp a rfl]
      | false =>
        cases hqa : q a with
        | true =>
          rw [hqa] at hq
          rw [hq a rfl] at hpa
          cases hpa
        | false =>
          rw [hqa] at hq
          rw [hpa] at hp
          exact ih hq hp

/-- What passes with a signed identifier passes with an unsigned one. -/
theorem idShortcut_of_signed {buffer id : List UInt8} (h : idShortcut true buffer id = true) :
    idShortcut false buffer id = true := by
  unfold idShortcut at h ⊢
  generalize versionOfFormatID buffer = version at h ⊢
  match version, h with
  | 0, _ => rfl
  | 1, h =>
    simp only [Bool.and_eq_true] at h
    simpa using h.2
  | 2, h => exact h
  | 3, h => exact h
  | _ + 4, _ => rfl

theorem idShortcut_of_true {buffer id : List UInt8} (h : idShortcut true buffer id = true) :
    ∀ signedIdentifier, idShortcut signedIdentifier buffer id = true
  | true => h
  | false => idShortcut_of_signed h

theorem idShortcut_unsigned {buffer id : List UInt8} :
    ∀ {signedIdentifier}, idShortcut signedIdentifier buffer id = true →
      idShortcut false buffer id = true
  | true, h => idShortcut_of_signed h
  | false, h => h

section
variable {context : FMContext} {buffer : List UInt8} {length : Nat}

/-- Each of the two searches is the plain scan if its comparison passes on the ID and no ID of
another length comes in its way. -/
theorem searchByID_eq_plainScan (hle : length ≤ buffer.length)
    (hpass : (∃ e ∈ context.formatList, e.serverID = buffer.take length) →
      idShortcut true buffer (buffer.take length) = true)
    (hclear : ¬ Shadowed context buffer length) (signedIdentifier : Bool) :
    searchByID signedIdentifier context buffer = plainScan context buffer length := by
  have hexact : ∀ e ∈ context.formatList, e.serverID = buffer.take length →
      (idShortcut signedIdentifier buffer e.serverID &&
        buffer.take e.serverID.length = e.serverID) = true := by
    intro e he hid
    rw [Bool.and_eq_true, decide_eq_true_eq, hid, List.length_take, Nat.min_eq_left hle]
    exact ⟨idShortcut_of_true (hpass ⟨e, he, hid⟩) signedIdentifier, rfl⟩
  refine find?_eq_find?_iff.mpr ⟨fun e he => ?_, fun e he => ?_⟩
  · have hmem := List.mem_reverse.mp (List.mem_of_find?_eq_some he)
    have hid := List.find?_some he
    exact hexact e hmem (of_decide_eq_true hid)
  · obtain ⟨hmatch, newer, older, hsplit, hnone⟩ := List.find?_eq_some_iff_append.mp he
    rw [decide_eq_true_eq]
    by_contra hne
    rw [Bool.and_eq_true, decide_eq_true_eq] at hmatch
    have hlist : context.formatList = older.reverse ++ e :: newer.reverse := by
      rw [← List.reverse_reverse context.formatList, hsplit]
      simp
    refine hclear ⟨older.reverse, e, newer.reverse, hlist, hne, idShortcut_unsigned hmatch.1,
      hmatch.2, ?_⟩
    intro e' he' hid
    have hmem : e' ∈ context.formatList := by
      rw [hlist]
      simp [List.mem_reverse.mp he']
    have hfound := hexact e' hmem hid
    have hmiss := hnone e' (List.mem_reverse.mp he')
    rw [hfound] at hmiss
    cases hmiss

/-- Both functions find what the plain scan does just if the ID, when it is there, passes the
comparison with a signed identifier, and no ID of another length is in the way. -/
theorem findPlainly_iff (hle : length ≤ buffer.length) : FindPlainly context buffer length ↔
    ((∃ e ∈ context.formatList, e.serverID = buffer.take length) →
      idShortcut true buffer (buffer.take length) = true) ∧ ¬ Shadowed context buffer length := by
  constructor
  · rintro ⟨hunsigned, hsigned⟩
    refine ⟨fun ⟨e, he, hid⟩ => ?_, ?_⟩
    · have hfound : (plainScan context buffer length).isSome := by
        rw [plainScan, List.find?_isSome]
        exact ⟨e, List.mem_reverse.mpr he, decide_eq_true hid⟩
      obtain ⟨found, hfound⟩ := Option.isSome_iff_exists.mp hfound
      have hmatch := List.find?_some (hsigned.trans hfound)
      have hplain := List.find?_some hfound
      rw [decide_eq_true_eq] at hplain
      rw [hplain, Bool.and_eq_true] at hmatch
      exact hmatch.1
    · rintro ⟨front, entry, behind, hlist, hne, hpass, hhead, hnone⟩
      let loose (e : StoredFormat) : Bool :=
        idShortcut false buffer e.serverID && buffer.take e.serverID.length = e.serverID
      have hloose : loose entry = true := by
        rw [Bool.and_eq_true, decide_eq_true_eq]
        exact ⟨hpass, hhead⟩
      -- The search comes to the entry or stops before.
      have hsearch : formatFromID context buffer =
          (behind.reverse.find? loose).or (some entry) := by
        show context.formatList.reverse.find? loose = _
        rw [hlist, List.reverse_append, List.reverse_cons, List.append_assoc,
          List.find?_append, List.singleton_append, List.find?_cons, hloose]
      have hexact : ∀ e, formatFromID context buffer = some e → e.serverID = buffer.take length := by
        intro e he
        have hplain := List.find?_some (hunsigned.symm.trans he)
        exact of_decide_eq_true hplain
      cases hfind : behind.reverse.find? loose with
      | none =>
        rw [hfind, Option.none_or] at hsearch
        exact hne (hexact entry hsearch)
      | some e =>
        rw [hfind, Option.some_or] at hsearch
        have hmem := List.mem_reverse.mp (List.mem_of_find?_eq_some hfind)
        exact hnone e hmem (hexact e hsearch)
  · rintro ⟨hpass, hclear⟩
    exact ⟨searchByID_eq_plainScan hle hpass hclear false,
      searchByID_eq_plainScan hle hpass hclear true⟩

end

/-- A context of one format with an ID. -/
def contextOfID (id : List UInt8) : FMContext :=
  { formatList := [{ format := { top := pointFormat (cstr ['p'] (.refl false)) [], subformats := [] },
                     serverFormatRep := [], serverID := id, formatIndex := 0 }],
    nativeColumnMajorArrays := false }

theorem findPlainly_iff_version2 :
    FindPlainly (contextOfID [2, 0, 0, 19, 1, 2, 3, 4, 5, 6, 7, 8])
      [2, 0, 0, 19, 1, 2, 3, 4, 5, 6, 7, 8] 12 := by
  refine (findPlainly_iff (by decide)).mpr ⟨fun _ => by decide, ?_⟩
  rintro ⟨front, entry, behind, hlist, hne, -⟩
  have hmem : entry ∈ (contextOfID [2, 0, 0, 19, 1, 2, 3, 4, 5, 6, 7, 8]).formatList := by
    rw [hlist]
    simp
  exact hne (by rw [List.mem_singleton.mp hmem]; rfl)

/-- An identifier of version 1 from `0x8000` on is found by one function only. -/
theorem version1_not_findPlainly :
    ¬ FindPlainly (contextOfID [1, 0, 0, 0, 1, 0, 0, 0, 0, 0x80])
        [1, 0, 0, 0, 1, 0, 0, 0, 0, 0x80] 10 ∧
      (formatFromID (contextOfID [1, 0, 0, 0, 1, 0, 0, 0, 0, 0x80])
        [1, 0, 0, 0, 1, 0, 0, 0, 0, 0x80]).isSome ∧
      getLocalFormat (contextOfID [1, 0, 0, 0, 1, 0, 0, 0, 0, 0x80])
        [1, 0, 0, 0, 1, 0, 0, 0, 0, 0x80] = none := by
  have hnone : getLocalFormat (contextOfID [1, 0, 0, 0, 1, 0, 0, 0, 0, 0x80])
      [1, 0, 0, 0, 1, 0, 0, 0, 0, 0x80] = none := rfl
  refine ⟨fun h => ?_, rfl, hnone⟩
  have hsigned := h.2
  rw [hnone] at hsigned
  cases hsigned

end FFS
