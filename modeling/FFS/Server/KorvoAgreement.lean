import FFS.Server.KorvoTexts
import FFS.FM.ContextStore
import FFS.Machine.Runs

/-!
# What the web format server answers

Clients post formats and atoms and ask for them again.  `Posted` is what was posted, and `Answer`
is what a client is to get.  The server answers so as long as the texts of requests are plain,
names fit into the names of files and numbers into an `int`.
-/

namespace FFS

open Machine

/-! ## Requests -/

/-- A request, with what it posts or asks for.  The web server has decoded the path of a
request. -/
inductive KorvoCall where
  | postFormat (body : CString) (rep : List UInt8)
  | getFormat (text : CString) (elsewhere : Option (List UInt8))
  | postAtom (body : CString) (string : List UInt8) (number : Int)
  | getByString (string : CString)
  | getByValue (number : Int)

namespace KorvoCall

def cgi : KorvoCall → CgiRequest
  | postFormat body _ => ⟨bytesOf "POST", bytesOf "/v1/formats", body.bytes, none⟩
  | getFormat text elsewhere =>
    ⟨bytesOf "GET", bytesOf "/v1/formats/" ++ text.bytes, [], elsewhere⟩
  | postAtom body _ _ => ⟨bytesOf "POST", bytesOf "/v1/atoms", body.bytes, none⟩
  | getByString string =>
    ⟨bytesOf "GET", bytesOf "/v1/atoms/by-string/" ++ string.bytes, [], none⟩
  | getByValue number => ⟨bytesOf "GET", bytesOf "/v1/atoms/by-value/" ++ decimal number, [], none⟩

/-- The body of a post is a JSON object with what is posted. -/
def WellFormed : KorvoCall → Prop
  | postFormat body rep => ∃ members hex, Json.Document (.object members) body.bytes ∧
      (members.map Prod.fst).Nodup ∧ (bytesOf "format_rep", .string hex) ∈ members ∧
      hexDecode hex = some rep
  | postAtom body string number => ∃ members, Json.Document (.object members) body.bytes ∧
      (members.map Prod.fst).Nodup ∧ (bytesOf "string", .string string) ∈ members ∧
      (bytesOf "atom", .number (decimal number)) ∈ members
  | _ => True

end KorvoCall

structure KorvoRequest where
  call : KorvoCall
  wellFormed : call.WellFormed

/-- The next state of the store. -/
def KorvoRequest.step (hash : List UInt8 → UInt32 × UInt32) (store : KorvoStore)
    (request : KorvoRequest) : Option KorvoStore :=
  (korvoServer hash store request.call.cgi).map Prod.fst

/-! ## Answers -/

/-- What was posted last: representations by the texts of their IDs, numbers by strings and
strings by numbers. -/
structure Posted where
  formats : List UInt8 → Option (List UInt8)
  numbers : List UInt8 → Option Int
  strings : Int → Option (List UInt8)

def Posted.nothing : Posted :=
  { formats := fun _ => none, numbers := fun _ => none, strings := fun _ => none }

namespace KorvoCall

variable (hash : List UInt8 → UInt32 × UInt32)

def after (p : Posted) : KorvoCall → Posted
  | postFormat _ rep =>
    match if RecordsLength rep then generateFormat3ServerID hash rep else none with
    | none => p
    | some id => { p with formats := Function.update p.formats (hexEncode id) (some rep) }
  | postAtom _ string number =>
    { p with numbers := Function.update p.numbers string (some number),
             strings := Function.update p.strings number (some string) }
  | _ => p

/-- An object with one member. -/
def Found (r : Response) (key : String) (value : Json) : Prop :=
  r.status = 200 ∧ Json.Document (.object [(bytesOf key, value)]) r.body

/-- What a client is to get, after what was posted. -/
def Answer (p : Posted) (r : Response) : KorvoCall → Prop
  | postFormat _ rep => RecordsLength rep → ∃ id, generateFormat3ServerID hash rep = some id ∧
      Found r "server_id" (.string (hexEncode id))
  | getFormat text _ =>
    match p.formats text.bytes with
    | some rep => Found r "format_rep" (.string (hexEncode rep))
    | none => r.status = 404
  | postAtom _ _ _ => r.status = 200
  | getByString string =>
    match p.numbers string.bytes with
    | some number => Found r "atom" (.number (decimal number))
    | none => r.status ≠ 200
  | getByValue number =>
    match p.strings number with
    | some string => Found r "string" (.string string)
    | none => r.status ≠ 200

def Right (store : KorvoStore) (p : Posted) (call : KorvoCall) : Prop :=
  ∃ store' r, korvoServer hash store call.cgi = some (store', r) ∧ call.Answer hash p r

/-- A representation that the server takes for what it is, or refuses. -/
def Storable (store : KorvoStore) (rep : List UInt8) : Prop :=
  (RecordsLength rep ∧ 8 ≤ rep.length ∧ ∀ id, generateFormat3ServerID hash rep = some id →
    ∀ other, store.formats (hexEncode id) = some other → other = rep) ∨
  (¬ RecordsLength rep ∧ (rep.length < 8 ∨
    ∃ length, recordedRepLength rep = some length ∧ rep.length < length ∧ length < 2 ^ 31))

/-- Texts that are found where they are, names that files can have and numbers of an `int`. -/
def Meets (store : KorvoStore) : KorvoCall → Prop
  | postFormat body rep => body.length ≤ 10 * 1024 * 1024 ∧
      (∃ hex behind, MemberAt (bytesOf "format_rep") (quoted hex) behind body.bytes ∧
        hexDecode hex = some rep) ∧ Storable hash store rep
  | getFormat text _ => text.bytes ≠ [] ∧ chr '/' ∉ text.bytes ∧ text.bytes ≠ bytesOf "." ∧
      text.bytes ≠ bytesOf ".."
  | postAtom body string number => body.length ≤ 10 * 1024 * 1024 ∧
      (∃ behind, MemberAt (bytesOf "string") (quoted string) behind body.bytes) ∧
      (∃ behind, MemberAt (bytesOf "atom") (decimal number) behind body.bytes ∧
        EndsNumber behind) ∧
      (∀ b ∈ string, Json.IsPlain b) ∧ isFileName (urlSafe string) = true ∧
      0 ≤ number ∧ number < 2 ^ 31
  | getByString string => NoEscape string.bytes
  | getByValue number => IsInt number

end KorvoCall

/-! ## What the store has -/

/-- The files of the store have what was posted. -/
structure KorvoStore.Holds (store : KorvoStore) (p : Posted) : Prop where
  formats : ∀ text, isFileName text = true → store.formats text = p.formats text
  formatNames : ∀ {text rep}, p.formats text = some rep → isFileName text = true
  numbers : ∀ s, isFileName (urlSafe s) = true →
    store.byString (urlSafe s) = (p.numbers s).map fun number => decimal number ++ [chr '\n']
  numberNames : ∀ {s number}, p.numbers s = some number →
    isFileName (urlSafe s) = true ∧ IsInt number
  strings : ∀ number, IsInt number →
    store.byValue (decimal number) = (p.strings number).map (· ++ [chr '\n'])
  stringNames : ∀ {number s}, p.strings number = some s →
    IsInt number ∧ s.length ≤ 255 ∧ ∀ b ∈ s, Json.IsPlain b

theorem empty_holds : KorvoStore.empty.Holds .nothing where
  formats _ _ := rfl
  formatNames h := nomatch h
  numbers _ _ := rfl
  numberNames h := nomatch h
  strings _ _ := rfl
  stringNames h := nomatch h

/-! ## Routes -/

variable {hash : List UInt8 → UInt32 × UInt32} {store : KorvoStore} {p : Posted}

theorem readPostBody_eq {body : CString} (hne : body.bytes ≠ [])
    (hlength : body.length ≤ 10 * 1024 * 1024) : readPostBody body.bytes = some body.bytes := by
  have hshort : ¬ (body.bytes = [] ∨ 10 * 1024 * 1024 < body.bytes.length) := by
    intro h
    cases h with
    | inl hnil => exact hne hnil
    | inr hlong => exact absurd hlength (Nat.not_le.mpr hlong)
  rw [readPostBody, if_neg hshort]
  refine congrArg some (List.takeWhile_eq_self_iff.mpr fun b hb => ?_)
  exact decide_eq_true fun hzero => body.noNul (hzero ▸ hb)

theorem behindPath_append (path : String) (rest : List UInt8) :
    behindPath path (bytesOf path ++ rest) = some rest := by
  rw [behindPath, if_pos (List.isPrefixOf_iff_prefix.mpr (List.prefix_append _ _)),
    List.drop_left]

theorem route_postFormat {body : CString} {rep : List UInt8} (hne : body.bytes ≠ [])
    (hlength : body.length ≤ 10 * 1024 * 1024) :
    korvoServer hash store (KorvoCall.postFormat body rep).cgi =
      handlePostFormat hash store body.bytes := by
  unfold korvoServer KorvoCall.cgi
  dsimp only
  rw [if_pos ⟨rfl, rfl⟩, readPostBody_eq hne hlength]

theorem route_postAtom {body : CString} {s : List UInt8} {n : Int} (hne : body.bytes ≠ [])
    (hlength : body.length ≤ 10 * 1024 * 1024) :
    korvoServer hash store (KorvoCall.postAtom body s n).cgi =
      some (handlePostAtom store body.bytes) := by
  have hother : bytesOf "/v1/atoms" ≠ bytesOf "/v1/formats" := by decide
  have hpost : bytesOf "POST" ≠ bytesOf "GET" := by decide
  unfold korvoServer KorvoCall.cgi
  dsimp only
  rw [if_neg (fun h => hother h.1), if_neg hpost]
  dsimp only
  rw [if_pos ⟨rfl, rfl⟩, readPostBody_eq hne hlength]

theorem get_ne_post : bytesOf "GET" ≠ bytesOf "POST" := by decide

theorem route_getFormat {text : CString} {elsewhere : Option (List UInt8)}
    (hne : text.bytes ≠ []) :
    korvoServer hash store (KorvoCall.getFormat text elsewhere).cgi =
      some (store, handleGetFormat store elsewhere text.bytes) := by
  obtain ⟨bytes, hnoNul⟩ := text
  unfold korvoServer KorvoCall.cgi
  dsimp only
  rw [if_neg (fun h => get_ne_post h.2), if_pos rfl, behindPath_append]
  cases bytes with
  | nil => exact absurd rfl hne
  | cons c rest => rfl

theorem route_getByString {s : CString} :
    korvoServer hash store (KorvoCall.getByString s).cgi = some (store,
      handleGetAtomByString store ((urlSafeDecode 511 s.bytes).takeWhile (· ≠ 0))) := by
  have hformats : behindPath "/v1/formats/" (bytesOf "/v1/atoms/by-string/" ++ s.bytes) = none :=
    rfl
  unfold korvoServer KorvoCall.cgi
  dsimp only
  rw [if_neg (fun h => get_ne_post h.2), if_pos rfl, hformats]
  dsimp only
  rw [if_neg (fun h => get_ne_post h.2), if_pos rfl, behindPath_append]

theorem route_getByValue {n : Int} :
    korvoServer hash store (KorvoCall.getByValue n).cgi =
      some (store, handleGetAtomByValue store (atoi (decimal n))) := by
  have hformats : behindPath "/v1/formats/" (bytesOf "/v1/atoms/by-value/" ++ decimal n) = none :=
    rfl
  have hstrings : behindPath "/v1/atoms/by-string/" (bytesOf "/v1/atoms/by-value/" ++ decimal n) =
      none := rfl
  unfold korvoServer KorvoCall.cgi
  dsimp only
  rw [if_neg (fun h => get_ne_post h.2), if_pos rfl, hformats]
  dsimp only
  rw [if_neg (fun h => get_ne_post h.2), if_pos rfl, hstrings]
  dsimp only
  rw [if_pos rfl, behindPath_append]

/-! ## Questions -/

theorem found_jsonOk {key : String} {v : Json} {t : List UInt8}
    (hkey : ∀ b ∈ bytesOf key, Json.IsPlain b) (h : Json.Text v t) :
    KorvoCall.Found (jsonOk (bytesOf key) t) key v := by
  refine ⟨rfl, [], _, [], Json.blank_nil, Json.text_member hkey h, Json.blank_nil, ?_⟩
  rw [List.nil_append, List.append_nil]
  rfl

theorem text_quoted {s : List UInt8} (h : ∀ b ∈ s, Json.IsPlain b) :
    Json.Text (.string s) (quoted s) := .string (Json.stringText_plain h)

theorem plain_hexEncode (data : List UInt8) : ∀ b ∈ hexEncode data, Json.IsPlain b := by
  intro b hb
  obtain ⟨c, -, hb⟩ := List.mem_flatMap.mp hb
  have hc := c.toNat_lt
  have hhex : ∀ d < 16, Json.IsPlain (hexDigit d) := by decide
  simp only [List.mem_cons, List.not_mem_nil, or_false] at hb
  cases hb with
  | inl hhigh => exact hhigh ▸ hhex _ (by omega)
  | inr hlow => exact hlow ▸ hhex _ (by omega)

theorem getFormat_answer {text : CString} {elsewhere : Option (List UInt8)} (h : store.Holds p)
    (hmeets : (KorvoCall.getFormat text elsewhere).Meets hash store) :
    (KorvoCall.getFormat text elsewhere).Answer hash p
      (handleGetFormat store elsewhere text.bytes) := by
  obtain ⟨hne, hslash, hdot, hdotdot⟩ := hmeets
  unfold handleGetFormat openRead
  simp only [KorvoCall.Answer]
  by_cases hname : isFileName text.bytes = true
  · rw [if_pos hname, h.formats _ hname]
    cases p.formats text.bytes with
    | none => rfl
    | some rep => exact found_jsonOk (Json.isPlain_of_all rfl) (text_quoted (plain_hexEncode rep))
  · have hnone : p.formats text.bytes = none := by
      cases hposted : p.formats text.bytes with
      | none => rfl
      | some rep => exact absurd (h.formatNames hposted) hname
    have hlong : (decide (255 < text.bytes.length) && !text.bytes.contains (chr '/')) = true := by
      rw [List.contains_eq_mem, decide_eq_false hslash, Bool.not_false, Bool.and_true,
        decide_eq_true_eq]
      by_contra hshort
      exact hname (by
        unfold isFileName
        rw [List.contains_eq_mem, decide_eq_false hslash]
        simp only [ne_eq, hne, hdot, hdotdot, Nat.not_lt.mp hshort, not_false_eq_true, decide_true,
          Bool.not_false, Bool.and_self])
    rw [if_neg hname, if_pos hlong, hnone]
    rfl

theorem length_le_urlSafe (s : List UInt8) : s.length ≤ (urlSafe s).length := by
  induction s with
  | nil => exact Nat.le_refl 0
  | cons c s ih =>
    have hbyte := (length_urlSafeByte c).1
    rw [urlSafe, List.flatMap_cons, List.length_append, List.length_cons]
    show s.length + 1 ≤ _ + (urlSafe s).length
    omega

theorem length_of_isFileName {name : List UInt8} (h : isFileName name = true) :
    name.length ≤ 255 := by
  unfold isFileName at h
  simp only [Bool.and_eq_true, decide_eq_true_eq] at h
  exact h.1.1.1.2

/-- The name that is looked for is the one of the string, or it is not the name of a file. -/
theorem urlSafeEncode_take (s : List UInt8) :
    urlSafeEncode 512 [] (s.take 511) = urlSafe s ∨
      (isFileName (urlSafeEncode 512 [] (s.take 511)) = false ∧ isFileName (urlSafe s) = false) := by
  have hlong : ∀ {name : List UInt8}, 255 < name.length → isFileName name = false := by
    intro name hname
    exact Bool.eq_false_iff.mpr fun h => absurd (length_of_isFileName h) (Nat.not_le.mpr hname)
  have hname := urlSafeEncode_eq [] (s.take 511)
  rw [List.nil_append] at hname
  by_cases hshort : s.length ≤ 511
  · rw [List.take_of_length_le hshort] at hname ⊢
    exact hname.imp_right fun h => ⟨hlong h.1, hlong h.2⟩
  · have htake := length_le_urlSafe (s.take 511)
    have hwhole := length_le_urlSafe s
    rw [List.length_take] at htake
    right
    refine ⟨hlong ?_, hlong (by omega)⟩
    cases hname with
    | inl hfull =>
      rw [hfull]
      omega
    | inr hcut => exact hcut.1

/-- What is not the name of a file has no contents. -/
theorem openRead_nothing {directory : Directory} {name contents : List UInt8}
    (hname : isFileName name = false) (h : openRead directory (some []) name = some contents) :
    contents = [] := by
  unfold openRead at h
  rw [hname, if_neg Bool.false_ne_true] at h
  split at h
  · cases h
  · cases h
    rfl

theorem scanInt_decimal {n : Int} (hn : IsInt n) : scanInt (decimal n ++ [chr '\n']) = some n := by
  have hends : EndsNumber [chr '\n'] := by
    intro b hb
    rw [List.head?_cons, Option.mem_some_iff] at hb
    rw [← hb]
    decide
  have hread := strtol_decimal n hends
  obtain ⟨c, rest, hdecimal, -⟩ := decimal_head n
  have hlonger : ¬ [chr '\n'].length = (decimal n ++ [chr '\n']).length := by
    rw [List.length_append, List.length_singleton, hdecimal, List.length_cons]
    omega
  unfold scanInt
  rw [hread]
  dsimp only
  rw [if_neg hlonger, clampLong_of_isInt hn, bmod_of_isInt hn]

theorem getByString_answer {s : CString} (h : store.Holds p)
    (hmeets : (KorvoCall.getByString s).Meets hash store) :
    (KorvoCall.getByString s).Answer hash p
      (handleGetAtomByString store ((urlSafeDecode 511 s.bytes).takeWhile (· ≠ 0))) := by
  have hdecode : (urlSafeDecode 511 s.bytes).takeWhile (· ≠ 0) = s.bytes.take 511 := by
    rw [urlSafeDecode_eq 511 hmeets]
    refine List.takeWhile_eq_self_iff.mpr fun b hb => decide_eq_true fun hzero => ?_
    exact s.noNul (hzero ▸ List.mem_of_mem_take hb)
  rw [hdecode]
  unfold handleGetAtomByString
  simp only [KorvoCall.Answer]
  by_cases hname : isFileName (urlSafe s.bytes) = true
  · have hencode : urlSafeEncode 512 [] (s.bytes.take 511) = urlSafe s.bytes := by
      cases urlSafeEncode_take s.bytes with
      | inl heq => exact heq
      | inr hnot => exact absurd hname (Bool.eq_false_iff.mp hnot.2)
    rw [hencode, openRead, if_pos hname, h.numbers _ hname]
    cases hposted : p.numbers s.bytes with
    | none =>
      show ¬ 404 = 200
      decide
    | some number =>
      rw [Option.map_some]
      dsimp only
      rw [scanInt_decimal (h.numberNames hposted).2]
      exact found_jsonOk (Json.isPlain_of_all rfl) (text_decimal number)
  · have hnone : p.numbers s.bytes = none := by
      cases hposted : p.numbers s.bytes with
      | none => rfl
      | some number => exact absurd (h.numberNames hposted).1 hname
    have hnot : isFileName (urlSafeEncode 512 [] (s.bytes.take 511)) = false := by
      cases urlSafeEncode_take s.bytes with
      | inl heq =>
        rw [heq]
        exact Bool.eq_false_iff.mpr hname
      | inr hnot => exact hnot.1
    rw [hnone]
    cases hopen : openRead store.byString (some [])
        (urlSafeEncode 512 [] (s.bytes.take 511)) with
    | none =>
      show ¬ 404 = 200
      decide
    | some contents =>
      rw [openRead_nothing hnot hopen]
      show ¬ 500 = 200
      decide

theorem fgets_line {s : List UInt8} {room : Nat} (hs : chr '\n' ∉ s) (hroom : s.length < room) :
    fgets room (s ++ [chr '\n']) = s ++ [chr '\n'] := by
  induction s generalizing room with
  | nil =>
    cases room with
    | zero => omega
    | succ room => rfl
  | cons c s ih =>
    rw [List.mem_cons, not_or] at hs
    obtain ⟨hc, hs⟩ := hs
    cases room with
    | zero => omega
    | succ room =>
      rw [List.length_cons] at hroom
      rw [List.cons_append, fgets, if_neg fun heq => hc heq.symm, ih hs (by omega)]

theorem getByValue_answer {n : Int} (h : store.Holds p)
    (hmeets : (KorvoCall.getByValue n).Meets hash store) :
    (KorvoCall.getByValue n).Answer hash p (handleGetAtomByValue store (atoi (decimal n))) := by
  have hn : IsInt n := hmeets
  have hatoi := atoi_decimal hn endsNumber_nil
  rw [List.append_nil] at hatoi
  rw [hatoi]
  unfold handleGetAtomByValue
  simp only [KorvoCall.Answer]
  rw [openRead, if_pos (isFileName_decimal hn), h.strings n hn]
  cases hposted : p.strings n with
  | none =>
    show ¬ 404 = 200
    decide
  | some s =>
    obtain ⟨-, hlength, hplain⟩ := h.stringNames hposted
    have hline : fgets 511 (s ++ [chr '\n']) = s ++ [chr '\n'] := by
      refine fgets_line (fun hmem => ?_) (by omega)
      exact absurd (hplain _ hmem) (by decide)
    have hnoNul : (s ++ [chr '\n']).takeWhile (· ≠ 0) = s ++ [chr '\n'] := by
      refine List.takeWhile_eq_self_iff.mpr fun b hb => decide_eq_true fun hzero => ?_
      cases List.mem_append.mp hb with
      | inl hs => exact absurd (hzero ▸ hplain b hs) (by decide)
      | inr hend =>
        rw [List.mem_singleton.mp hend] at hzero
        exact absurd hzero (by decide)
    rw [Option.map_some]
    dsimp only
    rw [hline, hnoNul, if_neg (List.append_ne_nil_of_right_ne_nil _ (List.cons_ne_nil _ _)),
      List.getLast?_concat, if_pos rfl, List.dropLast_concat]
    exact found_jsonOk (Json.isPlain_of_all rfl) (text_quoted hplain)

/-! ## Posts -/

theorem quote_notMem_of_hexDecode {t data : List UInt8} (h : hexDecode t = some data) :
    chr '"' ∉ t := by
  have hquote : hexValue (chr '"') = none := by decide
  induction t using hexDecode.induct generalizing data with
  | case1 => exact List.not_mem_nil
  | case2 => cases h
  | case3 hi lo rest ih =>
    rw [hexDecode] at h
    obtain ⟨x, hhi, h⟩ := Option.bind_eq_some_iff.mp h
    obtain ⟨y, hlo, h⟩ := Option.bind_eq_some_iff.mp h
    obtain ⟨ds, hds, -⟩ := Option.bind_eq_some_iff.mp h
    intro hmem
    rcases List.mem_cons.mp hmem with heq | hmem
    · rw [← heq, hquote] at hhi
      cases hhi
    · rcases List.mem_cons.mp hmem with heq | hmem
      · rw [← heq, hquote] at hlo
        cases hlo
      · exact ih hds hmem

theorem ne_nil_of_member {key text behind body : List UInt8} (h : MemberAt key text behind body) :
    body ≠ [] := by
  obtain ⟨before, gap, rfl, -⟩ := h
  simp [quoted]

theorem length_le_of_member {key s behind body : List UInt8}
    (h : MemberAt key (quoted s) behind body) : s.length ≤ body.length := by
  obtain ⟨before, gap, rfl, -⟩ := h
  simp only [quoted, List.length_append, List.length_cons]
  omega

theorem bmod_of_short {length : Nat} (h : length < 2 ^ 31) :
    ((length : Int).bmod (2 ^ 32)) = length :=
  bmod_of_isInt ⟨by omega, by omega⟩

/-- One more representation. -/
theorem KorvoStore.Holds.postFormat (h : store.Holds p) {name rep : List UInt8}
    {formats : Directory} (hname : isFileName name = true)
    (hformats : ∀ text, isFileName text = true →
      formats text = Function.update p.formats name (some rep) text) :
    KorvoStore.Holds { store with formats }
      { p with formats := Function.update p.formats name (some rep) } := by
  refine { h with formats := hformats, formatNames := fun {text other} hposted => ?_ }
  dsimp only at hposted
  by_cases heq : text = name
  · rw [heq]
    exact hname
  · rw [Function.update_of_ne heq] at hposted
    exact h.formatNames hposted

theorem after_postFormat {body : CString} {rep id : List UInt8} (hrecords : RecordsLength rep)
    (hid : generateFormat3ServerID hash rep = some id) :
    (KorvoCall.postFormat body rep).after hash p =
      { p with formats := Function.update p.formats (hexEncode id) (some rep) } := by
  simp only [KorvoCall.after, if_pos hrecords, hid]

/-- A representation is stored, unless it is there. -/
theorem storeFormat_right {body : CString} {rep : List UInt8} (h : store.Holds p)
    (hhex : jsonGetString body.bytes (bytesOf "format_rep") = some hex)
    (hdecode : hexDecode hex = some rep) (hshort : rep.length < 2 ^ 31)
    (hrecords : RecordsLength rep) (hlong : 8 ≤ rep.length)
    (hsame : ∀ id, generateFormat3ServerID hash rep = some id →
      ∀ other, store.formats (hexEncode id) = some other → other = rep) :
    ∃ store' r, handlePostFormat hash store body.bytes = some (store', r) ∧
      (KorvoCall.postFormat body rep).Answer hash p r ∧
      store'.Holds ((KorvoCall.postFormat body rep).after hash p) := by
  have hlength := hexDecode_length hdecode
  obtain ⟨id, hid⟩ : ∃ id, generateFormat3ServerID hash rep = some id :=
    ⟨_, generateFormat3ServerID_eq hrecords⟩
  have hidLength := length_serverID hrecords hid
  have hgenerated : generatedServerID hash rep = some id := by
    unfold generatedServerID
    rw [hrecords, hid]
    simp
  have hname : isFileName (hexEncode id) = true := by
    refine isFileName_hexEncode (fun hnil => ?_) (by omega)
    rw [hnil] at hidLength
    cases hidLength
  have hanswer : (KorvoCall.postFormat body rep).Answer hash p
      (jsonOk (bytesOf "server_id") (quoted (hexEncode id))) :=
    fun _ => ⟨id, hid, found_jsonOk (Json.isPlain_of_all rfl) (text_quoted (plain_hexEncode id))⟩
  have hfile := h.formats _ hname
  rw [after_postFormat hrecords hid]
  unfold handlePostFormat
  rw [hhex]
  dsimp only
  rw [if_neg (by omega), hdecode]
  dsimp only
  rw [show recordedRepLength rep = some rep.length from hrecords, Option.bind_eq_bind,
    Option.bind_some, bmod_of_short hshort, if_neg (lt_irrefl _), hgenerated]
  dsimp only [Option.bind_eq_bind, Option.bind_some]
  rw [openRead, if_pos hname]
  cases hpresent : store.formats (hexEncode id) with
  | some other =>
    have hother := hsame id hid other hpresent
    refine ⟨store, _, rfl, hanswer, h.postFormat hname fun text htext => ?_⟩
    by_cases heq : text = hexEncode id
    · rw [heq, Function.update_self, hpresent, hother]
    · rw [Function.update_of_ne heq]
      exact h.formats text htext
  | none =>
    dsimp only
    rw [writeFile, if_pos hname]
    refine ⟨_, _, rfl, hanswer, h.postFormat hname fun text htext => ?_⟩
    by_cases heq : text = hexEncode id
    · rw [heq, Function.update_self, Function.update_self]
    · rw [Function.update_of_ne heq, Function.update_of_ne heq]
      exact h.formats text htext

/-- What is shorter than it says is refused. -/
theorem refuseFormat_right {body : CString} {rep : List UInt8} (h : store.Holds p)
    (hhex : jsonGetString body.bytes (bytesOf "format_rep") = some hex)
    (hdecode : hexDecode hex = some rep) (hnot : ¬ RecordsLength rep)
    (hrefused : rep.length < 8 ∨
      ∃ length, recordedRepLength rep = some length ∧ rep.length < length ∧ length < 2 ^ 31) :
    ∃ store' r, handlePostFormat hash store body.bytes = some (store', r) ∧
      (KorvoCall.postFormat body rep).Answer hash p r ∧
      store'.Holds ((KorvoCall.postFormat body rep).after hash p) := by
  have hlength := hexDecode_length hdecode
  have hafter : (KorvoCall.postFormat body rep).after hash p = p := by
    simp only [KorvoCall.after, if_neg hnot]
  have hanswer : ∀ r, (KorvoCall.postFormat body rep).Answer hash p r :=
    fun r hrecords => absurd hrecords hnot
  rw [hafter]
  unfold handlePostFormat
  rw [hhex]
  dsimp only
  by_cases hlong : 8 ≤ rep.length
  · obtain ⟨length, hrecorded, hlonger, hint⟩ := hrefused.resolve_left (Nat.not_lt.mpr hlong)
    have hdeclared : (rep.length : Int) < length := by omega
    rw [if_neg (by omega), hdecode]
    dsimp only
    rw [hrecorded, Option.bind_eq_bind, Option.bind_some, bmod_of_short hint, if_pos hdeclared]
    exact ⟨store, _, rfl, hanswer _, h⟩
  · rw [if_pos (by omega)]
    exact ⟨store, _, rfl, hanswer _, h⟩

/-- One more atom. -/
theorem KorvoStore.Holds.postAtom (h : store.Holds p) {string : List UInt8} {number : Int}
    (hname : isFileName (urlSafe string) = true) (hnumber : IsInt number)
    (hplain : ∀ b ∈ string, Json.IsPlain b) :
    KorvoStore.Holds
      { store with
        byString := Function.update store.byString (urlSafe string)
          (some (decimal number ++ [chr '\n'])),
        byValue := Function.update store.byValue (decimal number) (some (string ++ [chr '\n'])) }
      { p with numbers := Function.update p.numbers string (some number),
               strings := Function.update p.strings number (some string) } := by
  refine { h with numbers := ?_, numberNames := ?_, strings := ?_, stringNames := ?_ }
  · intro s hs
    dsimp only
    by_cases heq : s = string
    · rw [heq, Function.update_self, Function.update_self]
      rfl
    · rw [Function.update_of_ne heq, Function.update_of_ne fun hname => heq (urlSafe_inj hname)]
      exact h.numbers s hs
  · intro s n hposted
    dsimp only at hposted
    by_cases heq : s = string
    · rw [heq, Function.update_self, Option.some.injEq] at hposted
      rw [heq, ← hposted]
      exact ⟨hname, hnumber⟩
    · rw [Function.update_of_ne heq] at hposted
      exact h.numberNames hposted
  · intro n hn
    dsimp only
    by_cases heq : n = number
    · rw [heq, Function.update_self, Function.update_self]
      rfl
    · have hne : decimal n ≠ decimal number := fun hsame =>
        heq (decimal_inj (clampLong_of_isInt hn) (clampLong_of_isInt hnumber) hsame)
      rw [Function.update_of_ne heq, Function.update_of_ne hne]
      exact h.strings n hn
  · intro n s hposted
    dsimp only at hposted
    by_cases heq : n = number
    · rw [heq, Function.update_self, Option.some.injEq] at hposted
      rw [heq, ← hposted]
      exact ⟨hnumber, Nat.le_trans (length_le_urlSafe string) (length_of_isFileName hname), hplain⟩
    · rw [Function.update_of_ne heq] at hposted
      exact h.stringNames hposted

theorem postAtom_right {body : CString} {string : List UInt8} {number : Int} (h : store.Holds p)
    (hmeets : (KorvoCall.postAtom body string number).Meets hash store) :
    ∃ store' r, handlePostAtom store body.bytes = (store', r) ∧
      (KorvoCall.postAtom body string number).Answer hash p r ∧
      store'.Holds ((KorvoCall.postAtom body string number).after hash p) := by
  obtain ⟨-, ⟨behind, hstring⟩, ⟨behind', hatom, hends⟩, hplain, hname, hpos, hlt⟩ := hmeets
  have hnumber : IsInt number := ⟨by omega, hlt⟩
  have hquote : chr '"' ∉ string := fun hmem => (hplain _ hmem).2.1 rfl
  have hlength := length_of_isFileName hname
  have hencode : urlSafeEncode 512 [] string = urlSafe string := by
    cases urlSafeEncode_eq [] string with
    | inl heq => exact heq
    | inr hlong => exact absurd hlong.2 (Nat.not_lt.mpr hlength)
  have hnonneg : ¬ number < 0 := by omega
  unfold handlePostAtom
  rw [jsonGetInt_of_member hatom hnumber hends, jsonGetString_of_member hstring hquote]
  dsimp only
  rw [if_neg hnonneg, hencode, writeFile, if_pos hname]
  dsimp only
  rw [writeFile, if_pos (isFileName_decimal hnumber)]
  exact ⟨_, _, rfl, rfl, h.postAtom hname hnumber hplain⟩

/-! ## Sequences of requests -/

/-- A request that meets the condition is answered, and the store has what was posted. -/
theorem korvo_step {call : KorvoCall} (h : store.Holds p) (hmeets : call.Meets hash store) :
    ∃ store' r, korvoServer hash store call.cgi = some (store', r) ∧ call.Answer hash p r ∧
      store'.Holds (call.after hash p) := by
  cases call with
  | postFormat body rep =>
    obtain ⟨hbody, ⟨hex, behind, hmember, hhex⟩, hstorable⟩ := hmeets
    have hlength := hexDecode_length hhex
    have hle := length_le_of_member hmember
    have hread := jsonGetString_of_member hmember (quote_notMem_of_hexDecode hhex)
    rw [route_postFormat (ne_nil_of_member hmember) hbody]
    cases hstorable with
    | inl hrep =>
      obtain ⟨hrecords, hlong, hsame⟩ := hrep
      have hbody : body.bytes.length ≤ 10 * 1024 * 1024 := hbody
      exact storeFormat_right h hread hhex (by omega) hrecords hlong hsame
    | inr hrefused => exact refuseFormat_right h hread hhex hrefused.1 hrefused.2
  | getFormat text elsewhere =>
    exact ⟨store, _, route_getFormat hmeets.1, getFormat_answer h hmeets, h⟩
  | postAtom body string number =>
    obtain ⟨store', r, hhandle, hanswer, hholds⟩ := postAtom_right h hmeets
    obtain ⟨hbody, ⟨behind, hmember⟩, -⟩ := hmeets
    rw [route_postAtom (ne_nil_of_member hmember) hbody, hhandle]
    exact ⟨store', r, rfl, hanswer, hholds⟩
  | getByString string => exact ⟨store, _, route_getByString, getByString_answer h hmeets, h⟩
  | getByValue number => exact ⟨store, _, route_getByValue, getByValue_answer h hmeets, h⟩

/-- What was posted by some requests. -/
def postedBy (hash : List UInt8 → UInt32 × UInt32) (p : Posted) (requests : List KorvoRequest) :
    Posted :=
  requests.foldl (fun p request => request.call.after hash p) p

/-- Every request is answered with what was posted before. -/
def AnswersRight (hash : List UInt8 → UInt32 × UInt32) (requests : List KorvoRequest) : Prop :=
  ∀ front request rest, requests = front ++ request :: rest →
    ∃ store, run (KorvoRequest.step hash) .empty front = some store ∧
      request.call.Right hash store (postedBy hash .nothing front)

theorem holds_behind {front events : List KorvoRequest} (h : store.Holds p)
    (hmeets : RunMeets (KorvoRequest.step hash) (fun store request => request.call.Meets hash store)
      store (front ++ events)) :
    ∃ store', run (KorvoRequest.step hash) store front = some store' ∧
      store'.Holds (postedBy hash p front) ∧
      RunMeets (KorvoRequest.step hash) (fun store request => request.call.Meets hash store)
        store' events := by
  induction front generalizing store p with
  | nil => exact ⟨store, rfl, h, hmeets⟩
  | cons request front ih =>
    obtain ⟨hrequest, hrest⟩ := hmeets
    obtain ⟨store', r, hserver, -, hholds⟩ := korvo_step h hrequest
    have hstep : KorvoRequest.step hash store request = some store' :=
      congrArg (Option.map Prod.fst) hserver
    rw [run_cons front hstep]
    exact ih hholds (hrest store' hstep)

/-- The server answers with what was posted when every request meets the condition. -/
theorem korvo_answersRight {requests : List KorvoRequest}
    (h : RunMeets (KorvoRequest.step hash) (fun store request => request.call.Meets hash store)
      .empty requests) : AnswersRight hash requests := by
  intro front request rest hrequests
  subst hrequests
  obtain ⟨store, hrun, hholds, hmeets⟩ := holds_behind empty_holds h
  obtain ⟨store', r, hserver, hanswer, -⟩ := korvo_step hholds hmeets.1
  exact ⟨store, hrun, store', r, hserver, hanswer⟩

/-! ## A plain string and a quote -/

theorem member_of_string {key text s : List UInt8} {v : Json}
    (hkey : ∀ b ∈ key, Json.IsPlain b) (h : Json.Text v text)
    (hs : s = quoted key ++ chr ':' :: text) : Json.Member key v s := by
  have hmember : Json.Member key v ([] ++ quoted key ++ [] ++ chr ':' :: ([] ++ text ++ [])) :=
    .mk Json.blank_nil Json.blank_nil Json.blank_nil Json.blank_nil (Json.stringText_plain hkey) h
  rw [hs]
  simpa using hmember

/-- A body with a string and the number 7. -/
theorem atomBody_wellFormed {body : CString} {string text : List UInt8}
    (htext : Json.StringText string text)
    (hbody : body.bytes = chr '{' :: (quoted (bytesOf "string") ++ chr ':' :: text ++
      chr ',' :: (quoted (bytesOf "atom") ++ chr ':' :: decimal 7) ++ [chr '}'])) :
    (KorvoCall.postAtom body string 7).WellFormed := by
  have hstring : Json.Member (bytesOf "string") (.string string) _ :=
    member_of_string (Json.isPlain_of_all rfl) (.string htext) rfl
  have hatom : Json.Member (bytesOf "atom") (.number (decimal 7)) _ :=
    member_of_string (Json.isPlain_of_all rfl) (text_decimal 7) rfl
  refine ⟨[(bytesOf "string", .string string), (bytesOf "atom", .number (decimal 7))], ?_, ?_,
    List.mem_cons_self, List.mem_cons_of_mem _ List.mem_cons_self⟩
  · refine ⟨[], _, [], Json.blank_nil, .object (.cons hstring (.last hatom) (List.cons_ne_nil _ _)),
      Json.blank_nil, ?_⟩
    rw [List.nil_append, List.append_nil, hbody]
  · show [bytesOf "string", bytesOf "atom"].Nodup
    decide

def plainBody : CString :=
  { bytes := bytesOf "\x7b\"string\":\"a\",\"atom\":7\x7d", noNul := by decide }

def plainString : CString := { bytes := bytesOf "a", noNul := by decide }

/-- A representation of twelve bytes in hexadecimal. -/
def plainHex : List UInt8 := bytesOf "000c01000000000000000000"

def plainFormat : CString :=
  { bytes := bytesOf "\x7b\"format_rep\":\"000c01000000000000000000\"\x7d", noNul := by decide }

def plainRep : List UInt8 := [0, 12, 1, 0, 0, 0, 0, 0, 0, 0, 0, 0]

theorem plainFormat_wellFormed : (KorvoCall.postFormat plainFormat plainRep).WellFormed := by
  have hmember : Json.Member (bytesOf "format_rep") (.string plainHex) _ :=
    member_of_string (Json.isPlain_of_all rfl)
      (.string (Json.stringText_plain (Json.isPlain_of_all rfl))) rfl
  exact ⟨[(bytesOf "format_rep", .string plainHex)], plainHex,
    ⟨[], _, [], Json.blank_nil, .object (.last hmember), Json.blank_nil, by decide⟩, by decide,
    List.mem_cons_self, by decide⟩

/-- The identifier that the representation gets if its hash is zero. -/
def plainID : CString := { bytes := bytesOf "020000030000000000000000", noNul := by decide }

def plainRequests : List KorvoRequest :=
  [⟨.postFormat plainFormat plainRep, plainFormat_wellFormed⟩, ⟨.getFormat plainID none, trivial⟩,
   ⟨.postAtom plainBody plainString.bytes 7,
      atomBody_wellFormed (Json.stringText_plain (Json.isPlain_of_all rfl)) (by decide)⟩,
   ⟨.getByString plainString, trivial⟩, ⟨.getByValue 7, trivial⟩]

theorem isGap_colon : ∀ c ∈ bytesOf ":", isGap c = true := List.all_eq_true.mp rfl

theorem plainBody_meets (hash : List UInt8 → UInt32 × UInt32) (store : KorvoStore) :
    (KorvoCall.postAtom plainBody plainString.bytes 7).Meets hash store := by
  have hname : isFileName (urlSafe plainString.bytes) = true := rfl
  have hends : EndsNumber (bytesOf "\x7d") := by decide
  refine ⟨by decide,
    ⟨bytesOf ",\"atom\":7\x7d", bytesOf "\x7b", bytesOf ":", rfl, isGap_colon, ?_⟩,
    ⟨bytesOf "\x7d", ⟨bytesOf "\x7b\"string\":\"a\",", bytesOf ":", rfl, isGap_colon, ?_⟩, hends⟩,
    Json.isPlain_of_all rfl, hname, by decide, by decide⟩
  · decide
  · decide

theorem plainFormat_meets (hash : List UInt8 → UInt32 × UInt32) :
    (KorvoCall.postFormat plainFormat plainRep).Meets hash .empty := by
  refine ⟨by decide, ⟨plainHex, bytesOf "\x7d", ⟨bytesOf "\x7b", bytesOf ":", rfl, isGap_colon, ?_⟩,
    by decide⟩, .inl ⟨by decide, by decide, fun _ _ other hother => ?_⟩⟩
  · decide
  · cases hother

theorem korvo_answersRight_plain : AnswersRight (fun _ => (0, 0)) plainRequests := by
  have hescape : NoEscape plainString.bytes := by
    intro before hi lo rest heq
    have hlength := congrArg List.length heq
    rw [List.length_append, List.length_cons, List.length_cons, List.length_cons] at hlength
    have hone : plainString.bytes.length = 1 := rfl
    omega
  have hint : IsInt 7 := by decide
  have hid : (KorvoCall.getFormat plainID none).Meets (fun _ => (0, 0)) .empty := by
    refine ⟨by decide, by decide, by decide, by decide⟩
  exact korvo_answersRight ⟨plainFormat_meets _, fun _ _ => ⟨hid, fun _ _ =>
    ⟨plainBody_meets _ _, fun _ _ => ⟨hescape, fun _ _ => ⟨hint, fun _ _ => trivial⟩⟩⟩⟩⟩

def quoteBody : CString :=
  { bytes := bytesOf "\x7b\"string\":\"\\\"\",\"atom\":7\x7d", noNul := by decide }

def quoteString : CString := { bytes := bytesOf "\"", noNul := by decide }

theorem quote_stringText : Json.StringText quoteString.bytes (quoted (bytesOf "\\\"")) := by
  refine ⟨[(bytesOf "\\\"", bytesOf "\"")], ?_, rfl, rfl⟩
  intro c hc
  rw [List.mem_singleton.mp hc]
  exact .escaped (by decide)

def quoteRequests : List KorvoRequest :=
  [⟨.postAtom quoteBody quoteString.bytes 7, atomBody_wellFormed quote_stringText (by decide)⟩,
   ⟨.getByString quoteString, trivial⟩]

theorem quote_notFound :
    ((korvoServer (fun _ => (0, 0)) .empty
        (KorvoCall.postAtom quoteBody quoteString.bytes 7).cgi).bind fun first =>
      (korvoServer (fun _ => (0, 0)) first.1 (KorvoCall.getByString quoteString).cgi).map
        fun second => second.2.status) = some 404 := by
  decide

/-- The number of a string that is a quote is not found. -/
theorem not_answersRight_quote : ¬ AnswersRight (fun _ => (0, 0)) quoteRequests := by
  intro h
  obtain ⟨store, hrun, store', r, hserver, hanswer⟩ := h
    [⟨.postAtom quoteBody quoteString.bytes 7, atomBody_wellFormed quote_stringText (by decide)⟩]
    ⟨.getByString quoteString, trivial⟩ [] rfl
  have hfound : KorvoCall.Found r "atom" (.number (decimal 7)) := hanswer
  have hstatus := quote_notFound
  rw [run, List.foldlM_cons, Option.bind_eq_bind] at hrun
  obtain ⟨first, hfirst, hstep⟩ := Option.bind_eq_some_iff.mp hrun
  obtain ⟨posted, hposted, rfl⟩ := Option.map_eq_some_iff.mp hfirst
  cases hstep
  rw [hposted, Option.bind_some, hserver] at hstatus
  exact absurd (hfound.1.symm.trans (Option.some.inj hstatus)) (by decide)

end FFS
