import FFS.Server.KorvoTexts

/-!
# Formats over HTTP

`http_server_register_format` sends a representation as hex digits in a JSON text and finds the
ID in the JSON text that comes back; `http_server_get_format` sends an ID in a path and finds
the representation.  A text is a C string, its bytes before the first zero.
-/

namespace FFS

open Machine

/-! ## The client -/

/-- `hex_encode`, with an `int` for the positions in `out`. -/
def hexEncodeInto (data : List UInt8) : Option (List UInt8) :=
  if 2 * data.length < 2 ^ 31 then some (hexEncode data) else none

/-- The pattern of `json_extract_string`, in an array of 256 bytes. -/
def jsonPattern (key : List UInt8) : List UInt8 := (quoted key).take 255

/-- The string that begins behind blanks, tabs and colons. -/
def stringValue (text : List UInt8) : Option (List UInt8) :=
  match text.dropWhile isGap with
  | [] => none
  | c :: start =>
    if c ≠ chr '"' then none
    else (strchr start (chr '"')).map fun _ => start.takeWhile (· ≠ chr '"')

/-- `json_extract_string` -/
def jsonExtractString (json key : List UInt8) : Option (List UInt8) :=
  (strstr (jsonPattern key) json).bind fun p => stringValue (p.drop (jsonPattern key).length)

def serverIDKey : List UInt8 := bytesOf "server_id"

def formatRepKey : List UInt8 := bytesOf "format_rep"

/-- The JSON text around a representation. -/
def formatRepBody (rep : List UInt8) : List UInt8 :=
  (jsonOk formatRepKey (quoted (hexEncode rep))).body

def postHeader (host basePath : List UInt8) (contentLength : Nat) : List UInt8 :=
  bytesOf "POST " ++ (basePath ++ bytesOf "/v1/formats").take 2047 ++
    bytesOf " HTTP/1.1\r\nHost: " ++ host ++
    bytesOf "\r\nContent-Type: application/json\r\nContent-Length: " ++ decimal contentLength ++
    bytesOf "\r\n\r\n"

/-- The request of `http_server_register_format`, in an array of `request_len` bytes.  There is
none when an `int` does not hold that length. -/
def postRequest (host basePath rep : List UInt8) : Option (List UInt8) :=
  let jsonLen := (formatRepBody rep).length
  let requestLen := jsonLen + 512
  if requestLen < 2 ^ 31 then
    some ((postHeader host basePath jsonLen ++ formatRepBody rep).take (requestLen - 1))
  else none

/-- The bytes that `hex_decode` stores for an even number of digits.  Those from the first pair
that is not hex on are left as `malloc` gave them. -/
def decodePairs : List UInt8 → List (Option UInt8)
  | hi :: lo :: rest =>
    match hexDecode [hi, lo] with
    | some b => b.map some ++ decodePairs rest
    | none => List.replicate (rest.length / 2 + 1) none
  | _ => []

/-- The memory of `server_ID.value`.  Nothing is stored for an odd number of digits. -/
def serverIDValue (hexID : List UInt8) : List (Option UInt8) :=
  if hexID.length % 2 ≠ 0 then List.replicate (hexID.length / 2) none else decodePairs hexID

/-- The end of `http_server_register_format`: the ID that a format gets from an answer. -/
def registeredID (status : Nat) (body : List UInt8) : Option (List (Option UInt8)) :=
  if status ≠ 200 then none else (jsonExtractString body serverIDKey).map serverIDValue

/-- The size of the ID that `http_server_get_format` sends. -/
def httpIDSize (buffer : List UInt8) : Nat := (idLength (versionOfFormatID buffer)).getD 8

/-- The path that `http_server_get_format` asks for. -/
def getPath (basePath buffer : List UInt8) : List UInt8 :=
  (basePath ++ bytesOf "/v1/formats/" ++ hexEncode (buffer.take (httpIDSize buffer))).take 2047

/-- The request of `http_server_get_format`. -/
def getRequest (host basePath buffer : List UInt8) : List UInt8 :=
  let path := getPath basePath buffer
  (bytesOf "GET " ++ path ++ bytesOf " HTTP/1.1\r\nHost: " ++ host ++
    bytesOf "\r\n\r\n").take (path.length + 511)

/-- The end of `http_server_get_format`: the representation that is expanded. -/
def fetchedRep (status : Nat) (body : List UInt8) : Option (List UInt8) :=
  if status ≠ 200 then none else (jsonExtractString body formatRepKey).bind hexDecode

/-! ## The search -/

/-- The first place of `pattern` in a text has nothing but blanks, tabs and colons between it and
`value` in quotes. -/
def FoundFirst (pattern value json : List UInt8) : Prop :=
  chr '"' ∉ value ∧ ∃ before gap behind,
    json = before ++ (pattern ++ (gap ++ (quoted value ++ behind))) ∧
    (∀ c ∈ gap, isGap c = true) ∧ ∀ i < before.length, ¬ pattern <+: json.drop i

theorem strstr_eq_some {pattern json p : List UInt8} (hne : pattern ≠ [])
    (h : strstr pattern json = some p) : ∃ before, json = before ++ p ∧ pattern <+: p ∧
      ∀ i < before.length, ¬ pattern <+: json.drop i := by
  induction json with
  | nil =>
    rw [strstr, if_neg hne] at h
    cases h
  | cons c rest ih =>
    rw [strstr] at h
    split at h
    · next hhere =>
      cases h
      exact ⟨[], rfl, List.isPrefixOf_iff_prefix.mp hhere, fun i hi => absurd hi (Nat.not_lt_zero i)⟩
    · next hnot =>
      obtain ⟨before, rfl, hprefix, hfirst⟩ := ih h
      refine ⟨c :: before, rfl, hprefix, fun i hi => ?_⟩
      cases i with
      | zero => exact fun hhere => hnot (List.isPrefixOf_iff_prefix.mpr hhere)
      | succ i => exact hfirst i (Nat.lt_of_succ_lt_succ hi)

theorem jsonPattern_ne_nil (key : List UInt8) : jsonPattern key ≠ [] := by
  unfold jsonPattern quoted
  rw [List.take_succ_cons]
  exact List.cons_ne_nil _ _

theorem strchr_split {start tail : List UInt8} {c : UInt8} (h : strchr start c = some tail) :
    c ∉ start.takeWhile (· ≠ c) ∧
      ∃ behind, start = start.takeWhile (· ≠ c) ++ c :: behind := by
  refine ⟨fun hmem => ?_, ?_⟩
  · have hother := List.mem_takeWhile_imp hmem
    simp at hother
  · unfold strchr at h
    split at h
    · cases h
    · next t hdrop =>
      cases hrest : start.dropWhile (· ≠ c) with
      | nil => exact absurd hrest hdrop
      | cons d behind =>
        have hhead := List.head_dropWhile_not (· ≠ c) (l := start) (by rw [hrest]; simp)
        simp only [hrest, List.head_cons] at hhead
        have hd : d = c := by simpa using hhead
        refine ⟨behind, ?_⟩
        conv_lhs => rw [← List.takeWhile_append_dropWhile (p := (· ≠ c)) (l := start), hrest, hd]

theorem stringValue_eq_some {text value : List UInt8} : stringValue text = some value ↔
    chr '"' ∉ value ∧ ∃ gap behind, text = gap ++ (quoted value ++ behind) ∧
      ∀ c ∈ gap, isGap c = true := by
  constructor
  · intro h
    unfold stringValue at h
    split at h
    · cases h
    · next c start hrest =>
      split at h
      · cases h
      · next hquote =>
        obtain ⟨tail, htail, rfl⟩ := Option.map_eq_some_iff.mp h
        obtain ⟨hvalue, behind, hstart⟩ := strchr_split htail
        refine ⟨hvalue, text.takeWhile isGap, behind, ?_, fun c hc => List.mem_takeWhile_imp hc⟩
        have hc : c = chr '"' := not_not.mp hquote
        conv_lhs => rw [← List.takeWhile_append_dropWhile (p := isGap) (l := text), hrest, hc]
        rw [quoted, List.cons_append, List.append_assoc, List.singleton_append, ← hstart]
  · rintro ⟨hvalue, gap, behind, rfl, hgap⟩
    have hdrop : (gap ++ (quoted value ++ behind)).dropWhile isGap = quoted value ++ behind := by
      refine dropWhile_append_of_forall hgap fun c hc => ?_
      rw [quoted, List.cons_append, List.head?_cons, Option.mem_some_iff] at hc
      rw [← hc]
      decide
    rw [stringValue, hdrop, quoted, List.cons_append, List.append_assoc, List.singleton_append]
    dsimp only
    rw [if_neg (fun hne => hne rfl), strchr_append hvalue, Option.map_some,
      takeWhile_append_other hvalue]

/-- What the search finds. -/
theorem jsonExtractString_eq_some {json key value : List UInt8} :
    jsonExtractString json key = some value ↔ FoundFirst (jsonPattern key) value json := by
  constructor
  · intro h
    obtain ⟨p, hp, hstring⟩ := Option.bind_eq_some_iff.mp h
    obtain ⟨before, rfl, ⟨rest, rfl⟩, hfirst⟩ := strstr_eq_some (jsonPattern_ne_nil key) hp
    rw [List.drop_left] at hstring
    obtain ⟨hvalue, gap, behind, rfl, hgap⟩ := stringValue_eq_some.mp hstring
    exact ⟨hvalue, before, gap, behind, rfl, hgap, hfirst⟩
  · rintro ⟨hvalue, before, gap, behind, rfl, hgap, hfirst⟩
    have hprefix : jsonPattern key <+: jsonPattern key ++ (gap ++ (quoted value ++ behind)) :=
      List.prefix_append _ _
    rw [jsonExtractString, strstr_append hprefix (jsonPattern_ne_nil key) hfirst,
      Option.bind_some, List.drop_left]
    exact stringValue_eq_some.mpr ⟨hvalue, gap, behind, rfl, hgap⟩

/-- The server finds its members in the same way. -/
theorem jsonExtractString_eq (json : List UInt8) {key : List UInt8} (hkey : key.length ≤ 253) :
    jsonExtractString json key = jsonGetString json key := by
  have hpattern : jsonPattern key = quoted key := by
    rw [jsonPattern, List.take_of_length_le]
    simp only [quoted, List.length_cons, List.length_append, List.length_nil]
    omega
  unfold jsonExtractString jsonGetString jsonValue
  rw [hpattern]
  cases strstr (quoted key) json with
  | none => rfl
  | some p =>
    show stringValue (p.drop (quoted key).length) = _
    unfold stringValue
    cases hrest : (p.drop (quoted key).length).dropWhile isGap with
    | nil => simp [hrest]
    | cons c start =>
      simp only [Option.bind_eq_bind, Option.bind_some, Option.pure_def, hrest]
      split
      · rfl
      · cases strchr start (chr '"') <;> rfl

/-! ## Digits -/

/-- An odd number of digits, or a character that is none. -/
def Malformed (hex : List UInt8) : Prop := hex.length % 2 = 1 ∨ ∃ c ∈ hex, hexValue c = none

theorem hexDecode_pair {hi lo : UInt8} {rest : List UInt8} :
    hexDecode (hi :: lo :: rest) = (hexValue hi).bind fun h => (hexValue lo).bind fun l =>
      (hexDecode rest).map fun ds => UInt8.ofNat (h * 16 + l) :: ds := by
  rw [hexDecode]
  cases hexValue hi <;> cases hexValue lo <;> cases hexDecode rest <;> rfl

theorem hexDecode_eq_none {hex : List UInt8} : hexDecode hex = none ↔ Malformed hex := by
  induction hex using hexDecode.induct with
  | case1 => simp [hexDecode, Malformed]
  | case2 => simp [hexDecode, Malformed]
  | case3 hi lo rest ih =>
    have hparity : (hi :: lo :: rest).length % 2 = rest.length % 2 := by
      rw [List.length_cons, List.length_cons]
      omega
    rw [hexDecode_pair, Malformed, hparity]
    cases hhi : hexValue hi with
    | none => simp [hhi]
    | some h =>
      cases hlo : hexValue lo with
      | none => simp [hlo]
      | some l => simp [hhi, hlo, ih, Malformed]

theorem decodePairs_eq {hex bytes : List UInt8} (heven : hex.length % 2 = 0) :
    decodePairs hex = bytes.map some ↔ hexDecode hex = some bytes := by
  induction hex using hexDecode.induct generalizing bytes with
  | case1 => cases bytes <;> simp [decodePairs, hexDecode]
  | case2 => simp at heven
  | case3 hi lo rest ih =>
    have hrest : rest.length % 2 = 0 := by
      rw [List.length_cons, List.length_cons] at heven
      omega
    rw [hexDecode_pair, decodePairs, hexDecode_pair]
    cases hexValue hi with
    | none => cases bytes <;> simp [List.replicate_succ]
    | some h =>
      cases hexValue lo with
      | none => cases bytes <;> simp [List.replicate_succ]
      | some l =>
        cases bytes with
        | nil => simp [hexDecode]
        | cons b bytes =>
          simp only [hexDecode, Option.bind_some, Option.map_some, List.map_cons, List.map_nil,
            List.singleton_append, List.cons.injEq, Option.some.injEq, ih hrest,
            Option.map_eq_some_iff]
          constructor
          · rintro ⟨hb, hds⟩
            exact ⟨bytes, hds, hb, rfl⟩
          · rintro ⟨ds, hds, hb, rfl⟩
            exact ⟨hb, hds⟩

/-- An ID is what the digits stand for. -/
theorem serverIDValue_eq {hex id : List UInt8} (hne : id ≠ []) :
    serverIDValue hex = id.map some ↔ hexDecode hex = some id := by
  unfold serverIDValue
  by_cases hodd : hex.length % 2 ≠ 0
  · rw [if_pos hodd, hexDecode_eq_none.mpr (.inl (by omega))]
    cases id with
    | nil => exact absurd rfl hne
    | cons b id => cases hex.length / 2 <;> simp [List.replicate_succ]
  · rw [if_neg hodd]
    exact decodePairs_eq (by omega)

/-! ## Exchanges -/

/-- A JSON text in which the digits of `bytes` are the value of a key. -/
def AnswersWith (key bytes body : List UInt8) : Prop :=
  ∃ members value, Json.Document (.object members) body ∧ (key, .string value) ∈ members ∧
    hexDecode value = some bytes

/-- A registration and a look-up of a format, and what the server answers to them.  The host and
the path are those of `parse_http_url`. -/
structure HttpExchange where
  host : List UInt8
  basePath : List UInt8
  rep : List UInt8
  id : List UInt8
  registered : List UInt8
  fetched : List UInt8
  host_fits : host.length ≤ 255
  basePath_fits : basePath.length ≤ 511
  id_size : httpIDSize id = id.length
  answersID : AnswersWith serverIDKey id registered
  answersRep : AnswersWith formatRepKey rep fetched

/-- Both requests are sent whole, the server reads from them what was meant, and the client gets
the ID and the representation. -/
structure HttpExchange.Delivers (x : HttpExchange) : Prop where
  post : postRequest x.host x.basePath x.rep =
    some (postHeader x.host x.basePath (formatRepBody x.rep).length ++ formatRepBody x.rep)
  posted : (jsonGetString (formatRepBody x.rep) formatRepKey).bind hexDecode = some x.rep
  registered : registeredID 200 x.registered = some (x.id.map some)
  get : getRequest x.host x.basePath x.id =
    bytesOf "GET " ++ (x.basePath ++ bytesOf "/v1/formats/" ++ hexEncode x.id) ++
      bytesOf " HTTP/1.1\r\nHost: " ++ x.host ++ bytesOf "\r\n\r\n"
  got : hexDecode (hexEncode x.id) = some x.id
  fetched : fetchedRep 200 x.fetched = some x.rep

/-- The lengths of the request are `int`s, its header has at most 511 bytes, and in the two
answers the key stands first before its own value, written in digits that need no escapes. -/
structure HttpExchange.Transferable (x : HttpExchange) : Prop where
  int : 2 * x.rep.length + 529 < 2 ^ 31
  header : (postHeader x.host x.basePath (2 * x.rep.length + 17)).length ≤ 511
  registered : ∃ t, FoundFirst (jsonPattern serverIDKey) t x.registered ∧
    hexDecode t = some x.id
  fetched : ∃ t, FoundFirst (jsonPattern formatRepKey) t x.fetched ∧ hexDecode t = some x.rep

theorem length_formatRepBody (rep : List UInt8) :
    (formatRepBody rep).length = 2 * rep.length + 17 := by
  simp only [formatRepBody, jsonOk, quoted, List.length_cons, List.length_append,
    length_hexEncode, List.length_nil]
  have hkey : formatRepKey.length = 10 := by decide
  omega

theorem postRequest_whole {host basePath rep : List UInt8} :
    postRequest host basePath rep =
        some (postHeader host basePath (formatRepBody rep).length ++ formatRepBody rep) ↔
      2 * rep.length + 529 < 2 ^ 31 ∧
        (postHeader host basePath (2 * rep.length + 17)).length ≤ 511 := by
  have hlen := length_formatRepBody rep
  unfold postRequest
  dsimp only
  split
  · next hint =>
    rw [Option.some.injEq, List.take_eq_self_iff, List.length_append, hlen]
    rw [hlen] at hint
    omega
  · next hint =>
    rw [hlen] at hint
    constructor
    · intro h
      cases h
    · intro h
      omega

/-- The server's own texts have the key first. -/
theorem foundFirst_framed {key value : List UInt8} (hkey : key.length ≤ 253)
    (hvalue : chr '"' ∉ value) :
    FoundFirst (jsonPattern key) value (jsonOk key (quoted value)).body := by
  have hpattern : jsonPattern key = quoted key := by
    rw [jsonPattern, List.take_of_length_le]
    simp only [quoted, List.length_cons, List.length_append, List.length_nil]
    omega
  refine ⟨hvalue, [chr '{'], [chr ':'], [chr '}'], ?_, ?_, ?_⟩
  · rw [hpattern]
    simp [jsonOk, quoted]
  · intro c hc
    rw [List.mem_singleton.mp hc]
    decide
  · intro i hi
    have hzero : i = 0 := by simpa using hi
    subst hzero
    rintro ⟨rest, hrest⟩
    rw [hpattern, quoted, List.cons_append, List.drop_zero] at hrest
    have hhead := (List.cons.inj hrest).1
    exact absurd hhead (by decide)

theorem quote_notMem_hexEncode (data : List UInt8) : chr '"' ∉ hexEncode data := by
  intro hmem
  obtain ⟨b, hb, hdigit⟩ := List.mem_flatMap.mp hmem
  have hlt := b.toNat_lt
  have hspec : ∀ d < 16, hexDigit d ≠ chr '"' := by decide
  simp only [List.mem_cons, List.not_mem_nil, or_false] at hdigit
  cases hdigit with
  | inl hhigh => exact hspec _ (by omega) hhigh.symm
  | inr hlow => exact hspec _ (by omega) hlow.symm

theorem jsonExtractString_framed {key : List UInt8} (hkey : key.length ≤ 253)
    (data : List UInt8) :
    jsonExtractString (jsonOk key (quoted (hexEncode data))).body key = some (hexEncode data) :=
  jsonExtractString_eq_some.mpr (foundFirst_framed hkey (quote_notMem_hexEncode data))

theorem posted_rep (rep : List UInt8) :
    (jsonGetString (formatRepBody rep) formatRepKey).bind hexDecode = some rep := by
  have hkey : formatRepKey.length ≤ 253 := by decide
  rw [← jsonExtractString_eq _ hkey, formatRepBody, jsonExtractString_framed hkey,
    Option.bind_some, hexDecode_hexEncode]

theorem httpIDSize_le (buffer : List UInt8) : httpIDSize buffer ≤ 12 ∧ 0 < httpIDSize buffer := by
  unfold httpIDSize idLength
  split <;> decide

theorem getRequest_whole (x : HttpExchange) : getRequest x.host x.basePath x.id =
    bytesOf "GET " ++ (x.basePath ++ bytesOf "/v1/formats/" ++ hexEncode x.id) ++
      bytesOf " HTTP/1.1\r\nHost: " ++ x.host ++ bytesOf "\r\n\r\n" := by
  have hhost := x.host_fits
  have hbase := x.basePath_fits
  have hsize := (httpIDSize_le x.id).1
  have hid := x.id_size
  have hprefix : (bytesOf "/v1/formats/").length = 12 := by decide
  have hmethod : (bytesOf "GET ").length = 4 := by decide
  have hversion : (bytesOf " HTTP/1.1\r\nHost: ").length = 17 := by decide
  have hend : (bytesOf "\r\n\r\n").length = 4 := by decide
  have hpath : getPath x.basePath x.id =
      x.basePath ++ bytesOf "/v1/formats/" ++ hexEncode x.id := by
    rw [getPath, hid, List.take_length, List.take_of_length_le]
    rw [List.length_append, List.length_append, length_hexEncode]
    omega
  unfold getRequest
  dsimp only
  rw [hpath, List.take_of_length_le]
  simp only [List.length_append, hmethod, hversion, hend]
  omega

theorem id_ne_nil (x : HttpExchange) : x.id ≠ [] := by
  have hpos := (httpIDSize_le x.id).2
  rw [x.id_size] at hpos
  exact List.length_pos_iff.mp hpos

theorem registeredID_eq {body id : List UInt8} (hne : id ≠ []) :
    registeredID 200 body = some (id.map some) ↔
      ∃ t, FoundFirst (jsonPattern serverIDKey) t body ∧ hexDecode t = some id := by
  rw [registeredID, if_neg (fun h => h rfl), Option.map_eq_some_iff]
  simp only [jsonExtractString_eq_some, serverIDValue_eq hne]

theorem fetchedRep_eq {body rep : List UInt8} : fetchedRep 200 body = some rep ↔
    ∃ t, FoundFirst (jsonPattern formatRepKey) t body ∧ hexDecode t = some rep := by
  rw [fetchedRep, if_neg (fun h => h rfl), Option.bind_eq_some_iff]
  simp only [jsonExtractString_eq_some]

theorem delivers_iff (x : HttpExchange) : x.Delivers ↔ x.Transferable := by
  constructor
  · intro h
    obtain ⟨hint, hheader⟩ := postRequest_whole.mp h.post
    exact ⟨hint, hheader, (registeredID_eq (id_ne_nil x)).mp h.registered,
      fetchedRep_eq.mp h.fetched⟩
  · intro h
    exact ⟨postRequest_whole.mpr ⟨h.int, h.header⟩, posted_rep x.rep,
      (registeredID_eq (id_ne_nil x)).mpr h.registered, getRequest_whole x,
      hexDecode_hexEncode x.id, fetchedRep_eq.mpr h.fetched⟩

/-- What the server writes is an answer. -/
theorem answersWith_framed {key : List UInt8} (hkey : ∀ b ∈ key, Json.IsPlain b)
    (data : List UInt8) : AnswersWith key data (jsonOk key (quoted (hexEncode data))).body := by
  have hplain : ∀ b ∈ hexEncode data, Json.IsPlain b := by
    intro b hb
    obtain ⟨d, -, hdigit⟩ := List.mem_flatMap.mp hb
    have hlt := d.toNat_lt
    have hspec : ∀ n < 16, Json.IsPlain (hexDigit n) := by decide
    simp only [List.mem_cons, List.not_mem_nil, or_false] at hdigit
    cases hdigit with
    | inl hhigh => exact hhigh ▸ hspec _ (by omega)
    | inr hlow => exact hlow ▸ hspec _ (by omega)
  have htext : Json.Text (.object [(key, .string (hexEncode data))])
      (jsonOk key (quoted (hexEncode data))).body :=
    Json.text_member hkey (.string (Json.stringText_plain hplain))
  refine ⟨_, hexEncode data, ⟨[], _, [], Json.blank_nil, htext, Json.blank_nil, ?_⟩,
    List.mem_singleton_self _, hexDecode_hexEncode data⟩
  simp

/-- An exchange with `korvo_server`. -/
def korvoExchange (host basePath rep id : List UInt8) (hhost : host.length ≤ 255)
    (hbase : basePath.length ≤ 511) (hid : httpIDSize id = id.length) : HttpExchange where
  host := host
  basePath := basePath
  rep := rep
  id := id
  registered := (jsonOk serverIDKey (quoted (hexEncode id))).body
  fetched := formatRepBody rep
  host_fits := hhost
  basePath_fits := hbase
  id_size := hid
  answersID := answersWith_framed (by decide +kernel) id
  answersRep := answersWith_framed (by decide +kernel) rep

/-- Its texts are no obstacle: every representation and ID is delivered whose request is sent
whole. -/
theorem korvoExchange_delivers {host basePath rep id : List UInt8} (hhost : host.length ≤ 255)
    (hbase : basePath.length ≤ 511) (hid : httpIDSize id = id.length)
    (hint : 2 * rep.length + 529 < 2 ^ 31)
    (hheader : (postHeader host basePath (2 * rep.length + 17)).length ≤ 511) :
    (korvoExchange host basePath rep id hhost hbase hid).Delivers :=
  (delivers_iff _).mpr ⟨hint, hheader,
    ⟨_, foundFirst_framed (by decide +kernel) (quote_notMem_hexEncode id), hexDecode_hexEncode id⟩,
    _, foundFirst_framed (by decide +kernel) (quote_notMem_hexEncode rep), hexDecode_hexEncode rep⟩

/-- A registration refuses an ID that is not hex. -/
def RegisterRefuses (body : List UInt8) : Prop :=
  ∀ t, FoundFirst (jsonPattern serverIDKey) t body → Malformed t → registeredID 200 body = none

theorem registerRefuses_iff {body : List UInt8} : RegisterRefuses body ↔
    ¬ ∃ t, FoundFirst (jsonPattern serverIDKey) t body ∧ Malformed t := by
  constructor
  · rintro h ⟨t, hfound, hbad⟩
    have hnone := h t hfound hbad
    rw [registeredID, if_neg (fun h => h rfl), jsonExtractString_eq_some.mpr hfound] at hnone
    cases hnone
  · intro h t hfound hbad
    exact absurd ⟨t, hfound, hbad⟩ h

/-- What is delivered: hex digits that an `int` counts, the value of a key that stands first
before it, and an exchange with such answers and a short header.  Malformed hex is refused by
`hex_decode` and by a look-up, and by a registration only where it meets none. -/
theorem http_transfer (b t key value body : List UInt8) (x : HttpExchange) :
    ((hexEncodeInto b).bind hexDecode = some b ↔ 2 * b.length < 2 ^ 31) ∧
    (Malformed t → hexDecode t = none) ∧
    (∀ members, Json.Document (.object members) body → (key, Json.string value) ∈ members →
      (jsonExtractString body key = some value ↔ FoundFirst (jsonPattern key) value body)) ∧
    (x.Delivers ↔ x.Transferable) ∧
    (FoundFirst (jsonPattern formatRepKey) t body → Malformed t → fetchedRep 200 body = none) ∧
    (RegisterRefuses body ↔
      ¬ ∃ t, FoundFirst (jsonPattern serverIDKey) t body ∧ Malformed t) := by
  refine ⟨?_, hexDecode_eq_none.mpr, fun _ _ _ => jsonExtractString_eq_some, delivers_iff x,
    fun hfound hbad => ?_, registerRefuses_iff⟩
  · unfold hexEncodeInto
    split
    · next hint => exact iff_of_true (hexDecode_hexEncode b) hint
    · next hint => exact iff_of_false (fun h => by cases h) hint
  · rw [fetchedRep, if_neg (fun h => h rfl), jsonExtractString_eq_some.mpr hfound,
      Option.bind_some, hexDecode_eq_none.mpr hbad]

/-- A member whose value is the key that is asked for. -/
def namesakeBody : List UInt8 :=
  chr '{' :: (quoted (bytesOf "name") ++ chr ':' :: quoted serverIDKey ++ chr ',' ::
    (quoted serverIDKey ++ chr ':' :: (quoted (bytesOf "00ff") ++ [chr '}'])))

/-- The ID is not found behind such a member, and two letters that are no digits are taken for
an ID of one byte that nothing has stored. -/
theorem namesakeBody_lost :
    (∃ members, Json.Document (.object members) namesakeBody ∧
      (serverIDKey, Json.string (bytesOf "00ff")) ∈ members) ∧
    jsonExtractString namesakeBody serverIDKey = none ∧
    Malformed (bytesOf "zz") ∧
    registeredID 200 (jsonOk serverIDKey (quoted (bytesOf "zz"))).body = some [none] := by
  have hplain : ∀ s ∈ [bytesOf "name", serverIDKey, bytesOf "00ff"], ∀ b ∈ s, Json.IsPlain b := by
    decide +kernel
  have hfirst : Json.Member (bytesOf "name") (.string serverIDKey)
      ([] ++ quoted (bytesOf "name") ++ [] ++ chr ':' :: ([] ++ quoted serverIDKey ++ [])) :=
    .mk Json.blank_nil Json.blank_nil Json.blank_nil Json.blank_nil
      (Json.stringText_plain (hplain _ (by simp)))
      (.string (Json.stringText_plain (hplain _ (by simp))))
  have hsecond : Json.Member serverIDKey (.string (bytesOf "00ff"))
      ([] ++ quoted serverIDKey ++ [] ++ chr ':' :: ([] ++ quoted (bytesOf "00ff") ++ [])) :=
    .mk Json.blank_nil Json.blank_nil Json.blank_nil Json.blank_nil
      (Json.stringText_plain (hplain _ (by simp)))
      (.string (Json.stringText_plain (hplain _ (by simp))))
  have htext := Json.Text.object (.cons hfirst (.last hsecond) (List.cons_ne_nil _ _))
  refine ⟨⟨_, ⟨[], _, [], Json.blank_nil, htext, Json.blank_nil, ?_⟩, by simp⟩, ?_, ?_, ?_⟩
  · simp [namesakeBody]
  · decide
  · exact .inr ⟨chr 'z', by decide, by decide⟩
  · decide

end FFS
