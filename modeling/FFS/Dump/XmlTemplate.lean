import FFS.FM.TypeString
import FFS.Machine.Fallible

/-!
# Templates of XML

A format can carry a text with tags in it, by which a record is written as XML.
`buildXMLOutputInfo` is `build_XML_output_info` of `xml.c`, which cuts the text into entries: an
entry for every tag of a field and for every group of tags around the elements of an array.  Of an
entry the number of its field stands for all that is looked up under it.
-/

namespace FFS
namespace Xml

open Machine

/-- Why the scanner does not go on: it reads what is not in the block or in the list of fields,
uses an entry that it has not allocated, or copies a piece of negative length. -/
inductive XmlStop where
  | outside
  | noField
  | unallocated
  | negative
deriving DecidableEq

/-! ## Tags -/

def isAlnum (c : UInt8) : Bool :=
  (chr '0' ≤ c && c ≤ chr '9') || (chr 'a' ≤ toLower c && toLower c ≤ chr 'z')

/-- `is_tag`, on a text that ends with the block. -/
def isTag : List UInt8 → List UInt8 → Option Bool
  | [], [] => none
  | [], c :: _ => some (!(isAlnum c || c == chr '_' || c == chr '-'))
  | _ :: _, [] => none
  | a :: name, c :: s => if c = a then isTag name s else some false

inductive TagKind where
  | arrayEnd
  | data
  | array
  | mark
deriving DecidableEq

def tagName : TagKind → List UInt8
  | .arrayEnd => chars ['/', 'F', 'F', 'S', ':', 'a', 'r', 'r', 'a', 'y']
  | .data => chars ['F', 'F', 'S', ':', 'd', 'a', 't', 'a']
  | .array => chars ['F', 'F', 'S', ':', 'a', 'r', 'r', 'a', 'y']
  | .mark => chars ['F', 'F', 'S', ':', 'a', 'r', 'r', 'a', 'y', '_', 'd', 'a', 't', 'a', '_', 'm',
      'a', 'r', 'k']

/-- The first of some tags that a text begins with. -/
def firstTag : List TagKind → List UInt8 → Option (Option TagKind)
  | [], _ => some none
  | kind :: kinds, s => do
    if ← isTag (tagName kind) s then return some kind
    else firstTag kinds s

/-- The tag behind a `<`, the tags being tried in this order. -/
def tagAt (s : List UInt8) : Option (Option TagKind) := firstTag [.arrayEnd, .data, .array, .mark] s

/-! ## Attributes -/

/-- The text behind the sign of equality of an attribute, if it begins there. -/
def attrValue (name start : List UInt8) : Option (List UInt8) :=
  if isTag name start = some true then
    match (start.drop name.length).dropWhile isSpace with
    | [] => none
    | c :: point => if c = chr '=' then some point else none
  else none

def isNameChar (c : UInt8) : Bool := isAlnum c || c == chr '_'

/-- `get_str_attr` on the text up to the `>` of a tag, which the block goes on behind. -/
def getStrAttr (name behind : List UInt8) : List UInt8 → Option (Option (List UInt8))
  | [] => some none
  | c :: start =>
    if (c :: start).length ≤ name.length then some none
    else match attrValue name (c :: start) with
      | none => getStrAttr name behind start
      | some point =>
        match point.dropWhile isSpace with
        | [] => some (some [])
        | q :: rest =>
          if q = chr '"' then
            if chr '"' ∈ rest then some (some (rest.takeWhile (· ≠ chr '"')))
            else if chr '"' ∈ behind then getStrAttr name behind start
            else none
          else some (some ((q :: rest).takeWhile isNameChar))

/-- `get_int_attr` -/
def getIntAttr (name : List UInt8) : List UInt8 → Option Int
  | [] => none
  | c :: start =>
    if (c :: start).length ≤ name.length then none
    else match attrValue name (c :: start) with
      | none => getIntAttr name start
      | some point =>
        let (value, rest) := strtol 10 point
        if rest.length = point.length then none else some (signed 4 (unsigned 4 value))

def fieldNameAttr : List UInt8 := chars ['f', 'i', 'e', 'l', 'd', '_', 'n', 'a', 'm', 'e']

def fieldIdAttr : List UInt8 := chars ['f', 'i', 'e', 'l', 'd', '_', 'i', 'd']

/-- `get_field_num` -/
def getFieldNum (fields : List FMField) (attrs behind : List UInt8) :
    Except XmlStop (Option Nat) :=
  match getStrAttr fieldNameAttr behind attrs with
  | none => .error .outside
  | some (some name) =>
    if fields = [] then .error .noField
    else .ok (fields.findIdx? (·.fieldName.bytes = name))
  | some none =>
    match getIntAttr fieldIdAttr attrs with
    | none => .ok none
    | some n =>
      if (fields.length : Int) ≤ n then .ok none
      else if n < 0 then .error .noField
      else .ok (some n.toNat)

/-! ## Entries -/

/-- An entry.  What is not stored in it, or is NULL, is `none`. -/
structure XmlEntry where
  prestring : Option (List UInt8)
  fieldNum : Option Nat
  elementPrestring : Option (List UInt8)
  elementPoststring : Option (List UInt8)
  poststring : Option (List UInt8)
deriving DecidableEq

def XmlEntry.empty : XmlEntry := ⟨none, none, none, none, none⟩

/-- The scanner between two characters: the entries that are counted, the one behind them, how many
are allocated behind the counted ones, and the text from the last mark on. -/
structure XmlState where
  entries : List XmlEntry
  current : XmlEntry
  room : Nat
  since : List UInt8

namespace XmlState

def start : XmlState := ⟨[], .empty, 0, []⟩

def push (st : XmlState) (text : List UInt8) : XmlState := { st with since := st.since ++ text }

/-- A tag for a field: an entry of its own. -/
def dataEntry (st : XmlState) (field : Nat) : XmlState where
  entries := st.entries ++ [⟨some st.since, some field, none, none, none⟩]
  current := .empty
  room := 1
  since := []

/-- The start of an array.  The first entry is in new memory, another may have something in it. -/
def openArray (st : XmlState) : XmlState where
  entries := st.entries
  current := { (if st.entries = [] then XmlEntry.empty else st.current) with
    prestring := some st.since, poststring := none }
  room := 2
  since := []

/-- The place of the elements of an array. -/
def marked (st : XmlState) (field : Nat) : XmlState :=
  { st with
    current := { st.current with elementPrestring := some st.since, fieldNum := some field },
    since := [] }

/-- The end of an array. -/
def closed (st : XmlState) : XmlState where
  entries := st.entries ++ [{ st.current with elementPoststring := some st.since }]
  current := .empty
  room := st.room - 1
  since := []

/-- A step that uses the entry behind those that are counted. -/
def allocated (st st' : XmlState) : Except XmlStop XmlState :=
  if st.room = 0 then .error .unallocated else .ok st'

/-- The end of the block, `beyond` characters in front of the last mark. -/
def finish (st : XmlState) (beyond : Nat) : Except XmlStop (Option (List XmlEntry)) :=
  match st.entries.getLast? with
  | none => .ok none
  | some last =>
    if 0 < beyond then .error .negative
    else if st.room = 0 then .error .unallocated
    else .ok (some (st.entries.dropLast ++ [{ last with poststring := some st.since }]))

end XmlState

/-- The text between the name of a tag, or what counts as its name, and the next `>`, with what is
from there on. -/
def tagText (nameLength : Nat) (s : List UInt8) : Except XmlStop (List UInt8 × List UInt8) :=
  let attrs := (s.drop nameLength).takeWhile (· ≠ chr '>')
  let behind := (s.drop nameLength).dropWhile (· ≠ chr '>')
  if behind = [] then .error .outside else .ok (attrs, behind)

/-- The loop over the block.  First `drop` characters are passed over in front of the last mark,
then `keep` characters behind it that are not looked at. -/
def scan (fields : List FMField) :
    XmlState → Nat → Nat → List UInt8 → Except XmlStop (Option (List XmlEntry))
  | st, drop, _, [] => st.finish drop
  | st, drop + 1, keep, _ :: s => scan fields st drop keep s
  | st, 0, keep + 1, c :: s => scan fields (st.push [c]) 0 keep s
  | st, 0, 0, c :: s =>
    if c ≠ chr '<' then scan fields (st.push [c]) 0 0 s
    else match tagAt s with
      | none => .error .outside
      | some none => scan fields (st.push [c]) 0 0 s
      | some (some .arrayEnd) => do
        -- twelve characters are the tag, and `i` is moved by thirteen before it is counted up
        let st ← st.allocated st.closed
        scan fields st 12 1 s
      | some (some .data) => do
        let (attrs, behind) ← tagText 8 s
        match ← getFieldNum fields attrs behind with
        | none => scan fields (st.push [c]) 0 (8 + attrs.length + 1) s
        | some field => scan fields (st.dataEntry field) (8 + attrs.length + 1) 0 s
      | some (some .array) => do
        let (attrs, _) ← tagText 9 s
        scan fields st.openArray (9 + attrs.length + 1) 0 s
      | some (some .mark) => do
        let (attrs, behind) ← tagText 8 s
        match ← getFieldNum fields attrs behind with
        | none => scan fields (st.push [c]) 0 (8 + attrs.length + 1) s
        | some field => do
          let st ← st.allocated (st.marked field)
          scan fields st (8 + attrs.length + 1) 0 s

/-- `build_XML_output_info` on a block that the format has. -/
def buildXMLOutputInfo (fields : List FMField) (block : CString) :
    Except XmlStop (Option (List XmlEntry)) :=
  scan fields .start 0 0 block.bytes

/-! ## Writing a record -/

/-- `internal_record_to_XML_string`, `values` being the texts of the elements of a field, and
`simple` the fields that are no records. -/
def recordText (values : Nat → List (List UInt8)) (simple : Nat → Bool) :
    List XmlEntry → List UInt8
  | [] => []
  | e :: entries =>
    match e.fieldNum with
    | none => []
    | some field =>
      let blank := e.elementPrestring = none ∧ e.elementPoststring = none ∧ simple field = true
      e.prestring.getD [] ++
        (values field).flatMap (fun value =>
          e.elementPrestring.getD [] ++ value ++ e.elementPoststring.getD [] ++
            if blank then [chr ' '] else []) ++
        e.poststring.getD [] ++ recordText values simple entries

/-! ## What a template says -/

/-- A tag for a field, or the tags around the elements of an array, with the text up to the next
tag.  What stands in a tag behind its name is given with it. -/
inductive TemplateItem where
  | data (attrs : List UInt8) (field : Nat) (text : List UInt8)
  | group (openAttrs before markAttrs : List UInt8) (field : Nat) (after blanks text : List UInt8)

/-- A tag with its brackets. -/
def tagSource (kind : TagKind) (attrs : List UInt8) : List UInt8 :=
  chr '<' :: (tagName kind ++ (attrs ++ [chr '>']))

namespace TemplateItem

def text : TemplateItem → List UInt8
  | data _ _ text => text
  | group _ _ _ _ _ _ text => text

def source : TemplateItem → List UInt8
  | data attrs _ text => tagSource .data attrs ++ text
  | group openAttrs before markAttrs _ after blanks text =>
    tagSource .array openAttrs ++ (before ++ (tagSource .mark markAttrs ++
      (after ++ (tagSource .arrayEnd blanks ++ text))))

/-- The entry of an item behind a text. -/
def entry (front : List UInt8) : TemplateItem → XmlEntry
  | data _ field _ => ⟨some front, some field, none, none, none⟩
  | group _ before _ field after _ _ => ⟨some front, some field, some before, some after, none⟩

/-- What stands for an item in the text of a record.  Elements without text around them are
followed by blanks. -/
def valueText (values : Nat → List (List UInt8)) (simple : Nat → Bool) :
    TemplateItem → List UInt8
  | data _ field _ =>
    (values field).flatMap fun value => value ++ if simple field then [chr ' '] else []
  | group _ before _ field after _ _ =>
    (values field).flatMap fun value => before ++ value ++ after

end TemplateItem

/-- A text with tags in it: what is in front of them, and the tags. -/
structure Template where
  first : List UInt8
  items : List TemplateItem

/-- The text of some items. -/
def sourceOf (items : List TemplateItem) : List UInt8 := items.flatMap TemplateItem.source

/-- No tag begins in a text that something follows. -/
def Plain (text behind : List UInt8) : Prop :=
  ∀ a b, text = a ++ chr '<' :: b → ∀ kind, tagAt (b ++ behind) ≠ some (some kind)

/-- A tag is complete: nothing behind its name goes on with the name, or is a bracket. -/
structure TagEnds (attrs : List UInt8) : Prop where
  noEnd : chr '>' ∉ attrs
  noStart : chr '<' ∉ attrs
  name : isTag [] (attrs ++ [chr '>']) = some true

/-- Items that are complete, name fields and are nested well. -/
def ItemsWellFormed (fields : List FMField) : List TemplateItem → Prop
  | [] => True
  | .data attrs field text :: items =>
    TagEnds attrs ∧
    getFieldNum fields attrs (chr '>' :: (text ++ sourceOf items)) = .ok (some field) ∧
    Plain text (sourceOf items) ∧ ItemsWellFormed fields items
  | .group openAttrs before markAttrs field after blanks text :: items =>
    let behindAfter := tagSource .arrayEnd blanks ++ (text ++ sourceOf items)
    TagEnds openAttrs ∧
    Plain before (tagSource .mark markAttrs ++ (after ++ behindAfter)) ∧
    TagEnds markAttrs ∧
    getFieldNum fields markAttrs (chr '>' :: (after ++ behindAfter)) = .ok (some field) ∧
    Plain after behindAfter ∧
    (∀ b ∈ blanks, isSpace b = true) ∧
    Plain text (sourceOf items) ∧ ItemsWellFormed fields items

/-- A block is a template whose tags are complete, name fields and are nested well. -/
structure Template.Reads (fields : List FMField) (block : CString) (t : Template) : Prop where
  source : block.bytes = t.first ++ sourceOf t.items
  first : Plain t.first (sourceOf t.items)
  items : ItemsWellFormed fields t.items

/-- The entries for some items behind a text. -/
def entriesOf : List UInt8 → List TemplateItem → List XmlEntry
  | _, [] => []
  | front, [item] => [{ item.entry front with poststring := some item.text }]
  | front, item :: items => item.entry front :: entriesOf item.text items

/-- The text of a record. -/
def Template.text (values : Nat → List (List UInt8)) (simple : Nat → Bool) (t : Template) :
    List UInt8 := t.first ++ t.items.flatMap fun item => item.valueText values simple ++ item.text

/-- A block is scanned as it should: the scanner comes to its end, and the entries of a template
are those that it says, by which a record is written. -/
def ScannedRight (fields : List FMField) (block : CString) : Prop :=
  ∃ result, buildXMLOutputInfo fields block = .ok result ∧
    ∀ t : Template, t.Reads fields block →
      result = some (entriesOf t.first t.items) ∧
      ∀ values simple, recordText values simple (entriesOf t.first t.items) =
        t.text values simple

/-! ## Blocks that are scanned to the end -/

/-- A text that is scanned to the end.  The scanner can tell behind every `<` that it looks at
whether a tag begins, finds the end of the tag and of its quotes, and no number in it is negative;
an entry is allocated where an array has its mark and its end; and behind the end of an array the
block goes on. -/
def Safe (fields : List FMField) : Bool → Nat → Nat → Nat → List UInt8 → Prop
  | counted, room, drop, _, [] => counted = true → drop = 0 ∧ 0 < room
  | counted, room, drop + 1, keep, _ :: s => Safe fields counted room drop keep s
  | counted, room, 0, keep + 1, _ :: s => Safe fields counted room 0 keep s
  | counted, room, 0, 0, c :: s =>
    if c ≠ chr '<' then Safe fields counted room 0 0 s
    else match tagAt s with
      | none => False
      | some none => Safe fields counted room 0 0 s
      | some (some .arrayEnd) => 0 < room ∧ Safe fields true (room - 1) 12 1 s
      | some (some .data) =>
        match tagText 8 s with
        | .error _ => False
        | .ok (attrs, behind) =>
          match getFieldNum fields attrs behind with
          | .error _ => False
          | .ok none => Safe fields counted room 0 (8 + attrs.length + 1) s
          | .ok (some _) => Safe fields true 1 (8 + attrs.length + 1) 0 s
      | some (some .array) =>
        match tagText 9 s with
        | .error _ => False
        | .ok (attrs, _) => Safe fields counted 2 (9 + attrs.length + 1) 0 s
      | some (some .mark) =>
        match tagText 8 s with
        | .error _ => False
        | .ok (attrs, behind) =>
          match getFieldNum fields attrs behind with
          | .error _ => False
          | .ok none => Safe fields counted room 0 (8 + attrs.length + 1) s
          | .ok (some _) => 0 < room ∧ Safe fields counted room (8 + attrs.length + 1) 0 s

def SafeBlock (fields : List FMField) (block : CString) : Prop :=
  Safe fields false 0 0 0 block.bytes

/-- Whether an entry is counted. -/
def XmlState.counted (st : XmlState) : Bool := !st.entries.isEmpty

theorem finish_iff (st : XmlState) (beyond : Nat) :
    (∃ r, st.finish beyond = .ok r) ↔ (st.counted = true → beyond = 0 ∧ 0 < st.room) := by
  rw [XmlState.finish, XmlState.counted]
  cases hlast : st.entries.getLast? with
  | none =>
    rw [List.getLast?_eq_none_iff] at hlast
    rw [hlast]
    exact ⟨fun _ h => absurd h Bool.false_ne_true, fun _ => ⟨_, rfl⟩⟩
  | some last =>
    have hne : st.entries ≠ [] := fun hnil => by
      rw [hnil] at hlast
      cases hlast
    have hcounted : (!st.entries.isEmpty) = true := by simpa using hne
    simp only [hcounted, true_implies]
    by_cases hbeyond : 0 < beyond
    · rw [if_pos hbeyond]
      refine iff_of_false (fun ⟨r, h⟩ => by cases h) (by omega)
    · rw [if_neg hbeyond]
      by_cases hroom : st.room = 0
      · rw [if_pos hroom]
        refine iff_of_false (fun ⟨r, h⟩ => by cases h) (by omega)
      · rw [if_neg hroom]
        exact iff_of_true ⟨_, rfl⟩ (by omega)

@[simp] theorem counted_push (st : XmlState) (text : List UInt8) :
    (st.push text).counted = st.counted := rfl

@[simp] theorem room_push (st : XmlState) (text : List UInt8) :
    (st.push text).room = st.room := rfl

@[simp] theorem counted_dataEntry (st : XmlState) (field : Nat) :
    (st.dataEntry field).counted = true := by
  simp [XmlState.dataEntry, XmlState.counted]

@[simp] theorem counted_closed (st : XmlState) : st.closed.counted = true := by
  simp [XmlState.closed, XmlState.counted]

theorem ok_bind {α β : Type} (a : α) (f : α → Except XmlStop β) :
    (Except.ok a : Except XmlStop α) >>= f = f a := rfl

theorem exists_allocated_iff {β : Type} {st st' : XmlState} {f : XmlState → Except XmlStop β} :
    (∃ r, st.allocated st' >>= f = .ok r) ↔ 0 < st.room ∧ ∃ r, f st' = .ok r := by
  rw [XmlState.allocated]
  by_cases hroom : st.room = 0
  · rw [if_pos hroom]
    refine iff_of_false (fun ⟨r, h⟩ => by cases h) fun h => ?_
    omega
  · rw [if_neg hroom, and_iff_right (Nat.pos_of_ne_zero hroom)]
    rfl

theorem scan_iff_safe (fields : List FMField) (st : XmlState) (drop keep : Nat)
    (s : List UInt8) :
    (∃ r, scan fields st drop keep s = .ok r) ↔ Safe fields st.counted st.room drop keep s := by
  induction s generalizing st drop keep with
  | nil =>
    rw [scan, Safe]
    exact finish_iff st drop
  | cons c s ih =>
    cases drop with
    | succ drop => exact ih st drop keep
    | zero =>
      cases keep with
      | succ keep => exact ih (st.push [c]) 0 keep
      | zero =>
        have hstops : ∀ {e : XmlStop} {P : Prop}, ¬ P →
            ((∃ r, (Except.error e : Except XmlStop (Option (List XmlEntry))) = .ok r) ↔ P) :=
          fun hP => iff_of_false (fun ⟨r, h⟩ => by cases h) hP
        rw [scan, Safe]
        by_cases hc : c = chr '<'
        · rw [if_neg (not_not_intro hc), if_neg (not_not_intro hc)]
          cases htag : tagAt s with
          | none => exact hstops id
          | some kind =>
            cases kind with
            | none => exact ih (st.push [c]) 0 0
            | some kind =>
              cases kind with
              | arrayEnd =>
                have hnext := ih st.closed 12 1
                rw [counted_closed] at hnext
                exact exists_allocated_iff.trans (and_congr_right fun _ => hnext)
              | data =>
                dsimp only
                cases htext : tagText 8 s with
                | error e => exact hstops id
                | ok text =>
                  obtain ⟨attrs, behind⟩ := text
                  simp only [ok_bind]
                  cases hnum : getFieldNum fields attrs behind with
                  | error e => exact hstops id
                  | ok num =>
                    cases num with
                    | none => exact ih (st.push [c]) 0 _
                    | some field =>
                      have hnext := ih (st.dataEntry field) (8 + attrs.length + 1) 0
                      rw [counted_dataEntry] at hnext
                      exact hnext
              | array =>
                dsimp only
                cases htext : tagText 9 s with
                | error e => exact hstops id
                | ok text => exact ih st.openArray _ 0
              | mark =>
                dsimp only
                cases htext : tagText 8 s with
                | error e => exact hstops id
                | ok text =>
                  obtain ⟨attrs, behind⟩ := text
                  simp only [ok_bind]
                  cases hnum : getFieldNum fields attrs behind with
                  | error e => exact hstops id
                  | ok num =>
                    cases num with
                    | none => exact ih (st.push [c]) 0 _
                    | some field =>
                      exact exists_allocated_iff.trans
                        (and_congr_right fun _ => ih (st.marked field) _ 0)
        · rw [if_pos hc, if_pos hc]
          exact ih (st.push [c]) 0 0

/-! ## The parts of a template -/

theorem isTag_append (name s : List UInt8) : isTag name (name ++ s) = isTag [] s := by
  induction name with
  | nil => rfl
  | cons a name ih => rw [List.cons_append, isTag, if_pos rfl, ih]

theorem isTag_nil_append {attrs : List UInt8} (h : isTag [] (attrs ++ [chr '>']) = some true)
    (rest : List UInt8) : isTag [] (attrs ++ chr '>' :: rest) = some true := by
  cases attrs with
  | nil => exact h
  | cons c attrs => exact h

/-- What is behind the `<` of a tag. -/
theorem tagAt_tag (kind : TagKind) {attrs : List UInt8} (h : TagEnds attrs)
    (rest : List UInt8) : tagAt (tagName kind ++ (attrs ++ chr '>' :: rest)) =
      some (some kind) := by
  have hname := isTag_nil_append h.name rest
  have hself := isTag_append (tagName kind) (attrs ++ chr '>' :: rest)
  rw [hname] at hself
  cases kind with
  | arrayEnd =>
    rw [tagAt, firstTag, hself]
    rfl
  | data =>
    rw [tagAt, firstTag, firstTag, hself]
    rfl
  | array =>
    rw [tagAt, firstTag, firstTag, firstTag, hself]
    rfl
  | mark =>
    rw [tagAt, firstTag, firstTag, firstTag, firstTag, hself]
    rfl

theorem takeWhile_attrs {attrs : List UInt8} (h : chr '>' ∉ attrs) (rest : List UInt8) :
    (attrs ++ chr '>' :: rest).takeWhile (· ≠ chr '>') = attrs ∧
      (attrs ++ chr '>' :: rest).dropWhile (· ≠ chr '>') = chr '>' :: rest := by
  have hall : ∀ c ∈ attrs, decide (c ≠ chr '>') = true := fun c hc => by
    simpa using fun heq : c = chr '>' => h (heq ▸ hc)
  constructor
  · rw [List.takeWhile_append_of_pos hall, List.takeWhile_cons_of_neg (by simp),
      List.append_nil]
  · rw [List.dropWhile_append_of_pos hall, List.dropWhile_cons_of_neg (by simp)]

theorem tagText_eq (name : List UInt8) {attrs : List UInt8} (h : chr '>' ∉ attrs)
    (rest : List UInt8) :
    tagText name.length (name ++ (attrs ++ chr '>' :: rest)) =
      .ok (attrs, chr '>' :: rest) := by
  obtain ⟨htake, hdrop⟩ := takeWhile_attrs h rest
  rw [tagText, List.drop_left, htake, hdrop, if_neg (List.cons_ne_nil _ _)]

section

variable {fields : List FMField}

theorem scan_drop (st : XmlState) (keep : Nat) (text s : List UInt8) (drop : Nat) :
    scan fields st (text.length + drop) keep (text ++ s) = scan fields st drop keep s := by
  induction text with
  | nil => rw [List.length_nil, Nat.zero_add, List.nil_append]
  | cons c text ih =>
    rw [List.length_cons, Nat.add_right_comm]
    exact ih

theorem Plain.tail {c : UInt8} {text behind : List UInt8} (h : Plain (c :: text) behind) :
    Plain text behind := by
  intro a b hab kind
  exact h (c :: a) b (by rw [hab]; rfl) kind

/-- A scan that comes to its end goes over a text without tags. -/
theorem scan_plain {st : XmlState} {text s : List UInt8} (hplain : Plain text s)
    {r : Option (List XmlEntry)} (h : scan fields st 0 0 (text ++ s) = .ok r) :
    scan fields (st.push text) 0 0 s = .ok r := by
  induction text generalizing st with
  | nil =>
    rw [XmlState.push, List.append_nil]
    exact h
  | cons c text ih =>
    have hpush : (st.push [c]).push text = st.push (c :: text) := by
      rw [XmlState.push, XmlState.push, XmlState.push, List.append_assoc]
      rfl
    have hnext : scan fields (st.push [c]) 0 0 (text ++ s) = .ok r := by
      rw [List.cons_append, scan] at h
      by_cases hc : c = chr '<'
      · rw [if_neg (not_not_intro hc)] at h
        cases htag : tagAt (text ++ s) with
        | none =>
          rw [htag] at h
          cases h
        | some kind =>
          cases kind with
          | none =>
            rw [htag] at h
            exact h
          | some kind => exact absurd htag (hplain [] text (by rw [hc]; rfl) kind)
      · rw [if_pos hc] at h
        exact h
    rw [← hpush]
    exact ih hplain.tail hnext

theorem tagSource_append (kind : TagKind) (attrs s : List UInt8) :
    tagSource kind attrs ++ s = chr '<' :: (tagName kind ++ (attrs ++ chr '>' :: s)) := by
  rw [tagSource, List.cons_append, List.append_assoc, List.append_assoc, List.singleton_append]

theorem scan_data (st : XmlState) {attrs s : List UInt8} {field : Nat} (hends : TagEnds attrs)
    (hfield : getFieldNum fields attrs (chr '>' :: s) = .ok (some field)) :
    scan fields st 0 0 (tagSource .data attrs ++ s) = scan fields (st.dataEntry field) 0 0 s := by
  have htext : tagText 8 (tagName .data ++ (attrs ++ chr '>' :: s)) =
      .ok (attrs, chr '>' :: s) := tagText_eq (tagName .data) hends.noEnd s
  have hlength : 8 + attrs.length + 1 = (tagName .data ++ (attrs ++ [chr '>'])).length + 0 := by
    rw [List.length_append, List.length_append, Nat.add_assoc]
    rfl
  have hsplit : tagName .data ++ (attrs ++ chr '>' :: s) =
      tagName .data ++ (attrs ++ [chr '>']) ++ s := by
    rw [List.append_assoc, List.append_assoc, List.singleton_append]
  rw [tagSource_append, scan, if_neg (not_not_intro rfl), tagAt_tag .data hends]
  dsimp only
  rw [htext]
  simp only [ok_bind]
  rw [hfield]
  simp only [ok_bind]
  rw [hlength, hsplit, scan_drop]

theorem scan_array (st : XmlState) {attrs s : List UInt8} (hends : TagEnds attrs) :
    scan fields st 0 0 (tagSource .array attrs ++ s) = scan fields st.openArray 0 0 s := by
  have htext : tagText 9 (tagName .array ++ (attrs ++ chr '>' :: s)) =
      .ok (attrs, chr '>' :: s) := tagText_eq (tagName .array) hends.noEnd s
  have hlength : 9 + attrs.length + 1 = (tagName .array ++ (attrs ++ [chr '>'])).length + 0 := by
    rw [List.length_append, List.length_append, Nat.add_assoc]
    rfl
  have hsplit : tagName .array ++ (attrs ++ chr '>' :: s) =
      tagName .array ++ (attrs ++ [chr '>']) ++ s := by
    rw [List.append_assoc, List.append_assoc, List.singleton_append]
  rw [tagSource_append, scan, if_neg (not_not_intro rfl), tagAt_tag .array hends]
  dsimp only
  rw [htext]
  simp only [ok_bind]
  rw [hlength, hsplit, scan_drop]

/-- An attribute is not looked for where its first letter does not stand. -/
theorem attrValue_of_ne {a c : UInt8} (name start : List UInt8) (h : c ≠ a) :
    attrValue (a :: name) (c :: start) = none := by
  rw [attrValue, isTag, if_neg h, if_neg (by simp)]

theorem getStrAttr_cons_of_ne {a c : UInt8} (name behind start : List UInt8) (h : c ≠ a) :
    getStrAttr (a :: name) behind (c :: start) = getStrAttr (a :: name) behind start := by
  rw [getStrAttr, attrValue_of_ne name start h]
  split
  · next hlength =>
    cases start with
    | nil => rfl
    | cons d start =>
      rw [List.length_cons] at hlength
      rw [getStrAttr, if_pos (by omega)]
  · rfl

theorem getIntAttr_cons_of_ne {a c : UInt8} (name start : List UInt8) (h : c ≠ a) :
    getIntAttr (a :: name) (c :: start) = getIntAttr (a :: name) start := by
  rw [getIntAttr, attrValue_of_ne name start h]
  split
  · next hlength =>
    cases start with
    | nil => rfl
    | cons d start =>
      rw [List.length_cons] at hlength
      rw [getIntAttr, if_pos (by omega)]
  · rfl

theorem getFieldNum_cons {c : UInt8} (attrs behind : List UInt8) (h : c ≠ chr 'f') :
    getFieldNum fields (c :: attrs) behind = getFieldNum fields attrs behind := by
  have hstr : getStrAttr fieldNameAttr behind (c :: attrs) =
      getStrAttr fieldNameAttr behind attrs :=
    getStrAttr_cons_of_ne (chars ['i', 'e', 'l', 'd', '_', 'n', 'a', 'm', 'e']) behind attrs h
  have hint : getIntAttr fieldIdAttr (c :: attrs) = getIntAttr fieldIdAttr attrs :=
    getIntAttr_cons_of_ne (chars ['i', 'e', 'l', 'd', '_', 'i', 'd']) attrs h
  rw [getFieldNum, getFieldNum, hstr, hint]

/-- The rest of the name of the mark, behind what the scanner takes for its name. -/
def markRest : List UInt8 := chars ['y', '_', 'd', 'a', 't', 'a', '_', 'm', 'a', 'r', 'k']

theorem getFieldNum_append {text : List UInt8} (h : ∀ c ∈ text, c ≠ chr 'f')
    (attrs behind : List UInt8) :
    getFieldNum fields (text ++ attrs) behind = getFieldNum fields attrs behind := by
  induction text with
  | nil => rfl
  | cons c text ih =>
    rw [List.cons_append, getFieldNum_cons _ _ (h c List.mem_cons_self),
      ih fun d hd => h d (List.mem_cons_of_mem c hd)]

theorem scan_mark (st : XmlState) {attrs s : List UInt8} {field : Nat} (hends : TagEnds attrs)
    (hfield : getFieldNum fields attrs (chr '>' :: s) = .ok (some field)) (hroom : 0 < st.room) :
    scan fields st 0 0 (tagSource .mark attrs ++ s) = scan fields (st.marked field) 0 0 s := by
  have hrest : chr '>' ∉ markRest ++ attrs := fun hmem =>
    (List.mem_append.mp hmem).elim (by decide) hends.noEnd
  have hname : tagName .mark ++ (attrs ++ chr '>' :: s) =
      (tagName .mark).take 8 ++ ((markRest ++ attrs) ++ chr '>' :: s) := by
    rw [List.append_assoc]
    rfl
  have htext : tagText 8 (tagName .mark ++ (attrs ++ chr '>' :: s)) =
      .ok (markRest ++ attrs, chr '>' :: s) := by
    rw [hname]
    exact tagText_eq ((tagName .mark).take 8) hrest s
  have hnum : getFieldNum fields (markRest ++ attrs) (chr '>' :: s) = .ok (some field) := by
    have hletters : markRest.all (· ≠ chr 'f') = true := by decide
    rw [getFieldNum_append fun c hc => by simpa using List.all_eq_true.mp hletters c hc]
    exact hfield
  have hlength : 8 + (markRest ++ attrs).length + 1 =
      (tagName .mark ++ (attrs ++ [chr '>'])).length + 0 := by
    rw [List.length_append, List.length_append, List.length_append]
    show 8 + (11 + attrs.length) + 1 = 19 + (attrs.length + 1)
    omega
  have hsplit : tagName .mark ++ (attrs ++ chr '>' :: s) =
      tagName .mark ++ (attrs ++ [chr '>']) ++ s := by
    rw [List.append_assoc, List.append_assoc, List.singleton_append]
  have hallocated : st.allocated (st.marked field) = .ok (st.marked field) :=
    if_neg (Nat.pos_iff_ne_zero.mp hroom)
  rw [tagSource_append, scan, if_neg (not_not_intro rfl), tagAt_tag .mark hends]
  dsimp only
  rw [htext]
  simp only [ok_bind]
  rw [hnum]
  simp only [ok_bind]
  rw [hallocated]
  simp only [ok_bind]
  rw [hlength, hsplit, scan_drop]

theorem tagEnds_of_blanks {blanks : List UInt8} (h : ∀ b ∈ blanks, isSpace b = true) :
    TagEnds blanks where
  noEnd hmem := absurd (h _ hmem) (by decide)
  noStart hmem := absurd (h _ hmem) (by decide)
  name := by
    have hblank : ∀ b : UInt8, isSpace b = true → isTag [] [b] = some true := by
      intro b hb
      have hall : ∀ n < 256, isSpace (UInt8.ofNat n) = true →
        isTag [] [UInt8.ofNat n] = some true := by decide +kernel
      have hn := hall b.toNat b.toNat_lt
      rw [UInt8.ofNat_toNat] at hn
      exact hn hb
    cases blanks with
    | nil => decide
    | cons b blanks => exact hblank b (h b List.mem_cons_self)

/-- The end of an array, which is as long as ten letters and two more characters. -/
theorem scan_arrayEnd (st : XmlState) {blanks s : List UInt8}
    (hblanks : ∀ b ∈ blanks, isSpace b = true) (hroom : 0 < st.room) :
    scan fields st 0 0 (tagSource .arrayEnd blanks ++ s) =
      scan fields st.closed 2 1 (blanks ++ chr '>' :: s) := by
  have hallocated : st.allocated st.closed = .ok st.closed :=
    if_neg (Nat.pos_iff_ne_zero.mp hroom)
  rw [tagSource_append, scan, if_neg (not_not_intro rfl),
    tagAt_tag .arrayEnd (tagEnds_of_blanks hblanks)]
  dsimp only
  rw [hallocated]
  exact scan_drop st.closed 1 (tagName .arrayEnd) (blanks ++ chr '>' :: s) 2

/-! ## Items -/

/-- The end of an array is written with one blank in it, and a text follows, or nothing. -/
def TemplateItem.EndsGood (items : List TemplateItem) : TemplateItem → Prop
  | data .. => True
  | group _ _ _ _ _ blanks text => blanks.length = 1 ∧ (text = [] → items = [])

def ItemsGood : List TemplateItem → Prop
  | [] => True
  | item :: items => item.EndsGood items ∧ ItemsGood items

theorem sourceOf_cons (item : TemplateItem) (items : List TemplateItem) :
    sourceOf (item :: items) = item.source ++ sourceOf items := List.flatMap_cons

/-- A group up to the end of its array. -/
theorem scan_group {st : XmlState} {openAttrs before markAttrs after blanks text : List UInt8}
    {field : Nat} {items : List TemplateItem} {r : Option (List XmlEntry)}
    (hwf : ItemsWellFormed fields
      (.group openAttrs before markAttrs field after blanks text :: items))
    (h : scan fields st 0 0
      (sourceOf (.group openAttrs before markAttrs field after blanks text :: items)) = .ok r) :
    scan fields ⟨st.entries ++ [⟨some st.since, some field, some before, some after, none⟩], .empty,
      1, []⟩ 2 1 (blanks ++ chr '>' :: (text ++ sourceOf items)) = .ok r := by
  obtain ⟨hopen, hbefore, hmark, hfield, hafter, hblanks, -, -⟩ := hwf
  rw [sourceOf_cons, TemplateItem.source] at h
  simp only [List.append_assoc] at h
  rw [scan_array st hopen] at h
  have h₁ := scan_plain hbefore h
  rw [scan_mark (st.openArray.push before) hmark hfield Nat.two_pos] at h₁
  have h₂ := scan_plain hafter h₁
  rw [scan_arrayEnd (((st.openArray.push before).marked field).push after) hblanks
    Nat.two_pos] at h₂
  exact h₂

/-- Items are scanned one after another. -/
theorem scan_item {st : XmlState} {item : TemplateItem} {items : List TemplateItem}
    {r : Option (List XmlEntry)} (hwf : ItemsWellFormed fields (item :: items))
    (hgood : item.EndsGood items)
    (h : scan fields st 0 0 (sourceOf (item :: items)) = .ok r) :
    ∃ st', scan fields st' 0 0 (sourceOf items) = .ok r ∧
      st'.entries = st.entries ++ [item.entry st.since] ∧ st'.since = item.text := by
  cases item with
  | data attrs field text =>
    obtain ⟨hends, hfield, htext, -⟩ := hwf
    rw [sourceOf_cons, TemplateItem.source, List.append_assoc, scan_data st hends hfield] at h
    exact ⟨_, scan_plain htext h, rfl, rfl⟩
  | group openAttrs before markAttrs field after blanks text =>
    have hclosed := scan_group hwf h
    obtain ⟨-, -, -, -, -, -, htext, -⟩ := hwf
    obtain ⟨hone, hnext⟩ := hgood
    obtain ⟨b, rfl⟩ := List.length_eq_one_iff.mp hone
    cases text with
    | nil =>
      rw [hnext rfl] at hclosed ⊢
      exact ⟨_, hclosed, rfl, rfl⟩
    | cons c text =>
      exact ⟨_, scan_plain htext.tail hclosed, rfl, rfl⟩

theorem entriesOf_cons (front : List UInt8) (item next : TemplateItem)
    (items : List TemplateItem) : entriesOf front (item :: next :: items) =
      item.entry front :: entriesOf item.text (next :: items) := rfl

/-- The end of a scan behind an entry. -/
theorem finish_of_entries (st : XmlState) {entries : List XmlEntry} {e : XmlEntry}
    (hentries : st.entries = entries ++ [e]) {beyond : Nat} {r : Option (List XmlEntry)}
    (h : st.finish beyond = .ok r) :
    r = some (entries ++ [{ e with poststring := some st.since }]) ∧ beyond = 0 := by
  rw [XmlState.finish, hentries, List.getLast?_concat, List.dropLast_concat] at h
  dsimp only at h
  split at h
  · cases h
  · next hbeyond =>
    split at h
    · cases h
    · exact ⟨(Except.ok.inj h).symm, by omega⟩

/-- The entries that a scan over items adds. -/
theorem scan_items {items : List TemplateItem} (hne : items ≠ []) {st : XmlState}
    {r : Option (List XmlEntry)} (hwf : ItemsWellFormed fields items) (hgood : ItemsGood items)
    (h : scan fields st 0 0 (sourceOf items) = .ok r) :
    r = some (st.entries ++ entriesOf st.since items) := by
  induction items generalizing st with
  | nil => exact absurd rfl hne
  | cons item items ih =>
    obtain ⟨st', hscan, hentries, hsince⟩ := scan_item hwf hgood.1 h
    have hwf' : ItemsWellFormed fields items := by
      cases item with
      | data => exact hwf.2.2.2
      | group => exact hwf.2.2.2.2.2.2.2
    cases items with
    | nil =>
      obtain ⟨hr, -⟩ := finish_of_entries st' hentries hscan
      rw [hr, hsince]
      rfl
    | cons next items =>
      rw [ih (List.cons_ne_nil _ _) hwf' hgood.2 hscan, hentries, hsince, entriesOf_cons,
        List.append_assoc]
      rfl

/-- The text of a record by one entry. -/
theorem recordText_entry (values : Nat → List (List UInt8)) (simple : Nat → Bool)
    (front : List UInt8) (item : TemplateItem) (post : Option (List UInt8))
    (entries : List XmlEntry) :
    recordText values simple ({ item.entry front with poststring := post } :: entries) =
      front ++ (item.valueText values simple ++ (post.getD [] ++
        recordText values simple entries)) := by
  cases item with
  | data attrs field text =>
    simp [recordText, TemplateItem.entry, TemplateItem.valueText]
  | group openAttrs before markAttrs field after blanks text =>
    simp [recordText, TemplateItem.entry, TemplateItem.valueText]

/-- A record is written as its template says. -/
theorem recordText_entriesOf (values : Nat → List (List UInt8)) (simple : Nat → Bool)
    {items : List TemplateItem} (hne : items ≠ []) (front : List UInt8) :
    recordText values simple (entriesOf front items) =
      front ++ items.flatMap fun item => item.valueText values simple ++ item.text := by
  induction items generalizing front with
  | nil => exact absurd rfl hne
  | cons item items ih =>
    cases items with
    | nil =>
      rw [entriesOf, recordText_entry, List.flatMap_singleton, recordText, List.append_nil]
      rfl
    | cons next items =>
      have hentry : item.entry front =
          { item.entry front with poststring := none } := by cases item <;> rfl
      rw [entriesOf_cons, hentry, recordText_entry, ih (List.cons_ne_nil _ _)]
      simp only [Option.getD_none, List.nil_append, List.flatMap_cons, List.append_assoc]

/-! ## Ends of arrays that are written otherwise -/

/-- The texts in front of the entries. -/
def fronts (entries : List XmlEntry) : List (Option (List UInt8)) := entries.map (·.prestring)

/-- Entries that are counted keep the text in front of them. -/
theorem fronts_scan (st : XmlState) {drop keep : Nat} {s : List UInt8} {L : List XmlEntry}
    (h : scan fields st drop keep s = .ok (some L)) : fronts st.entries <+: fronts L := by
  induction s generalizing st drop keep with
  | nil =>
    rw [scan, XmlState.finish] at h
    cases hlast : st.entries.getLast? with
    | none =>
      rw [hlast] at h
      cases h
    | some last =>
      have hsplit : st.entries = st.entries.dropLast ++ [last] :=
        (List.dropLast_append_getLast? last (Option.mem_def.mpr hlast)).symm
      obtain ⟨hL, -⟩ := finish_of_entries st hsplit h
      rw [Option.some.inj hL, hsplit, List.dropLast_concat, fronts, fronts, List.map_append,
        List.map_append]
      exact List.prefix_refl _
  | cons c s ih =>
    cases drop with
    | succ drop => exact ih st h
    | zero =>
      cases keep with
      | succ keep => exact ih (st.push [c]) h
      | zero =>
        rw [scan] at h
        by_cases hc : c = chr '<'
        · rw [if_neg (not_not_intro hc)] at h
          cases htag : tagAt s with
          | none =>
            rw [htag] at h
            cases h
          | some kind =>
            rw [htag] at h
            cases kind with
            | none => exact ih (st.push [c]) h
            | some kind =>
              cases kind with
              | arrayEnd =>
                obtain ⟨st', hst', hscan⟩ := bind_eq_ok_iff.mp h
                rw [XmlState.allocated] at hst'
                split at hst'
                · cases hst'
                · cases hst'
                  exact (List.prefix_append _ _).map _ |>.trans (ih st.closed hscan)
              | data =>
                obtain ⟨⟨attrs, behind⟩, -, h⟩ := bind_eq_ok_iff.mp h
                obtain ⟨num, -, h⟩ := bind_eq_ok_iff.mp h
                cases num with
                | none => exact ih (st.push [c]) h
                | some field =>
                  exact (List.prefix_append _ _).map _ |>.trans (ih (st.dataEntry field) h)
              | array =>
                obtain ⟨text, -, h⟩ := bind_eq_ok_iff.mp h
                exact ih st.openArray h
              | mark =>
                obtain ⟨⟨attrs, behind⟩, -, h⟩ := bind_eq_ok_iff.mp h
                obtain ⟨num, -, h⟩ := bind_eq_ok_iff.mp h
                cases num with
                | none => exact ih (st.push [c]) h
                | some field =>
                  obtain ⟨st', hst', hscan⟩ := bind_eq_ok_iff.mp h
                  rw [XmlState.allocated] at hst'
                  split at hst'
                  · cases hst'
                  · cases hst'
                    exact ih (st.marked field) hscan
        · rw [if_pos hc] at h
          exact ih (st.push [c]) h

theorem fronts_append (entries entries' : List XmlEntry) :
    fronts (entries ++ entries') = fronts entries ++ fronts entries' := List.map_append

/-- What is counted next has in front of it what was passed over since the last entry. -/
theorem scan_next {st : XmlState} {entries : List XmlEntry} {e : XmlEntry}
    (hentries : st.entries = entries ++ [e]) {text : List UInt8} {items : List TemplateItem}
    (hplain : Plain text (sourceOf items)) (hwf : ItemsWellFormed fields items)
    {L : List XmlEntry} (h : scan fields st 0 0 (text ++ sourceOf items) = .ok (some L)) :
    (items = [] → L = entries ++ [{ e with poststring := some (st.since ++ text) }]) ∧
      (items ≠ [] → fronts st.entries ++ [some (st.since ++ text)] <+: fronts L) := by
  have hscan := scan_plain hplain h
  cases items with
  | nil =>
    refine ⟨fun _ => ?_, fun hne => absurd rfl hne⟩
    obtain ⟨hL, -⟩ := finish_of_entries (st.push text) hentries hscan
    exact Option.some.inj hL
  | cons item items =>
    refine ⟨fun hnil => absurd hnil (List.cons_ne_nil _ _), fun _ => ?_⟩
    cases item with
    | data attrs field text' =>
      obtain ⟨hends, hfield, -, -⟩ := hwf
      rw [sourceOf_cons, TemplateItem.source, List.append_assoc, scan_data _ hends hfield] at hscan
      have hfronts := fronts_scan _ hscan
      rwa [XmlState.dataEntry, fronts_append] at hfronts
    | group openAttrs before markAttrs field after blanks text' =>
      have hfronts := fronts_scan _ (scan_group hwf hscan)
      rwa [fronts_append] at hfronts

theorem plain_of_noStart {text behind : List UInt8} (h : chr '<' ∉ text) : Plain text behind := by
  intro a b hab
  refine absurd ?_ h
  rw [hab]
  exact List.mem_append_right _ List.mem_cons_self

theorem Plain.append {text text' behind : List UInt8} (h : chr '<' ∉ text)
    (h' : Plain text' behind) : Plain (text ++ text') behind := by
  induction text with
  | nil => exact h'
  | cons c text ih =>
    intro a b hab
    cases a with
    | nil =>
      have hc : c = chr '<' := (List.cons.inj hab).1
      exact absurd (hc ▸ List.mem_cons_self) h
    | cons d a =>
      exact ih (fun hmem => h (List.mem_cons_of_mem c hmem)) a b (List.cons.inj hab).2

/-- The name of a tag, with what is behind it, has no bracket. -/
theorem noStart_tag (kind : TagKind) {attrs : List UInt8} (h : TagEnds attrs) :
    chr '<' ∉ tagName kind ++ (attrs ++ [chr '>']) := by
  have hname : chr '<' ∉ tagName kind := by cases kind <;> decide
  have hend : chr '<' ∉ [chr '>'] := by decide
  intro hmem
  obtain hmem | hmem := List.mem_append.mp hmem
  · exact hname hmem
  · exact (List.mem_append.mp hmem).elim h.noStart hend

/-- Two texts in front of an entry are one. -/
theorem front_unique {F L : List (Option (List UInt8))} {x y : Option (List UInt8)}
    (hx : F ++ [x] <+: L) (hy : F ++ [y] <+: L) : x = y := by
  have hlength : (F ++ [x]).length = (F ++ [y]).length := by
    rw [List.length_append, List.length_append]
    rfl
  have heq := List.IsPrefix.eq_of_length (List.prefix_of_prefix_length_le hx hy hlength.le) hlength
  exact (List.cons.inj (List.append_cancel_left heq)).1

/-- A tag whose first character is passed over is not seen: there is no entry with a short text in
front of it next. -/
theorem scan_missed {st : XmlState} {entries : List XmlEntry} {e : XmlEntry}
    (hentries : st.entries = entries ++ [e]) (hcurrent : st.current = .empty)
    (hroom : st.room = 1) {item : TemplateItem} {items : List TemplateItem}
    (hwf : ItemsWellFormed fields (item :: items)) {L : List XmlEntry}
    (h : scan fields st 0 0 (sourceOf (item :: items)).tail = .ok (some L)) {t : List UInt8}
    (hshort : t.length < 8) : ¬ fronts st.entries ++ [some t] <+: fronts L := by
  intro hfront
  cases item with
  | data attrs field text =>
    obtain ⟨hends, -, htext, hwf'⟩ := hwf
    have hsource : (sourceOf (.data attrs field text :: items)).tail =
        (tagName .data ++ (attrs ++ [chr '>'])) ++ text ++ sourceOf items := by
      rw [sourceOf_cons]
      rfl
    rw [hsource] at h
    obtain ⟨hlast, hnext⟩ := scan_next hentries
      (Plain.append (noStart_tag .data hends) htext) hwf' h
    by_cases hitems : items = []
    · have hlength := hfront.length_le
      rw [hlast hitems, hentries, fronts_append, fronts_append] at hlength
      simp [fronts] at hlength
    · have heq := congrArg (Option.map List.length) (front_unique hfront (hnext hitems))
      have hname : (tagName .data).length = 8 := rfl
      simp only [Option.map_some, Option.some_inj, List.length_append, hname] at heq
      omega
  | group openAttrs before markAttrs field after blanks text =>
    obtain ⟨hopen, hbefore, hmark, hfield, hafter, hblanks, -, -⟩ := hwf
    have hsource : (sourceOf
        (.group openAttrs before markAttrs field after blanks text :: items)).tail =
        (tagName .array ++ (openAttrs ++ [chr '>'])) ++ before ++
          (tagSource .mark markAttrs ++ (after ++ (tagSource .arrayEnd blanks ++
            (text ++ sourceOf items)))) := by
      rw [sourceOf_cons, TemplateItem.source]
      simp only [List.append_assoc]
      rw [tagSource_append .array]
      rfl
    rw [hsource] at h
    have hroom' : 0 < st.room := by
      rw [hroom]
      exact Nat.one_pos
    have h₁ := scan_plain (Plain.append (noStart_tag .array hopen) hbefore) h
    rw [scan_mark (st.push _) hmark hfield hroom'] at h₁
    have h₂ := scan_plain hafter h₁
    rw [scan_arrayEnd (((st.push _).marked field).push after) hblanks hroom'] at h₂
    -- The entry has the place of its elements, but nothing in front of it.
    have hfronts := fronts_scan _ h₂
    rw [XmlState.closed, fronts_append] at hfronts
    have hfronts' : fronts st.entries ++ [st.current.prestring] <+: fronts L := hfronts
    rw [hcurrent] at hfronts'
    cases front_unique hfront hfronts'

theorem scan_keep_one (st : XmlState) {c : UInt8} (hc : c ≠ chr '<') (s : List UInt8) :
    scan fields st 0 1 (c :: s) = scan fields st 0 0 (c :: s) := by
  rw [scan, scan, if_pos hc]

/-- The entries behind an array that ended, as they should be. -/
structure EndsWith (entries : List XmlEntry) (e : XmlEntry) (text : List UInt8)
    (items : List TemplateItem) (L : List XmlEntry) : Prop where
  last : items = [] → L = entries ++ [{ e with poststring := some text }]
  next : items ≠ [] → fronts (entries ++ [e]) ++ [some text] <+: fronts L

/-- What was passed over since the last entry is then the text behind it. -/
theorem EndsWith.text_eq {entries : List XmlEntry} {e : XmlEntry} {text : List UInt8}
    {items : List TemplateItem} {L : List XmlEntry} (hL : EndsWith entries e text items L)
    (st : XmlState) (hentries : st.entries = entries ++ [e]) {text' : List UInt8}
    (hplain : Plain text' (sourceOf items)) (hwf : ItemsWellFormed fields items)
    (h : scan fields st 0 0 (text' ++ sourceOf items) = .ok (some L)) :
    st.since ++ text' = text := by
  obtain ⟨hlast, hnext⟩ := scan_next hentries hplain hwf h
  by_cases hitems : items = []
  · have heq := (hlast hitems).symm.trans (hL.last hitems)
    have he := (List.cons.inj (List.append_cancel_left heq)).1
    exact Option.some.inj (congrArg XmlEntry.poststring he)
  · have hfronts := hL.next hitems
    rw [← hentries] at hfronts
    exact Option.some.inj (front_unique (hnext hitems) hfronts)

/-- A tag is not missed behind the end of an array. -/
theorem EndsWith.not_missed {entries : List XmlEntry} {e : XmlEntry} {text : List UInt8}
    {item : TemplateItem} {items : List TemplateItem} {L : List XmlEntry}
    (hL : EndsWith entries e text (item :: items) L)
    (hwf : ItemsWellFormed fields (item :: items)) (hshort : text.length < 8)
    (since : List UInt8) :
    scan fields ⟨entries ++ [e], .empty, 1, since⟩ 0 0 (sourceOf (item :: items)).tail ≠
      .ok (some L) :=
  fun h => scan_missed rfl rfl rfl hwf h hshort (hL.next (List.cons_ne_nil _ _))

/-- Items begin with a bracket, and the name of their tag with a letter. -/
theorem sourceOf_cons_eq (item : TemplateItem) (items : List TemplateItem) :
    ∃ s, sourceOf (item :: items) = chr '<' :: chr 'F' :: s := by
  rw [sourceOf_cons]
  cases item with
  | data attrs field text => exact ⟨_, rfl⟩
  | group openAttrs before markAttrs field after blanks text => exact ⟨_, rfl⟩

/-- The text behind the end of an array is taken right only if there is one blank in it. -/
theorem endsGood_of_scan {entries : List XmlEntry} {e : XmlEntry} {blanks text : List UInt8}
    {items : List TemplateItem} {L : List XmlEntry} (hL : EndsWith entries e text items L)
    (hblanks : ∀ b ∈ blanks, isSpace b = true) (htext : Plain text (sourceOf items))
    (hwf : ItemsWellFormed fields items)
    (h : scan fields ⟨entries ++ [e], .empty, 1, []⟩ 2 1
      (blanks ++ chr '>' :: (text ++ sourceOf items)) = .ok (some L)) :
    blanks.length = 1 ∧ (text = [] → items = []) := by
  match blanks, hblanks, h with
  | [], _, h =>
    exfalso
    match text, htext, h with
    | [], _, h =>
      cases items with
      | nil =>
        obtain ⟨-, hbeyond⟩ := finish_of_entries ⟨entries ++ [e], .empty, 1, []⟩ rfl h
        cases hbeyond
      | cons item items =>
        obtain ⟨s, hs⟩ := sourceOf_cons_eq item items
        refine hL.not_missed hwf (by decide) [] ?_
        rw [hs]
        rw [List.nil_append, List.nil_append, hs] at h
        exact (scan_keep_one _ (by decide) s).symm.trans h
    | [c], _, h =>
      cases items with
      | nil =>
        obtain ⟨hfinish, -⟩ := finish_of_entries ⟨entries ++ [e], .empty, 1, []⟩ rfl h
        have heq := (Option.some.inj hfinish).symm.trans (hL.last rfl)
        have he := (List.cons.inj (List.append_cancel_left heq)).1
        cases congrArg XmlEntry.poststring he
      | cons item items =>
        obtain ⟨s, hs⟩ := sourceOf_cons_eq item items
        refine hL.not_missed hwf (show 1 < 8 by decide) [chr '<'] ?_
        rw [hs]
        rw [hs] at h
        exact h
    | c :: c' :: text, htext, h =>
      have heq := hL.text_eq ⟨entries ++ [e], .empty, 1, [c']⟩ rfl htext.tail.tail hwf h
      have hlength := congrArg List.length heq
      simp at hlength
  | [b], _, h =>
    refine ⟨rfl, ?_⟩
    rintro rfl
    cases items with
    | nil => rfl
    | cons item items =>
      obtain ⟨s, hs⟩ := sourceOf_cons_eq item items
      refine absurd ?_ (hL.not_missed hwf (show 0 < 8 by decide) [chr '<'])
      rw [hs]
      rw [List.nil_append, hs] at h
      exact h
  | b :: b' :: [], _, h =>
    exfalso
    have heq := hL.text_eq ⟨entries ++ [e], .empty, 1, [chr '>']⟩ rfl htext hwf h
    have hlength := congrArg List.length heq
    simp at hlength
  | b :: b' :: b'' :: blanks, hblanks, h =>
    exfalso
    have hnone : chr '<' ∉ blanks ++ [chr '>'] := by
      intro hmem
      obtain hmem | hmem := List.mem_append.mp hmem
      · have hspace := hblanks _ (List.mem_cons_of_mem _ (List.mem_cons_of_mem _
          (List.mem_cons_of_mem _ hmem)))
        exact absurd hspace (by decide)
      · exact absurd hmem (by decide)
    have hsplit : blanks ++ chr '>' :: (text ++ sourceOf items) =
        (blanks ++ [chr '>'] ++ text) ++ sourceOf items := by
      simp only [List.append_assoc, List.cons_append, List.nil_append]
    have hscan : scan fields ⟨entries ++ [e], .empty, 1, [b'']⟩ 0 0
        (blanks ++ chr '>' :: (text ++ sourceOf items)) = .ok (some L) := h
    rw [hsplit] at hscan
    have heq := hL.text_eq ⟨entries ++ [e], .empty, 1, [b'']⟩ rfl
      (Plain.append hnone htext) hwf hscan
    have hlength := congrArg List.length heq
    simp only [List.length_append, List.length_cons, List.length_nil] at hlength
    omega

theorem front_entriesOf (front : List UInt8) {items : List TemplateItem} (hne : items ≠ []) :
    [some front] <+: fronts (entriesOf front items) := by
  cases items with
  | nil => exact absurd rfl hne
  | cons item items =>
    cases items with
    | nil => cases item <;> exact List.prefix_refl _
    | cons next items =>
      rw [entriesOf_cons]
      refine ⟨fronts (entriesOf item.text (next :: items)), ?_⟩
      cases item <;> rfl

/-- Items whose entries are as they say. -/
theorem itemsGood_of_scan {items : List TemplateItem} (st : XmlState)
    (hwf : ItemsWellFormed fields items)
    (h : scan fields st 0 0 (sourceOf items) =
      .ok (some (st.entries ++ entriesOf st.since items))) :
    ItemsGood items := by
  induction items generalizing st with
  | nil => trivial
  | cons item items ih =>
    have hwf' : ItemsWellFormed fields items := by
      cases item with
      | data => exact hwf.2.2.2
      | group => exact hwf.2.2.2.2.2.2.2
    have hgood : item.EndsGood items := by
      cases item with
      | data => trivial
      | group openAttrs before markAttrs field after blanks text =>
        have hclosed := scan_group hwf h
        obtain ⟨-, -, -, -, -, hblanks, htext, -⟩ := hwf
        refine endsGood_of_scan ⟨fun hitems => ?_, fun hitems => ?_⟩ hblanks htext hwf' hclosed
        · rw [hitems]
          rfl
        · obtain ⟨next, rest, rfl⟩ := List.exists_cons_of_ne_nil hitems
          rw [entriesOf_cons, fronts_append, fronts_append, List.append_assoc]
          exact (List.prefix_append_right_inj _).mpr
            ((List.prefix_append_right_inj [some st.since]).mpr (front_entriesOf text hitems))
    refine ⟨hgood, ?_⟩
    cases items with
    | nil => trivial
    | cons next items =>
      obtain ⟨st', hscan, hentries, hsince⟩ := scan_item hwf hgood h
      refine ih st' hwf' ?_
      rw [hscan, hentries, hsince, entriesOf_cons, List.append_assoc]
      rfl

end

/-- A block is scanned as it should if and only if it is scanned to its end and, where its tags are
complete, name fields and are nested well, there is a tag, and every end of an array has one blank
in it and is not followed by a tag. -/
theorem scannedRight_iff (fields : List FMField) (block : CString) :
    ScannedRight fields block ↔
      SafeBlock fields block ∧
        ∀ t : Template, t.Reads fields block → t.items ≠ [] ∧ ItemsGood t.items := by
  have hsafe : (∃ r, buildXMLOutputInfo fields block = .ok r) ↔ SafeBlock fields block :=
    scan_iff_safe fields .start 0 0 block.bytes
  have hfirst : ∀ {r} (t : Template), t.Reads fields block →
      buildXMLOutputInfo fields block = .ok r →
        scan fields (XmlState.start.push t.first) 0 0 (sourceOf t.items) = .ok r := by
    intro r t ht hr
    rw [buildXMLOutputInfo, ht.source] at hr
    exact scan_plain ht.first hr
  constructor
  · rintro ⟨r, hr, hall⟩
    refine ⟨hsafe.mp ⟨r, hr⟩, fun t ht => ?_⟩
    have hscan := hfirst t ht hr
    obtain ⟨rfl, -⟩ := hall t ht
    refine ⟨fun hnil => ?_, itemsGood_of_scan _ ht.items hscan⟩
    rw [hnil] at hscan
    cases hscan
  · rintro ⟨hblock, hall⟩
    obtain ⟨r, hr⟩ := hsafe.mpr hblock
    refine ⟨r, hr, fun t ht => ?_⟩
    obtain ⟨hne, hgood⟩ := hall t ht
    exact ⟨scan_items hne ht.items hgood (hfirst t ht hr),
      fun values simple => recordText_entriesOf values simple hne t.first⟩

/-! ### An array and a full stop -/

def numberFields : List FMField :=
  [⟨cstr ['x'] (.refl false), cstr ['i', 'n', 't', 'e', 'g', 'e', 'r'] (.refl false), 4, 0⟩]

/-- An array with nothing around its elements, and a full stop behind it. -/
def arrayTemplate : Template where
  first := []
  items := [.group [] [] (chars [' ', 'f', 'i', 'e', 'l', 'd', '_', 'i', 'd', '=', '0']) 0 [] []
    (chars ['.'])]

theorem noNul_arrayTemplate : 0 ∉ sourceOf arrayTemplate.items := by decide

def arrayBlock : CString := ⟨sourceOf arrayTemplate.items, noNul_arrayTemplate⟩

theorem reads_arrayTemplate : arrayTemplate.Reads numberFields arrayBlock where
  source := rfl
  first := plain_of_noStart List.not_mem_nil
  items := by
    have hnil : ∀ {behind}, Plain [] behind := plain_of_noStart List.not_mem_nil
    refine ⟨⟨by decide, by decide, by decide⟩, hnil, ⟨by decide, by decide, by decide⟩, ?_, hnil,
      fun b hb => absurd hb List.not_mem_nil, plain_of_noStart (by decide), trivial⟩
    decide +kernel

/-- The full stop is lost. -/
theorem arrayBlock_not_scannedRight : ¬ ScannedRight numberFields arrayBlock := by
  rintro ⟨r, hr, hall⟩
  obtain ⟨hentries, -⟩ := hall arrayTemplate reads_arrayTemplate
  have hlost : buildXMLOutputInfo numberFields arrayBlock =
      .ok (some [⟨some [], some 0, some [], some [], some []⟩]) := by decide +kernel
  rw [hlost] at hr
  rw [← Except.ok.inj hr] at hentries
  revert hentries
  decide

end Xml

end FFS
