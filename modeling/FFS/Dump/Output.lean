import FFS.Machine.Decimal

/-!
# The output of a dump

`dump_output` appends a text to a string that it makes larger by an estimate of the caller, or
writes it to a file unless the estimate goes over a limit.  What a dump prints is a tree of the
fields of a record and what they lead to, and the walk over it is `dump_subfields`.
-/

namespace FFS

open Machine

/-! ## One text -/

/-- A call of `dump_output`: the estimate of the caller, and the text that `format` stands for. -/
structure DumpCall where
  estimate : Nat
  text : List UInt8

/-- A `dump_state`: the output is the string, or what the file has got.  The calls that have
written are not kept in the C code. -/
structure DumpState where
  outputLimit : Option Nat
  toString : Bool
  outputLen : Nat
  output : List UInt8
  written : List DumpCall

/-- The size of the buffer of `dump_output`. -/
def dumpBufferSize : Nat := 1024

/-- The string in a buffer with a text of `vsnprintf`. -/
def DumpCall.printed (c : DumpCall) : List UInt8 :=
  (c.text.take (dumpBufferSize - 1)).takeWhile (· ≠ 0)

namespace DumpState

/-- The estimate is within the limit. -/
def allows (s : DumpState) (c : DumpCall) : Bool :=
  s.outputLimit.all (s.outputLen + c.estimate ≤ ·)

/-- The state with one more text. -/
def wrote (s : DumpState) (c : DumpCall) : DumpState :=
  { s with
    outputLen := s.outputLen + c.printed.length
    output := s.output ++ c.printed
    written := s.written ++ [c] }

/-- `dump_output`, without a result where `vsnprintf` writes behind the string. -/
def dumpOutput (s : DumpState) (c : DumpCall) : Option DumpState :=
  if s.allows c then
    -- the string has its estimate and a zero, and so has the text
    if s.toString ∧ c.estimate < min c.text.length (dumpBufferSize - 1) then none
    else some (s.wrote c)
  else some s

end DumpState

/-! ## What is printed -/

/-- What `%g` and `%Lg` print. -/
structure FloatText where
  bytes : List UInt8
  short : bytes.length ≤ 14
  noNul : 0 ∉ bytes

/-- What `sdump_value` prints, by the data type and the size of the field. -/
inductive SimpleValue where
  | integer (size : Nat) (value : Int64)
  | unsigned (size : Nat) (value : UInt64)
  | enumeration (value : UInt64)
  | boolean (value : UInt64)
  | float (size : Nat) (value : FloatText)
  | char (value : UInt8)
  | string (value : Option CString)
  | r3vector (x y z : FloatText)
  | unknown

mutual

/-- A field with its name, and whether `start_field` takes lines for it. -/
inductive DumpField where
  | mk (name : CString) (compound : Bool) (value : DumpValue)

/-- What a field leads to.  A pointer can lead to what was visited before. -/
inductive DumpValue where
  | null
  | visited (address : UInt64)
  | pointer (address : UInt64) (target : DumpValue)
  | string (value : Option CString)
  | array (elements : List DumpValue)
  | subformat (name : CString) (compound : Bool) (fields : List DumpField)
  | simple (value : SimpleValue)

end

/-- Induction over what a field leads to. -/
theorem DumpField.induct {F : DumpField → Prop} {V : DumpValue → Prop}
    (mk : ∀ name compound value, V value → F (.mk name compound value))
    (null : V .null) (visited : ∀ address, V (.visited address))
    (pointer : ∀ address target, V target → V (.pointer address target))
    (string : ∀ value, V (.string value))
    (array : ∀ elements, (∀ v ∈ elements, V v) → V (.array elements))
    (subformat : ∀ name compound fields, (∀ f ∈ fields, F f) →
      V (.subformat name compound fields))
    (simple : ∀ value, V (.simple value)) (f : DumpField) : F f :=
  @DumpField.rec F V (fun vs => ∀ v ∈ vs, V v) (fun fs => ∀ f ∈ fs, F f) mk null visited pointer
    string array subformat simple (fun _ h => absurd h List.not_mem_nil)
    (fun _ _ hv hvs _ h => (List.mem_cons.mp h).elim (fun e => e ▸ hv) (hvs _))
    (fun _ h => absurd h List.not_mem_nil)
    (fun _ _ hf hfs _ h => (List.mem_cons.mp h).elim (fun e => e ▸ hf) (hfs _)) f

def blank : UInt8 := chr ' '

/-- The calls of `sdump_value`.  No integer is both larger than a `long` and smaller. -/
def SimpleValue.calls : SimpleValue → List DumpCall
  | integer size value =>
    if size ≤ 8 then [⟨25, decimal value.toInt ++ [blank]⟩]
    else [⟨10, chars ['+', 'l', 'o', 'n', 'g', ' ', 'i', 'n', 't', '+', ' ']⟩]
  | unsigned size value =>
    if size ≤ 8 then [⟨25, decimal value.toNat ++ [blank]⟩]
    else [⟨12, chars ['+', 'u', 'l', 'o', 'n', 'g', ' ', 'i', 'n', 't', '+', ' ']⟩]
  | enumeration value => [⟨25, decimal value.toNat ++ [blank]⟩]
  | boolean value =>
    [⟨25, decimal value.toNat ++ [blank]⟩,
      if value = 0 then ⟨5, chars ['f', 'a', 'l', 's', 'e', ' ']⟩
      else ⟨4, chars ['t', 'r', 'u', 'e', ' ']⟩]
  | float size value =>
    if size = 4 ∨ size = 8 then [⟨20, value.bytes ++ [blank]⟩]
    else if size = 16 then [⟨30, value.bytes ++ [blank]⟩]
    else if size < 4 then
      [⟨12, chars ['+', 't', 'i', 'n', 'y', ' ', 'f', 'l', 'o', 'a', 't', '+', ' ']⟩]
    else if 8 < size then
      [⟨12, chars ['+', 'b', 'i', 'g', ' ', 'f', 'l', 'o', 'a', 't', '+', ' ']⟩]
    else
      [⟨20, chars ['+', 'f', 'l', 'o', 'a', 't', ' ', 's', 'i', 'z', 'e', ' '] ++ decimal size ++
        chars ['+', ' ']⟩]
  | char value => [⟨1, [value, blank]⟩]
  | string none => [⟨4, chars ['"', ' ', '"']⟩]
  | string (some value) => [⟨value.length + 3, chr '"' :: value.bytes ++ chars [' ', '"']⟩]
  | r3vector x y z =>
    [⟨60, chr '(' :: x.bytes ++ chars [',', ' '] ++ y.bytes ++ chars [',', ' '] ++ z.bytes ++
      chars [')', ' ']⟩]
  | unknown => []

def newline : DumpCall := ⟨1, chars ['\n']⟩

/-- The text in front of a field. -/
def startText (useXML : Bool) (name : CString) : DumpCall :=
  if useXML then ⟨name.length + 2, chr '<' :: name.bytes ++ chars ['>']⟩
  else ⟨name.length + 3, name.bytes ++ chars [' ', '=', ' ']⟩

/-- The text behind a field. -/
def stopText (useXML : Bool) (name : CString) : DumpCall :=
  if useXML then ⟨name.length + 3, chars ['<', '/'] ++ name.bytes ++ chars ['>']⟩
  else ⟨1, chars [',']⟩

def indentText : DumpCall := ⟨2, chars [' ', ' ']⟩

def nullText : DumpCall := ⟨4, chars ['N', 'U', 'L', 'L']⟩

def addressText (address : UInt64) : DumpCall := ⟨20, pointerText address ++ [blank]⟩

def stringText : Option CString → DumpCall
  | none => ⟨5, chars ['N', 'U', 'L', 'L', ' ']⟩
  | some value => ⟨value.length + 2, chr '"' :: value.bytes ++ chars ['"']⟩

/-! ## The walk -/

namespace DumpState

/-- `do_indent` -/
def doIndent (s : DumpState) : Nat → Option DumpState
  | 0 => some s
  | indent + 1 => s.dumpOutput indentText >>= fun s => s.doIndent indent

/-- `start_field`, and `stop_field` with the other text.  A field that takes lines is indented by
the fields around it. -/
def edge (text : DumpCall) (indent : Nat) (compound : Bool) (s : DumpState) :
    Option DumpState := do
  let s ← if compound then s.doIndent indent else some s
  let s ← s.dumpOutput text
  if compound then s.dumpOutput newline else some s

/-- `output_limit` is reached. -/
def full (s : DumpState) : Bool := s.outputLimit.any (· ≤ s.outputLen)

/-- `output_limit` is passed. -/
def overrun (s : DumpState) : Bool := s.outputLimit.any (· < s.outputLen)

end DumpState

/-- The indentation inside a field. -/
def inside (compound : Bool) (indent : Nat) : Nat := if compound then indent + 1 else indent

section

variable (useXML : Bool)

/-- `start_field`, what is in the field, and `stop_field`. -/
def bracketed (name : CString) (compound : Bool) (indent : Nat)
    (value : Nat → DumpState → Option (DumpState × Bool)) (s : DumpState) :
    Option (DumpState × Bool) := do
  let s ← s.edge (startText useXML name) indent compound
  let (s, ret) ← value (inside compound indent) s
  let s ← s.edge (stopText useXML name) indent compound
  return (s, ret)

mutual

/-- `dump_subfields` -/
def dumpSubfields : List DumpField → Nat → DumpState → Option (DumpState × Bool)
  | [], _, s => some (s, true)
  | f :: fs, indent, s => do
    let (s, ret) ← dumpField f indent s
    if !ret || s.full then return (s, false) else dumpSubfields fs indent s
termination_by structural fs => fs

/-- A field in the loop of `dump_subfields`. -/
def dumpField : DumpField → Nat → DumpState → Option (DumpState × Bool)
  | .mk name compound value, indent, s =>
    bracketed useXML name compound indent (dumpSubfield value) s
termination_by structural f => f

/-- `dump_subfield` -/
def dumpSubfield : DumpValue → Nat → DumpState → Option (DumpState × Bool)
  | v, indent, s =>
    if s.overrun then some (s, false)
    else
      match v with
      | .null => (s.dumpOutput nullText).map (·, true)
      | .visited address => (s.dumpOutput (addressText address)).map (·, true)
      | .pointer address target =>
        s.dumpOutput (addressText address) >>= dumpSubfield target indent
      | .string value => (s.dumpOutput (stringText value)).map (·, true)
      | .array elements => dumpElements elements indent s
      | .subformat name compound fields =>
        bracketed useXML name compound indent (dumpSubfields fields) s
      | .simple value => (value.calls.foldlM DumpState.dumpOutput s).map (·, true)
termination_by structural v => v

/-- The loop over the elements of an array. -/
def dumpElements : List DumpValue → Nat → DumpState → Option (DumpState × Bool)
  | [], _, s => some (s, true)
  | v :: vs, indent, s => do
    let (s, ret) ← dumpSubfield v indent s
    if !ret then return (s, false) else dumpElements vs indent s
termination_by structural vs => vs

end

end

/-- A record that is dumped, with `FMdumpVerbose`. -/
structure Dump where
  verbose : Bool
  formatName : CString
  fields : List DumpField

namespace Dump

def recordText (formatName : CString) : DumpCall :=
  ⟨formatName.length + 15,
    chars ['R', 'e', 'c', 'o', 'r', 'd', ' ', 't', 'y', 'p', 'e', ' '] ++ formatName.bytes ++
      chars [' ', ':']⟩

/-- What `dump_raw_FMrecord_to_string` and `FMfdump_encoded_data` do with a `dump_state`. -/
def run (dump : Dump) (s : DumpState) : Option DumpState := do
  let s ← if dump.verbose then s.dumpOutput (recordText dump.formatName) else some s
  let (s, _) ← dumpSubfields false dump.fields 0 s
  s.dumpOutput newline

/-- `dump_raw_FMrecord_to_string` -/
def dumpRawFMrecordToString (dump : Dump) : Option DumpState :=
  dump.run ⟨none, true, 0, [], []⟩

/-- `FMfdump_encoded_data` -/
def fmfdumpEncodedData (dump : Dump) (characterLimit : Option Nat) : Option DumpState :=
  dump.run ⟨characterLimit, false, 0, [], []⟩

end Dump

/-! ## The calls of a walk -/

def edgeCalls (text : DumpCall) (indent : Nat) (compound : Bool) : List DumpCall :=
  (if compound then List.replicate indent indentText else []) ++
    text :: (if compound then [newline] else [])

section

variable (useXML : Bool)

def bracketedCalls (name : CString) (compound : Bool) (indent : Nat)
    (value : Nat → List DumpCall) : List DumpCall :=
  edgeCalls (startText useXML name) indent compound ++ value (inside compound indent) ++
    edgeCalls (stopText useXML name) indent compound

mutual

/-- The calls of `dump_output` without a limit, one after the other. -/
def dumpFieldsCalls : List DumpField → Nat → List DumpCall
  | [], _ => []
  | f :: fs, indent => dumpFieldCalls f indent ++ dumpFieldsCalls fs indent
termination_by structural fs => fs

def dumpFieldCalls : DumpField → Nat → List DumpCall
  | .mk name compound value, indent =>
    bracketedCalls useXML name compound indent (dumpValueCalls value)
termination_by structural f => f

def dumpValueCalls : DumpValue → Nat → List DumpCall
  | .null, _ => [nullText]
  | .visited address, _ => [addressText address]
  | .pointer address target, indent => addressText address :: dumpValueCalls target indent
  | .string value, _ => [stringText value]
  | .array elements, indent => dumpElementsCalls elements indent
  | .subformat name compound fields, indent =>
    bracketedCalls useXML name compound indent (dumpFieldsCalls fields)
  | .simple value, _ => value.calls
termination_by structural v => v

def dumpElementsCalls : List DumpValue → Nat → List DumpCall
  | [], _ => []
  | v :: vs, indent => dumpValueCalls v indent ++ dumpElementsCalls vs indent
termination_by structural vs => vs

end

end

def Dump.calls (dump : Dump) : List DumpCall :=
  (if dump.verbose then [Dump.recordText dump.formatName] else []) ++
    dumpFieldsCalls false dump.fields 0 ++ [newline]

namespace DumpState

variable {s s' : DumpState}

/-- The calls one after the other. -/
def dumpOutputs (s : DumpState) (calls : List DumpCall) : Option DumpState :=
  calls.foldlM dumpOutput s

theorem dumpOutputs_append (s : DumpState) (calls calls' : List DumpCall) :
    s.dumpOutputs (calls ++ calls') = s.dumpOutputs calls >>= fun s => s.dumpOutputs calls' := by
  rw [dumpOutputs, List.foldlM_append]
  rfl

theorem dumpOutputs_cons (s : DumpState) (c : DumpCall) (calls : List DumpCall) :
    s.dumpOutputs (c :: calls) = s.dumpOutput c >>= fun s => s.dumpOutputs calls := by
  rw [dumpOutputs, List.foldlM_cons]
  rfl

theorem dumpOutputs_singleton (s : DumpState) (c : DumpCall) :
    s.dumpOutputs [c] = s.dumpOutput c := by
  rw [dumpOutputs_cons]
  exact bind_pure _

theorem doIndent_eq (s : DumpState) (indent : Nat) :
    s.doIndent indent = s.dumpOutputs (List.replicate indent indentText) := by
  induction indent generalizing s with
  | zero => rfl
  | succ indent ih =>
    rw [List.replicate_succ, dumpOutputs_cons, doIndent]
    exact congrArg _ (funext ih)

theorem edge_eq (s : DumpState) (text : DumpCall) (indent : Nat) (compound : Bool) :
    s.edge text indent compound = s.dumpOutputs (edgeCalls text indent compound) := by
  cases compound with
  | false =>
    rw [edgeCalls, if_neg Bool.false_ne_true, if_neg Bool.false_ne_true, List.nil_append,
      dumpOutputs_singleton]
    exact bind_pure (s.dumpOutput text)
  | true =>
    change (s.doIndent indent >>= fun s => s.dumpOutput text >>= fun s => s.dumpOutput newline) = _
    rw [doIndent_eq, edgeCalls, if_pos rfl, if_pos rfl, dumpOutputs_append]
    apply congrArg
    funext s
    rw [dumpOutputs_cons]
    apply congrArg
    funext s
    rw [dumpOutputs_singleton]

/-- A text is never written where the limit is reached. -/
theorem dumpOutput_of_full {c : DumpCall} (h : s.full) (hc : 0 < c.estimate) :
    s.dumpOutput c = some s := by
  rw [dumpOutput, if_neg]
  rw [full] at h
  rw [allows]
  cases hlimit : s.outputLimit with
  | none =>
    rw [hlimit] at h
    cases h
  | some limit =>
    rw [hlimit, Option.any_some, decide_eq_true_eq] at h
    rw [Option.all_some, decide_eq_true_eq]
    omega

theorem dumpOutputs_of_full {calls : List DumpCall} (h : s.full)
    (hcalls : ∀ c ∈ calls, 0 < c.estimate) : s.dumpOutputs calls = some s := by
  induction calls with
  | nil => rfl
  | cons c calls ih =>
    rw [dumpOutputs_cons, dumpOutput_of_full h (hcalls c List.mem_cons_self)]
    exact ih fun c hc => hcalls c (List.mem_cons_of_mem _ hc)

theorem full_of_overrun (h : s.overrun) : s.full := by
  rw [overrun] at h
  rw [full]
  cases hlimit : s.outputLimit with
  | none =>
    rw [hlimit] at h
    exact h
  | some limit =>
    rw [hlimit, Option.any_some, decide_eq_true_eq] at h
    rw [Option.any_some, decide_eq_true_eq]
    exact Nat.le_of_lt h

end DumpState

/-- A walk does what its calls do, and one that breaks off has reached the limit. -/
def Walks (x : Option (DumpState × Bool)) (y : Option DumpState) : Prop :=
  x.map Prod.fst = y ∧ ∀ s, x = some (s, false) → s.full

section

open DumpState

theorem walks_map (x : Option DumpState) : Walks (x.map (·, true)) x := by
  refine ⟨by rw [Option.map_map]; exact Option.map_id', fun s hs => ?_⟩
  obtain ⟨s', -, hs'⟩ := Option.map_eq_some_iff.mp hs
  cases hs'

theorem walks_outputs (s : DumpState) (c : DumpCall) :
    Walks ((s.dumpOutput c).map (·, true)) (s.dumpOutputs [c]) := by
  rw [dumpOutputs_singleton]
  exact walks_map _

/-- A walk behind some calls. -/
theorem Walks.bind {x : Option DumpState} {walk : DumpState → Option (DumpState × Bool)}
    {calls : DumpState → Option DumpState} (h : ∀ s, Walks (walk s) (calls s)) :
    Walks (x >>= walk) (x >>= calls) := by
  cases x with
  | none => exact ⟨rfl, fun s hs => by cases hs⟩
  | some s => exact h s

/-- A walk that goes on only if the one in front of it did not break off. -/
theorem Walks.next {x : Option (DumpState × Bool)} {y : Option DumpState}
    {walk : DumpState → Option (DumpState × Bool)} {calls : List DumpCall} (stop : DumpState → Bool)
    (hstop : ∀ s, stop s → s.full) (hcalls : ∀ c ∈ calls, 0 < c.estimate) (h : Walks x y)
    (hwalk : ∀ s, Walks (walk s) (s.dumpOutputs calls)) :
    Walks (x >>= fun r => if !r.2 || stop r.1 then some (r.1, false) else walk r.1)
      (y >>= fun s => s.dumpOutputs calls) := by
  obtain ⟨rfl, hfull⟩ := h
  cases x with
  | none => exact ⟨rfl, fun s hs => by cases hs⟩
  | some r =>
    obtain ⟨s, ret⟩ := r
    change Walks (if !ret || stop s then some (s, false) else walk s) (s.dumpOutputs calls)
    by_cases hbreak : !ret || stop s
    · rw [if_pos hbreak]
      have hs : s.full := by
        cases ret with
        | false => exact hfull s rfl
        | true => exact hstop s hbreak
      refine ⟨(dumpOutputs_of_full hs hcalls).symm, fun s' hs' => ?_⟩
      cases hs'
      exact hs
    · rw [if_neg hbreak]
      exact hwalk s

/-! ### Every estimate is positive -/

theorem simple_positive (v : SimpleValue) : ∀ c ∈ v.calls, 0 < c.estimate := by
  have hone : ∀ (c : DumpCall) (n : Nat), c.estimate = n + 1 → ∀ d ∈ [c], 0 < d.estimate := by
    intro c n hc d hd
    rw [List.mem_singleton.mp hd, hc]
    exact Nat.succ_pos n
  cases v with
  | integer size value =>
    rw [SimpleValue.calls]
    split <;> exact hone _ _ rfl
  | unsigned size value =>
    rw [SimpleValue.calls]
    split <;> exact hone _ _ rfl
  | enumeration value => exact hone _ _ rfl
  | boolean value =>
    intro c hc
    rw [SimpleValue.calls, List.mem_cons] at hc
    rcases hc with rfl | hc
    · exact Nat.succ_pos 24
    · split at hc <;> exact hone _ _ rfl c hc
  | float size value =>
    rw [SimpleValue.calls]
    split
    · exact hone _ _ rfl
    split
    · exact hone _ _ rfl
    split
    · exact hone _ _ rfl
    split <;> exact hone _ _ rfl
  | char value => exact hone _ _ rfl
  | string value => cases value <;> exact hone _ _ rfl
  | r3vector x y z => exact hone _ _ rfl
  | unknown =>
    intro c hc
    cases hc

theorem edge_positive {text : DumpCall} (h : 0 < text.estimate) (indent : Nat) (compound : Bool) :
    ∀ c ∈ edgeCalls text indent compound, 0 < c.estimate := by
  intro c hc
  rw [edgeCalls, List.mem_append, List.mem_cons] at hc
  rcases hc with hc | rfl | hc
  · split at hc
    · rw [List.eq_of_mem_replicate hc]
      exact Nat.succ_pos 1
    · cases hc
  · exact h
  · split at hc
    · rw [List.mem_singleton.mp hc]
      exact Nat.one_pos
    · cases hc

variable (useXML : Bool)

theorem startText_positive (name : CString) : 0 < (startText useXML name).estimate := by
  cases useXML <;> exact Nat.succ_pos _

theorem stopText_positive (name : CString) : 0 < (stopText useXML name).estimate := by
  cases useXML <;> exact Nat.succ_pos _

/-! ### The walk and its calls -/

/-- A walk that does what its calls do, from every state and with every indentation. -/
structure WalkFollows (walk : Nat → DumpState → Option (DumpState × Bool))
    (calls : Nat → List DumpCall) : Prop where
  positive : ∀ indent, ∀ c ∈ calls indent, 0 < c.estimate
  walks : ∀ indent s, Walks (walk indent s) (s.dumpOutputs (calls indent))

variable {walk : Nat → DumpState → Option (DumpState × Bool)} {calls : Nat → List DumpCall}

theorem WalkFollows.bracketed (h : WalkFollows walk calls) (name : CString) (compound : Bool) :
    WalkFollows (fun indent => bracketed useXML name compound indent walk)
      (fun indent => bracketedCalls useXML name compound indent calls) where
  positive := by
    intro indent c hc
    rw [bracketedCalls, List.mem_append, List.mem_append] at hc
    rcases hc with (hc | hc) | hc
    · exact edge_positive (startText_positive useXML name) _ _ c hc
    · exact h.positive _ c hc
    · exact edge_positive (stopText_positive useXML name) _ _ c hc
  walks := by
    intro indent s
    rw [bracketedCalls, List.append_assoc, dumpOutputs_append, FFS.bracketed, edge_eq]
    refine Walks.bind fun s => ?_
    rw [dumpOutputs_append]
    obtain ⟨hcalls, hfull⟩ := h.walks (inside compound indent) s
    rw [← hcalls]
    cases hx : walk (inside compound indent) s with
    | none => exact ⟨rfl, fun s hs => by cases hs⟩
    | some r =>
      obtain ⟨s₁, ret⟩ := r
      change Walks (s₁.edge (stopText useXML name) indent compound >>= fun s => some (s, ret))
        (s₁.dumpOutputs (edgeCalls (stopText useXML name) indent compound))
      rw [edge_eq]
      cases ret with
      | true =>
        have hmap := walks_map (s₁.dumpOutputs (edgeCalls (stopText useXML name) indent compound))
        rwa [Option.map_eq_bind] at hmap
      | false =>
        have hs₁ : s₁.full := hfull s₁ hx
        have hstop : s₁.dumpOutputs (edgeCalls (stopText useXML name) indent compound) = some s₁ :=
          dumpOutputs_of_full hs₁ (edge_positive (stopText_positive useXML name) _ _)
        rw [hstop]
        refine ⟨rfl, fun s' hs' => ?_⟩
        cases hs'
        exact hs₁

/-- The look at the limit in front of a value. -/
theorem WalkFollows.guarded (h : WalkFollows walk calls) :
    WalkFollows (fun indent s => if s.overrun then some (s, false) else walk indent s) calls where
  positive := h.positive
  walks := by
    intro indent s
    by_cases hover : s.overrun
    · rw [if_pos hover]
      have hs := full_of_overrun hover
      refine ⟨(dumpOutputs_of_full hs (h.positive indent)).symm, fun s' hs' => ?_⟩
      cases hs'
      exact hs
    · rw [if_neg hover]
      exact h.walks indent s

theorem one_walkFollows {c : DumpCall} (hc : 0 < c.estimate) :
    WalkFollows (fun _ s => (s.dumpOutput c).map (·, true)) (fun _ => [c]) where
  positive := by
    intro _ d hd
    rw [List.mem_singleton.mp hd]
    exact hc
  walks := fun _ s => walks_outputs s c

theorem elements_walkFollows (vs : List DumpValue)
    (h : ∀ v ∈ vs, WalkFollows (dumpSubfield useXML v) (dumpValueCalls useXML v)) :
    WalkFollows (dumpElements useXML vs) (dumpElementsCalls useXML vs) := by
  induction vs with
  | nil =>
    exact ⟨fun _ c hc => absurd hc List.not_mem_nil,
      fun _ s => ⟨rfl, fun s hs => by cases hs⟩⟩
  | cons v vs ih =>
    have hv := h v List.mem_cons_self
    have hvs := ih fun v hv => h v (List.mem_cons_of_mem _ hv)
    refine ⟨?_, ?_⟩
    · intro indent c hc
      rw [dumpElementsCalls, List.mem_append] at hc
      exact hc.elim (hv.positive indent c) (hvs.positive indent c)
    · intro indent s
      rw [dumpElementsCalls, dumpOutputs_append]
      have hnext := (hv.walks indent s).next (fun _ => false) (fun s hs => by cases hs)
        (hvs.positive indent) (hvs.walks indent)
      simp only [Bool.or_false] at hnext
      exact hnext

theorem fields_walkFollows (fs : List DumpField)
    (h : ∀ f ∈ fs, WalkFollows (dumpField useXML f) (dumpFieldCalls useXML f)) :
    WalkFollows (dumpSubfields useXML fs) (dumpFieldsCalls useXML fs) := by
  induction fs with
  | nil =>
    exact ⟨fun _ c hc => absurd hc List.not_mem_nil,
      fun _ s => ⟨rfl, fun s hs => by cases hs⟩⟩
  | cons f fs ih =>
    have hf := h f List.mem_cons_self
    have hfs := ih fun f hf => h f (List.mem_cons_of_mem _ hf)
    refine ⟨?_, ?_⟩
    · intro indent c hc
      rw [dumpFieldsCalls, List.mem_append] at hc
      exact hc.elim (hf.positive indent c) (hfs.positive indent c)
    · intro indent s
      rw [dumpFieldsCalls, dumpOutputs_append]
      exact (hf.walks indent s).next full (fun _ hs => hs) (hfs.positive indent)
        (hfs.walks indent)

/-- `dump_subfields` on a field does what its calls do. -/
theorem dumpField_walkFollows (f : DumpField) :
    WalkFollows (dumpField useXML f) (dumpFieldCalls useXML f) := by
  induction f using DumpField.induct
    (V := fun v => WalkFollows (dumpSubfield useXML v) (dumpValueCalls useXML v)) with
  | mk name compound value ih => exact ih.bracketed useXML name compound
  | null => exact (one_walkFollows (by decide : 0 < nullText.estimate)).guarded
  | visited address => exact (one_walkFollows (Nat.succ_pos 19)).guarded
  | pointer address target ih =>
    have hwalk : WalkFollows (fun indent s => s.dumpOutput (addressText address) >>=
        dumpSubfield useXML target indent)
        (fun indent => addressText address :: dumpValueCalls useXML target indent) := by
      constructor
      · intro indent c hc
        rcases List.mem_cons.mp hc with rfl | hc
        · exact Nat.succ_pos 19
        · exact ih.positive indent c hc
      · intro indent s
        rw [dumpOutputs_cons]
        exact Walks.bind (ih.walks indent)
    exact hwalk.guarded
  | string value =>
    refine (one_walkFollows (c := stringText value) ?_).guarded
    cases value <;> exact Nat.succ_pos _
  | array elements ih => exact (elements_walkFollows useXML elements ih).guarded
  | subformat name compound fields ih =>
    exact ((fields_walkFollows useXML fields ih).bracketed useXML name compound).guarded
  | simple value =>
    exact WalkFollows.guarded ⟨fun _ => simple_positive value, fun _ s => walks_map _⟩

end

/-- A dump does what its calls do, from every state. -/
theorem Dump.run_eq (dump : Dump) (s : DumpState) : dump.run s = s.dumpOutputs dump.calls := by
  have hfields := (fields_walkFollows false dump.fields fun f _ => dumpField_walkFollows false f)
  have hrest : ∀ s : DumpState, (dumpSubfields false dump.fields 0 s >>= fun r =>
      r.1.dumpOutput newline) =
        s.dumpOutputs (dumpFieldsCalls false dump.fields 0 ++ [newline]) := by
    intro s
    rw [DumpState.dumpOutputs_append, ← (hfields.walks 0 s).1]
    cases dumpSubfields false dump.fields 0 s with
    | none => rfl
    | some r =>
      change r.1.dumpOutput newline = r.1.dumpOutputs [newline]
      rw [DumpState.dumpOutputs_singleton]
  rw [Dump.calls, List.append_assoc, DumpState.dumpOutputs_append, Dump.run]
  cases dump.verbose with
  | false => exact hrest s
  | true =>
    rw [if_pos rfl, if_pos rfl, DumpState.dumpOutputs_singleton]
    exact congrArg _ (funext hrest)

end FFS
