import FFS.Dump.Output

/-!
# Dumps that are complete

A dump is complete as a string, and the file has the same text up to the limit, just when every
text is within its estimate and the buffer, and no text follows one that the limit keeps out.
-/

namespace FFS

open Machine

/-! ## What can be printed -/

/-- The text is within the estimate and the buffer of `dump_output`. -/
def DumpCall.Fits (c : DumpCall) : Prop :=
  0 ∉ c.text ∧ c.text.length ≤ min c.estimate (dumpBufferSize - 1)

/-- A name that fits with what stands around it. -/
def printableName (name : CString) : Prop := name.length ≤ 1020

def SimpleValue.Printable : SimpleValue → Prop
  | integer size _ => size ≤ 8
  | boolean _ => False
  | float size _ => 4 ≤ size
  | char _ => False
  | string (some value) => value.length ≤ 1020
  | _ => True

mutual

def DumpField.Printable : DumpField → Prop
  | .mk name _ value => printableName name ∧ value.Printable
termination_by structural f => f

/-- Neither a boolean nor a character, no integer or float of an odd size, and no string or name
that does not fit into the buffer. -/
def DumpValue.Printable : DumpValue → Prop
  | .null => True
  | .visited _ => True
  | .pointer _ target => target.Printable
  | .string value => ∀ s ∈ value, s.length ≤ 1021
  | .array elements => printableElements elements
  | .subformat name _ fields => printableName name ∧ printableFields fields
  | .simple value => value.Printable
termination_by structural v => v

def printableElements : List DumpValue → Prop
  | [] => True
  | v :: vs => v.Printable ∧ printableElements vs
termination_by structural vs => vs

def printableFields : List DumpField → Prop
  | [] => True
  | f :: fs => f.Printable ∧ printableFields fs
termination_by structural fs => fs

end

def Dump.Printable (dump : Dump) : Prop :=
  (dump.verbose → dump.formatName.length ≤ 1009) ∧ printableFields dump.fields

/-! ## What the limit keeps out -/

/-- Behind the first call whose estimate goes over the limit there is none that does not. -/
def CutOnce (limit : Nat) : Nat → List DumpCall → Prop
  | _, [] => True
  | len, c :: calls =>
    if len + c.estimate ≤ limit then CutOnce limit (len + c.text.length) calls
    else ∀ d ∈ calls, limit < len + d.estimate

namespace Dump

def text (calls : List DumpCall) : List UInt8 := calls.flatMap DumpCall.text

/-- The string of a dump has every text, and a file has the same texts up to the limit. -/
def Complete (dump : Dump) (characterLimit : Option Nat) : Prop :=
  (∃ s, dump.dumpRawFMrecordToString = some s ∧ s.output = text dump.calls) ∧
    ∃ s, dump.fmfdumpEncodedData characterLimit = some s ∧ s.written <+: dump.calls ∧
      s.output = text s.written ∧ (∀ limit ∈ characterLimit, s.output.length ≤ limit) ∧
      (characterLimit = none → s.written = dump.calls)

end Dump

/-! ## Texts that fit -/

section

variable {c : DumpCall}

theorem printed_prefix (c : DumpCall) : c.printed <+: c.text :=
  (List.takeWhile_prefix _).trans (List.take_prefix _ _)

theorem printed_of_fits (h : c.Fits) : c.printed = c.text := by
  obtain ⟨hnul, hlength⟩ := h
  rw [DumpCall.printed, List.take_of_length_le (Nat.le_trans hlength (Nat.min_le_right _ _)),
    List.takeWhile_eq_self_iff]
  intro b hb
  simpa using fun e : b = 0 => hnul (e ▸ hb)

theorem fits_of_printed (h : c.printed = c.text)
    (hestimate : ¬ c.estimate < min c.text.length (dumpBufferSize - 1)) : c.Fits := by
  have hlength : c.text.length ≤ dumpBufferSize - 1 := by
    have hle : c.printed.length ≤ (c.text.take (dumpBufferSize - 1)).length :=
      (List.takeWhile_prefix _).length_le
    rw [h, List.length_take] at hle
    omega
  refine ⟨?_, by omega⟩
  rw [← h]
  intro hmem
  simpa using List.mem_takeWhile_imp hmem

theorem flatMap_printed_eq {calls : List DumpCall}
    (h : calls.flatMap DumpCall.printed = calls.flatMap DumpCall.text) :
    ∀ c ∈ calls, c.printed = c.text := by
  have hle : ∀ calls : List DumpCall, (calls.flatMap DumpCall.printed).length ≤
      (calls.flatMap DumpCall.text).length := by
    intro calls
    induction calls with
    | nil => exact Nat.le_refl 0
    | cons c calls ih =>
      rw [List.flatMap_cons, List.flatMap_cons, List.length_append, List.length_append]
      exact Nat.add_le_add ( printed_prefix c).length_le ih
  induction calls with
  | nil =>
    intro c hc
    cases hc
  | cons c calls ih =>
    rw [List.flatMap_cons, List.flatMap_cons] at h
    have hlengths := congrArg List.length h
    rw [List.length_append, List.length_append] at hlengths
    have hfirst := ( printed_prefix c).length_le
    have hrest := hle calls
    have heq : c.printed = c.text := ( printed_prefix c).eq_of_length (by omega)
    rw [heq] at h
    intro d hd
    rcases List.mem_cons.mp hd with rfl | hd
    · exact heq
    · exact ih (List.append_cancel_left h) d hd

end

namespace DumpState

variable {s s' : DumpState}

/-! ## The string -/

theorem dumpOutput_string (hlimit : s.outputLimit = none) (hstring : s.toString = true)
    (c : DumpCall) : s.dumpOutput c =
      if c.estimate < min c.text.length (dumpBufferSize - 1) then none
      else some (s.wrote c) := by
  have hallows : s.allows c := by
    rw [allows, hlimit]
    rfl
  rw [dumpOutput, if_pos hallows]
  simp only [hstring, true_and]

/-- The string has every text just when every text fits. -/
theorem dumpOutputs_string_iff (hlimit : s.outputLimit = none) (hstring : s.toString = true)
    (calls : List DumpCall) :
    (∃ s', s.dumpOutputs calls = some s' ∧ s'.output = s.output ++ Dump.text calls) ↔
      ∀ c ∈ calls, c.Fits := by
  have hrun : ∀ (calls : List DumpCall) (s s' : DumpState), s.outputLimit = none →
      s.toString = true → s.dumpOutputs calls = some s' →
      s'.output = s.output ++ calls.flatMap DumpCall.printed ∧
        ∀ c ∈ calls, ¬ c.estimate < min c.text.length (dumpBufferSize - 1) := by
    intro calls
    induction calls with
    | nil =>
      intro s s' _ _ h
      cases h
      exact ⟨(List.append_nil _).symm, fun c hc => absurd hc List.not_mem_nil⟩
    | cons c calls ih =>
      intro s s' hlimit hstring h
      rw [dumpOutputs_cons, dumpOutput_string hlimit hstring] at h
      by_cases hlarge : c.estimate < min c.text.length (dumpBufferSize - 1)
      · rw [if_pos hlarge] at h
        cases h
      · rw [if_neg hlarge] at h
        obtain ⟨houtput, hrest⟩ := ih (s.wrote c) s' hlimit hstring h
        refine ⟨?_, fun d hd => ?_⟩
        · rw [houtput, List.flatMap_cons]
          exact List.append_assoc _ _ _
        · rcases List.mem_cons.mp hd with rfl | hd
          · exact hlarge
          · exact hrest d hd
  constructor
  · rintro ⟨s', hs', houtput⟩
    obtain ⟨hprinted, hestimates⟩ := hrun calls s s' hlimit hstring hs'
    rw [hprinted] at houtput
    intro c hc
    exact fits_of_printed (flatMap_printed_eq (List.append_cancel_left houtput) c hc)
      (hestimates c hc)
  · intro hfits
    induction calls generalizing s with
    | nil => exact ⟨s, rfl, (List.append_nil _).symm⟩
    | cons c calls ih =>
      have hc := hfits c List.mem_cons_self
      have hlarge : ¬ c.estimate < min c.text.length (dumpBufferSize - 1) := by
        have hlength := hc.2
        omega
      rw [dumpOutputs_cons, dumpOutput_string hlimit hstring, if_neg hlarge]
      obtain ⟨s', hs', houtput⟩ := ih (s := s.wrote c) hlimit hstring fun d hd =>
        hfits d (List.mem_cons_of_mem _ hd)
      refine ⟨s', hs', ?_⟩
      rw [houtput, wrote, printed_of_fits hc]
      exact List.append_assoc _ _ _

/-! ## The file -/

/-- The calls that write, from a text of this length on. -/
def performed (limit : Nat) : Nat → List DumpCall → List DumpCall
  | _, [] => []
  | len, c :: calls =>
    if len + c.estimate ≤ limit then c :: performed limit (len + c.text.length) calls
    else performed limit len calls

theorem performed_eq_nil {limit len : Nat} {calls : List DumpCall} :
    performed limit len calls = [] ↔ ∀ d ∈ calls, limit < len + d.estimate := by
  induction calls with
  | nil => exact ⟨fun _ d hd => absurd hd List.not_mem_nil, fun _ => rfl⟩
  | cons c calls ih =>
    rw [performed]
    by_cases hc : len + c.estimate ≤ limit
    · rw [if_pos hc]
      refine ⟨fun h => absurd h (List.cons_ne_nil _ _), fun h => ?_⟩
      exact absurd (h c List.mem_cons_self) (Nat.not_lt.mpr hc)
    · rw [if_neg hc, ih, List.forall_mem_cons]
      exact ⟨fun h => ⟨Nat.not_le.mp hc, h⟩, fun h => h.2⟩

/-- The first call that writes is within the limit. -/
theorem head_performed {limit len : Nat} {calls : List DumpCall} {d : DumpCall}
    (h : (performed limit len calls).head? = some d) : len + d.estimate ≤ limit := by
  induction calls with
  | nil => cases h
  | cons c calls ih =>
    rw [performed] at h
    by_cases hc : len + c.estimate ≤ limit
    · rw [if_pos hc] at h
      cases h
      exact hc
    · rw [if_neg hc] at h
      exact ih h

theorem performed_prefix_iff {limit len : Nat} {calls : List DumpCall} :
    performed limit len calls <+: calls ↔ CutOnce limit len calls := by
  induction calls generalizing len with
  | nil => exact ⟨fun _ => trivial, fun _ => List.prefix_refl _⟩
  | cons c calls ih =>
    rw [performed, CutOnce]
    by_cases hc : len + c.estimate ≤ limit
    · rw [if_pos hc, if_pos hc, List.cons_prefix_cons, ih]
      exact ⟨fun h => h.2, fun h => ⟨rfl, h⟩⟩
    · rw [if_neg hc, if_neg hc, ← performed_eq_nil]
      constructor
      · intro hprefix
        cases hperformed : performed limit len calls with
        | nil => rfl
        | cons d rest =>
          have hd := head_performed (congrArg List.head? hperformed)
          rw [hperformed, List.cons_prefix_cons] at hprefix
          exact absurd ( hprefix.1 ▸ hd) hc
      · intro hnil
        rw [hnil]
        exact List.nil_prefix

theorem length_performed_le {limit len : Nat} {calls : List DumpCall}
    (hfits : ∀ c ∈ calls, c.Fits) (hlen : len ≤ limit) :
    len + (Dump.text (performed limit len calls)).length ≤ limit := by
  induction calls generalizing len with
  | nil => exact hlen
  | cons c calls ih =>
    have hrest := fun d hd => hfits d (List.mem_cons_of_mem c hd)
    rw [performed]
    by_cases hc : len + c.estimate ≤ limit
    · have hlength := (hfits c List.mem_cons_self).2
      have hbound := @ih (len + c.text.length) hrest (by omega)
      rw [if_pos hc, Dump.text, List.flatMap_cons, List.length_append, ← Nat.add_assoc]
      exact hbound
    · rw [if_neg hc]
      exact ih hrest hlen

/-- A file gets the texts of the calls that the limit lets through. -/
theorem dumpOutputs_file {limit : Nat} (hlimit : s.outputLimit = some limit)
    (hfile : s.toString = false) {calls : List DumpCall} (hfits : ∀ c ∈ calls, c.Fits) :
    ∃ s', s.dumpOutputs calls = some s' ∧
      s'.output = s.output ++ Dump.text (performed limit s.outputLen calls) ∧
      s'.written = s.written ++ performed limit s.outputLen calls := by
  induction calls generalizing s with
  | nil => exact ⟨s, rfl, (List.append_nil _).symm, (List.append_nil _).symm⟩
  | cons c calls ih =>
    have hrest := fun d hd => hfits d (List.mem_cons_of_mem c hd)
    rw [dumpOutputs_cons, dumpOutput, allows, hlimit, Option.all_some, performed]
    by_cases hc : s.outputLen + c.estimate ≤ limit
    · rw [if_pos (decide_eq_true hc), if_neg (by rw [hfile]; simp), if_pos hc]
      obtain ⟨s', hs', houtput, hwritten⟩ := ih (s := s.wrote c) hlimit hfile hrest
      rw [wrote, printed_of_fits (hfits c List.mem_cons_self)] at houtput hwritten
      refine ⟨s', hs', houtput.trans ?_, hwritten.trans ?_⟩
      · exact List.append_assoc _ _ _
      · exact List.append_assoc _ _ _
    · rw [if_neg (by rwa [decide_eq_true_eq]), if_neg hc]
      exact ih hlimit hfile hrest

theorem dumpOutputs_unlimited (hlimit : s.outputLimit = none) (hfile : s.toString = false)
    {calls : List DumpCall} (hfits : ∀ c ∈ calls, c.Fits) :
    ∃ s', s.dumpOutputs calls = some s' ∧ s'.output = s.output ++ Dump.text calls ∧
      s'.written = s.written ++ calls := by
  induction calls generalizing s with
  | nil => exact ⟨s, rfl, (List.append_nil _).symm, (List.append_nil _).symm⟩
  | cons c calls ih =>
    have hallows : s.allows c := by
      rw [allows, hlimit]
      rfl
    rw [dumpOutputs_cons, dumpOutput, if_pos hallows, if_neg (by rw [hfile]; simp)]
    obtain ⟨s', hs', houtput, hwritten⟩ := ih (s := s.wrote c) hlimit hfile fun d hd =>
      hfits d (List.mem_cons_of_mem c hd)
    rw [wrote, printed_of_fits (hfits c List.mem_cons_self)] at houtput hwritten
    refine ⟨s', hs', houtput.trans ?_, hwritten.trans ?_⟩
    · exact List.append_assoc _ _ _
    · exact List.append_assoc _ _ _

end DumpState

/-! ## The texts of a tree -/

section

theorem forall_singleton {c : DumpCall} : (∀ d ∈ [c], d.Fits) ↔ c.Fits := by
  simp only [List.forall_mem_singleton]

/-- A number and a blank are within 25 bytes. -/
theorem decimal_fits {value : Int} (h : value.natAbs < 10 ^ 20) :
    DumpCall.Fits ⟨25, decimal value ++ [blank]⟩ := by
  have hlength := length_decimal_le (by decide : 0 < 20) h
  refine ⟨?_, ?_⟩
  · rw [List.mem_append, not_or]
    exact ⟨decimal_noNul value, by decide⟩
  · rw [List.length_append]
    change (decimal value).length + 1 ≤ 25
    omega

theorem unsigned_fits (value : UInt64) :
    DumpCall.Fits ⟨25, decimal value.toNat ++ [blank]⟩ := by
  apply decimal_fits
  have hlt := value.toNat_lt
  rw [Int.natAbs_natCast]
  omega

theorem signed_fits (value : Int64) : DumpCall.Fits ⟨25, decimal value.toInt ++ [blank]⟩ := by
  apply decimal_fits
  have hlt := value.toInt_lt
  have hle := value.le_toInt
  omega

/-- The text of a float and a blank. -/
theorem float_fits (value : FloatText) {estimate : Nat} (h : 15 ≤ estimate) :
    DumpCall.Fits ⟨estimate, value.bytes ++ [blank]⟩ := by
  have hshort := value.short
  refine ⟨?_, ?_⟩
  · rw [List.mem_append, not_or]
    exact ⟨value.noNul, by decide⟩
  · rw [List.length_append]
    change value.bytes.length + 1 ≤ min estimate 1023
    omega

/-- A string with a few bytes around it fits just when it is not too long. -/
theorem around_fits_iff (front behind : List UInt8) (hfront : 0 ∉ front) (hbehind : 0 ∉ behind)
    (s : CString) (estimate : Nat) (h : front.length + s.length + behind.length ≤ estimate) :
    DumpCall.Fits ⟨estimate, front ++ s.bytes ++ behind⟩ ↔
      front.length + s.length + behind.length ≤ 1023 := by
  have hlength : (front ++ s.bytes ++ behind).length =
      front.length + s.length + behind.length := by
    rw [List.length_append, List.length_append]
    rfl
  constructor
  · rintro ⟨-, hfits⟩
    dsimp only at hfits
    rw [hlength] at hfits
    exact Nat.le_trans hfits (Nat.min_le_right _ _)
  · intro hshort
    refine ⟨?_, ?_⟩
    · rw [List.mem_append, List.mem_append]
      rintro ((hmem | hmem) | hmem)
      · exact hfront hmem
      · exact s.noNul hmem
      · exact hbehind hmem
    · dsimp only
      rw [hlength]
      exact Nat.le_min.mpr ⟨h, hshort⟩

theorem simple_fits_iff (value : SimpleValue) :
    (∀ c ∈ value.calls, c.Fits) ↔ value.Printable := by
  cases value with
  | integer size value =>
    rw [SimpleValue.calls, SimpleValue.Printable]
    by_cases hsize : size ≤ 8
    · rw [if_pos hsize, forall_singleton]
      exact iff_of_true (signed_fits value) hsize
    · rw [if_neg hsize, forall_singleton]
      exact iff_of_false (fun h => absurd h.2 (by decide)) hsize
  | unsigned size value =>
    rw [SimpleValue.calls]
    by_cases hsize : size ≤ 8
    · rw [if_pos hsize, forall_singleton]
      exact iff_of_true (unsigned_fits value) trivial
    · rw [if_neg hsize, forall_singleton]
      exact iff_of_true ⟨by decide, by decide⟩ trivial
  | enumeration value =>
    rw [SimpleValue.calls, forall_singleton]
    exact iff_of_true (unsigned_fits value) trivial
  | boolean value =>
    refine iff_of_false (fun h => ?_) id
    have hword := h _ (List.mem_cons_of_mem _ List.mem_cons_self)
    by_cases hzero : value = 0
    · rw [if_pos hzero] at hword
      exact absurd hword.2 (by decide)
    · rw [if_neg hzero] at hword
      exact absurd hword.2 (by decide)
  | float size value =>
    rw [SimpleValue.calls, SimpleValue.Printable]
    by_cases hfloat : size = 4 ∨ size = 8
    · rw [if_pos hfloat, forall_singleton]
      exact iff_of_true (float_fits value (by decide)) (by omega)
    rw [if_neg hfloat]
    by_cases hlong : size = 16
    · rw [if_pos hlong, forall_singleton]
      exact iff_of_true (float_fits value (by decide)) (by omega)
    rw [if_neg hlong]
    by_cases htiny : size < 4
    · rw [if_pos htiny, forall_singleton]
      exact iff_of_false (fun h => absurd h.2 (by decide)) (by omega)
    rw [if_neg htiny]
    by_cases hbig : 8 < size
    · rw [if_pos hbig, forall_singleton]
      exact iff_of_true ⟨by decide, by decide⟩ (by omega)
    rw [if_neg hbig, forall_singleton]
    refine iff_of_true ?_ (by omega)
    obtain rfl | rfl | rfl : size = 5 ∨ size = 6 ∨ size = 7 := by omega
    all_goals exact ⟨by decide, by decide⟩
  | char value =>
    refine iff_of_false (fun h => ?_) id
    have hlength : 2 ≤ min 1 1023 := (h _ List.mem_cons_self).2
    exact absurd hlength (by decide)
  | string value =>
    rw [SimpleValue.Printable.eq_def]
    cases value with
    | none =>
      rw [SimpleValue.calls, forall_singleton]
      exact iff_of_true ⟨by decide, by decide⟩ trivial
    | some value =>
      rw [SimpleValue.calls, forall_singleton]
      have hfits := around_fits_iff [chr '"'] (chars [' ', '"']) (by decide) (by decide) value
        (value.length + 3) (by simp [chars]; omega)
      rw [show chr '"' :: value.bytes ++ chars [' ', '"'] =
        [chr '"'] ++ value.bytes ++ chars [' ', '"'] from rfl, hfits]
      change 1 + value.length + 2 ≤ 1023 ↔ value.length ≤ 1020
      omega
  | r3vector x y z =>
    rw [SimpleValue.calls, forall_singleton]
    refine iff_of_true ⟨?_, ?_⟩ trivial
    · simp only [List.mem_append, List.mem_cons, not_or]
      exact ⟨⟨⟨⟨⟨⟨by decide, x.noNul⟩, by decide⟩, y.noNul⟩, by decide⟩, z.noNul⟩, by decide⟩
    · have hx := x.short
      have hy := y.short
      have hz := z.short
      simp only [List.length_append, List.length_cons]
      change x.bytes.length + 1 + 2 + y.bytes.length + 2 + z.bytes.length + 2 ≤ 60
      omega
  | unknown => exact iff_of_true (fun c hc => absurd hc List.not_mem_nil) trivial

theorem edge_fits_iff (text : DumpCall) (indent : Nat) (compound : Bool) :
    (∀ c ∈ edgeCalls text indent compound, c.Fits) ↔ text.Fits := by
  have hindent : indentText.Fits := ⟨by decide, by decide⟩
  have hnewline : newline.Fits := ⟨by decide, by decide⟩
  constructor
  · intro h
    exact h text (List.mem_append_right _ List.mem_cons_self)
  · intro htext c hc
    rw [edgeCalls, List.mem_append, List.mem_cons] at hc
    rcases hc with hc | rfl | hc
    · split at hc
      · exact List.eq_of_mem_replicate hc ▸ hindent
      · cases hc
    · exact htext
    · split at hc
      · exact List.mem_singleton.mp hc ▸ hnewline
      · cases hc

theorem startText_fits_iff (name : CString) :
    (startText false name).Fits ↔ printableName name := by
  have hfits := around_fits_iff [] (chars [' ', '=', ' ']) (by decide) (by decide) name
    (name.length + 3) (by simp [chars])
  change DumpCall.Fits ⟨name.length + 3, [] ++ name.bytes ++ chars [' ', '=', ' ']⟩ ↔ _
  rw [hfits]
  change 0 + name.length + 3 ≤ 1023 ↔ name.length ≤ 1020
  omega

theorem stopText_fits (name : CString) : (stopText false name).Fits :=
  ⟨(by decide : 0 ∉ chars [',']), (by decide : 1 ≤ min 1 1023)⟩

/-- The texts around a value fit just when the name does. -/
theorem bracketed_fits_iff (name : CString) (compound : Bool) (indent : Nat)
    (calls : Nat → List DumpCall) :
    (∀ c ∈ bracketedCalls false name compound indent calls, c.Fits) ↔
      printableName name ∧ ∀ c ∈ calls (inside compound indent), c.Fits := by
  have hstop := (edge_fits_iff (stopText false name) indent compound).mpr (stopText_fits name)
  rw [bracketedCalls, List.forall_mem_append, List.forall_mem_append, edge_fits_iff,
    startText_fits_iff]
  exact ⟨fun h => h.1, fun h => ⟨h, hstop⟩⟩

theorem stringText_fits_iff (value : Option CString) :
    (stringText value).Fits ↔ ∀ s ∈ value, s.length ≤ 1021 := by
  cases value with
  | none => exact iff_of_true ⟨by decide, by decide⟩ fun s hs => by cases hs
  | some s =>
    have hfits := around_fits_iff [chr '"'] (chars ['"']) (by decide) (by decide) s
      (s.length + 2) (by simp [chars]; omega)
    change DumpCall.Fits ⟨s.length + 2, [chr '"'] ++ s.bytes ++ chars ['"']⟩ ↔ _
    rw [hfits]
    change 1 + s.length + 1 ≤ 1023 ↔ _
    constructor
    · intro h s' hs'
      cases hs'
      omega
    · intro h
      have hs := h s rfl
      omega

theorem addressText_fits (address : UInt64) : (addressText address).Fits := by
  have hlength := length_pointerText_le address
  refine ⟨?_, ?_⟩
  · rw [addressText, List.mem_append, not_or]
    exact ⟨pointerText_noNul address, by decide⟩
  · rw [addressText, List.length_append]
    change (pointerText address).length + 1 ≤ 20
    omega

theorem elements_fits_iff (vs : List DumpValue) (indent : Nat)
    (h : ∀ v ∈ vs, (∀ c ∈ dumpValueCalls false v indent, c.Fits) ↔ v.Printable) :
    (∀ c ∈ dumpElementsCalls false vs indent, c.Fits) ↔ printableElements vs := by
  induction vs with
  | nil => exact iff_of_true (fun c hc => absurd hc List.not_mem_nil) trivial
  | cons v vs ih =>
    rw [dumpElementsCalls, List.forall_mem_append, h v List.mem_cons_self,
      ih fun v hv => h v (List.mem_cons_of_mem _ hv)]
    rfl

theorem fields_fits_iff (fs : List DumpField) (indent : Nat)
    (h : ∀ f ∈ fs, (∀ c ∈ dumpFieldCalls false f indent, c.Fits) ↔ f.Printable) :
    (∀ c ∈ dumpFieldsCalls false fs indent, c.Fits) ↔ printableFields fs := by
  induction fs with
  | nil => exact iff_of_true (fun c hc => absurd hc List.not_mem_nil) trivial
  | cons f fs ih =>
    rw [dumpFieldsCalls, List.forall_mem_append, h f List.mem_cons_self,
      ih fun f hf => h f (List.mem_cons_of_mem _ hf)]
    rfl

/-- Every text of a field fits just when the field is printable, whatever its indentation. -/
theorem field_fits_iff (f : DumpField) :
    ∀ indent, (∀ c ∈ dumpFieldCalls false f indent, c.Fits) ↔ f.Printable := by
  induction f using DumpField.induct
    (V := fun v => ∀ indent, (∀ c ∈ dumpValueCalls false v indent, c.Fits) ↔ v.Printable) with
  | mk name compound value ih =>
    intro indent
    rw [dumpFieldCalls, bracketed_fits_iff, ih]
    rfl
  | null =>
    rw [dumpValueCalls, forall_singleton]
    exact iff_of_true ⟨by decide, by decide⟩ trivial
  | visited address =>
    rw [dumpValueCalls, forall_singleton]
    exact iff_of_true (addressText_fits address) trivial
  | pointer address target ih =>
    rw [dumpValueCalls, List.forall_mem_cons, ih]
    exact and_iff_right (addressText_fits address)
  | string value =>
    rw [dumpValueCalls, forall_singleton, stringText_fits_iff]
    rfl
  | array elements ih =>
    exact elements_fits_iff elements _ fun v hv => ih v hv _
  | subformat name compound fields ih =>
    rw [dumpValueCalls, bracketed_fits_iff]
    exact and_congr_right fun _ => fields_fits_iff fields _ fun f hf => ih f hf _
  | simple value =>
    exact simple_fits_iff value

end

theorem recordText_fits_iff (formatName : CString) :
    (Dump.recordText formatName).Fits ↔ formatName.length ≤ 1009 := by
  rw [Dump.recordText,
    around_fits_iff _ _ (by decide) (by decide) formatName _ (by simp [chars]; omega)]
  change 12 + formatName.length + 2 ≤ 1023 ↔ _
  omega

theorem Dump.fits_iff (dump : Dump) : (∀ c ∈ dump.calls, c.Fits) ↔ dump.Printable := by
  have hnewline : ∀ c ∈ [newline], c.Fits := forall_singleton.mpr ⟨by decide, by decide⟩
  rw [Dump.calls, List.forall_mem_append, List.forall_mem_append,
    fields_fits_iff dump.fields 0 fun f _ => field_fits_iff f 0, and_iff_left hnewline,
    Dump.Printable]
  apply and_congr_left
  intro _
  cases dump.verbose with
  | false => exact iff_of_true (fun c hc => absurd hc List.not_mem_nil) (fun h => by cases h)
  | true =>
    rw [if_pos rfl, forall_singleton, recordText_fits_iff]
    exact ⟨fun h _ => h, fun h => h rfl⟩

/-- A dump is complete just when every text fits and the limit cuts it once. -/
theorem dump_complete_iff (dump : Dump) (characterLimit : Option Nat) :
    dump.Complete characterLimit ↔
      dump.Printable ∧ ∀ limit ∈ characterLimit, CutOnce limit 0 dump.calls := by
  rw [Dump.Complete, Dump.dumpRawFMrecordToString, Dump.fmfdumpEncodedData, Dump.run_eq,
    Dump.run_eq, ← dump.fits_iff]
  have hstring := DumpState.dumpOutputs_string_iff (s := ⟨none, true, 0, [], []⟩) rfl rfl dump.calls
  rw [List.nil_append] at hstring
  rw [hstring]
  apply and_congr_right
  intro hfits
  cases characterLimit with
  | none =>
    obtain ⟨s, hs, houtput, hwritten⟩ :=
      DumpState.dumpOutputs_unlimited (s := ⟨none, false, 0, [], []⟩) rfl rfl hfits
    rw [List.nil_append] at houtput hwritten
    refine iff_of_true ⟨s, hs, ?_, ?_, fun limit h => absurd h (Option.not_mem_none _),
      fun _ => hwritten⟩ fun limit h => absurd h (Option.not_mem_none _)
    · exact hwritten ▸ List.prefix_refl _
    · rw [houtput, hwritten]
  | some limit =>
    obtain ⟨s, hs, houtput, hwritten⟩ :=
      DumpState.dumpOutputs_file (s := ⟨some limit, false, 0, [], []⟩) rfl rfl hfits
    rw [List.nil_append] at houtput hwritten
    have hcut : (∀ n ∈ some limit, CutOnce n 0 dump.calls) ↔
        DumpState.performed limit 0 dump.calls <+: dump.calls := by
      rw [DumpState.performed_prefix_iff]
      exact ⟨fun h => h limit rfl, fun h n hn => by cases hn; exact h⟩
    rw [hcut, ← hwritten]
    constructor
    · rintro ⟨s', hs', hprefix, -⟩
      cases hs.symm.trans hs'
      exact hprefix
    · intro hprefix
      refine ⟨s, hs, hprefix, ?_, fun n hn => ?_, fun h => absurd h (Option.some_ne_none _)⟩
      · rw [houtput, hwritten]
      · cases hn
        rw [houtput, ← Nat.zero_add (List.length _)]
        exact DumpState.length_performed_le hfits (Nat.zero_le limit)

/-- A record with one boolean field, named by one letter. -/
def booleanDump : Dump where
  verbose := false
  formatName := cstr ['r'] (.refl false)
  fields := [.mk (cstr ['b'] (.refl false)) false (.simple (.boolean 1))]

/-- The text of a boolean is written behind the string. -/
theorem dump_not_complete : ¬ ∀ (dump : Dump) (characterLimit : Option Nat),
    dump.Complete characterLimit := by
  intro h
  obtain ⟨⟨s, hs, -⟩, -⟩ := h booleanDump none
  have hnone : booleanDump.dumpRawFMrecordToString.isNone = true := by decide
  rw [hs] at hnone
  cases hnone

end FFS
