import FFS.Machine.CString
import Mathlib.Data.List.DropRight

/-!
# The preprocessor

Before a program is parsed, `include_prefix` looks for the brace in front of which there are only
blanks and `#` lines, and `cod_preprocessor` blanks the `#include` directives of what stands
there.  Both go from line to line, and neither expects a text that ends where they look for more.
-/

namespace FFS
namespace Cod

open Machine

/-- How a scan of a text has ended after some number of steps: with a result, behind the NUL, or
not at all. -/
inductive Scan (α : Type) where
  | returns (a : α)
  | outside
  | running
deriving DecidableEq

def Scan.map {α β : Type} (f : α → β) : Scan α → Scan β
  | returns a => returns (f a)
  | outside => outside
  | running => running

@[simp] theorem Scan.map_eq_returns {α β : Type} {f : α → β} {x : Scan α} {b : β} :
    x.map f = .returns b ↔ ∃ a, x = .returns a ∧ f a = b := by
  cases x <;> simp [Scan.map]

/-! ## Lines -/

def newline : UInt8 := chr '\n'

def lines (text : List UInt8) : List (List UInt8) := text.splitOn newline

def join (ls : List (List UInt8)) : List UInt8 := [newline].intercalate ls

/-- The rest of a line. -/
def lineOf (s : List UInt8) : List UInt8 := s.takeWhile (· ≠ newline)

/-- `strchr(s, '\n')` -/
def lineEnd (s : List UInt8) : List UInt8 := s.dropWhile (· ≠ newline)

/-! ## `include_prefix` -/

/-- The loop of `include_prefix`, `fuel` times round.  What is returned is the text from `tmp`
on. -/
def includePrefixLoop : Nat → List UInt8 → Scan (List UInt8)
  | 0, _ => .running
  | fuel + 1, s =>
    let tmp := s.dropWhile isSpace
    if tmp.head? = some (chr '#') then
      if lineEnd tmp = [] then .outside else includePrefixLoop fuel (lineEnd tmp)
    else if tmp.head? = some (chr '{') then .returns tmp
    else includePrefixLoop fuel tmp

def includePrefix (fuel : Nat) (code : CString) : Scan Nat :=
  (includePrefixLoop fuel code.bytes).map (code.bytes.length - ·.length)

def hashLine (l : List UInt8) : Bool := (l.dropWhile isSpace).head? == some (chr '#')

/-- Where the first brace is that is not on a `#` line, or else the end of the text. -/
def bracePosition : List (List UInt8) → Nat
  | [] => 0
  | l :: ls =>
    if hashLine l || !l.contains (chr '{') then
      if ls = [] then l.length else l.length + 1 + bracePosition ls
    else l.idxOf (chr '{')

/-- There is a brace with only blanks in front of it on its line, and the lines before that are
blank or `#` lines. -/
def BraceFollows : List (List UInt8) → Prop
  | [] => False
  | l :: ls =>
    (l.dropWhile isSpace).head? = some (chr '{') ∨
      (l.dropWhile isSpace = [] ∨ hashLine l = true) ∧ BraceFollows ls

instance decidableBraceFollows : (ls : List (List UInt8)) → Decidable (BraceFollows ls)
  | [] => .isFalse id
  | _ :: ls =>
    have := decidableBraceFollows ls
    inferInstanceAs (Decidable (_ ∨ _ ∧ _))

/-! ## `cod_preprocessor` -/

/-- What stands behind `#include` and the blanks that follow it. -/
def afterInclude (s : List UInt8) : Option (List UInt8) :=
  if chars ['#', 'i', 'n', 'c', 'l', 'u', 'd', 'e'] <+: s ∧ (s.drop 8).head?.any isSpace then
    some ((s.drop 8).dropWhile isSpace)
  else none

/-- Where the name ends that stands between brackets or quotes at the start of a line. -/
def closing : List UInt8 → Option Nat
  | [] => none
  | b :: s =>
    if b = chr '<' then ((b :: s).idxOf? (chr '>'))
    else if b = chr '"' then (s.idxOf? (chr '"')).map (· + 1)
    else none

/-- The label `skip`: the rest of the loop's body, with the text from the start of the line.
Where the newline is behind a quote, `ptr` stays where it is. -/
def skipToNextLine (loop : List UInt8 → Scan (List UInt8)) (s : List UInt8) :
    Scan (List UInt8) :=
  if lineEnd s = [] then .returns s
  else if (lineOf s).getLast? = some (chr '\'') then .running
  else (loop (lineEnd s)).map (lineOf s ++ ·)

/-- The body of the loop behind the first blank.  Where there is no name, the NUL that was put in
the place of the newline is still there at `skip`. -/
def preprocessLine (loop : List UInt8 → Scan (List UInt8)) (s : List UInt8) :
    Scan (List UInt8) :=
  match afterInclude s with
  | none => skipToNextLine loop s
  | some ptr =>
    let passed := s.length - ptr.length
    match closing (lineOf ptr) with
    | none => if lineEnd ptr = [] then .returns s else .returns (s.take passed ++ lineOf ptr)
    | some n =>
      skipToNextLine loop (List.replicate (passed + n + 1) (chr ' ') ++ ptr.drop (n + 1))

/-- The loop of `cod_preprocessor`, `fuel` times round, and what it makes of the text from `ptr`
on. -/
def preprocessLoop : Nat → List UInt8 → Scan (List UInt8)
  | 0, _ => .running
  | _ + 1, [] => .returns []
  | fuel + 1, b :: s =>
    if isSpace b then (preprocessLine (preprocessLoop fuel) s).map (b :: ·)
    else preprocessLine (preprocessLoop fuel) (b :: s)

/-- What `cod_preprocessor` returns: no copy, or a copy, and whether it is nothing but blanks.  Then
it is freed already, and `cod_parse_for_context` leaves without a look at it. -/
def codPreprocessor (fuel : Nat) (input : CString) : Scan (Option (List UInt8) × Bool) :=
  if chr '#' ∈ input.bytes then
    (preprocessLoop fuel input.bytes).map fun out => (some out, out.all isSpace)
  else .returns (none, false)

/-! ## The text with its directives blanked -/

/-- How long the `#include` directive at the start of a line is, if it is well formed. -/
def directive (l : List UInt8) : Option Nat :=
  (afterInclude l).bind fun name => (closing name).map (l.length - name.length + · + 1)

def blankDirective (l : List UInt8) : List UInt8 :=
  match directive l with
  | none => l
  | some n => List.replicate n (chr ' ') ++ l.drop n

/-- A line with its `#include` directive blanked. -/
def blankLine (l : List UInt8) : List UInt8 :=
  l.takeWhile isSpace ++ blankDirective (l.dropWhile isSpace)

def blankIncludes (text : List UInt8) : List UInt8 := join ((lines text).map blankLine)

/-- No directive is indented, a malformed one is the last that the text has, and no line ends in
a quote that has another behind it. -/
def DirectivesKept : List (List UInt8) → Prop
  | [] => True
  | l :: ls =>
    if directive l = none ∧ (afterInclude (join (l :: ls))).isSome then
      (∀ ptr ∈ afterInclude (join (l :: ls)), closing ptr = none ∧ lineEnd ptr = []) ∧
        ∀ l' ∈ ls, directive (l'.dropWhile isSpace) = none
    else
      (directive l = none → directive (l.dropWhile isSpace) = none) ∧
        (ls ≠ [] → l.getLast? ≠ some (chr '\'') ∧ DirectivesKept ls)

instance decidableDirectivesKept : (ls : List (List UInt8)) → Decidable (DirectivesKept ls)
  | [] => .isTrue trivial
  | _ :: ls =>
    have := decidableDirectivesKept ls
    inferInstanceAs (Decidable (if _ ∧ _ then _ ∧ _ else _ ∧ _))

/-- The text behind the blank that the first line may start with. -/
def behindBlank (text : List UInt8) : List UInt8 :=
  if text.head?.any isSpace then text.tail else text

/-! ## Lines of a text -/

/-- What stands behind a line. -/
def following : List (List UInt8) → List UInt8
  | [] => []
  | l :: ls => newline :: join (l :: ls)

theorem join_cons (l : List UInt8) (ls : List (List UInt8)) :
    join (l :: ls) = l ++ following ls := by
  cases ls with
  | nil => simp [join, following]
  | cons x xs => simp [join, following]

theorem join_lines (text : List UInt8) : join (lines text) = text :=
  List.intercalate_splitOn newline

theorem lines_join {ls : List (List UInt8)} (hls : ls ≠ []) (h : ∀ l ∈ ls, newline ∉ l) :
    lines (join ls) = ls :=
  List.splitOn_intercalate newline h hls

theorem newline_notMem_of_mem_lines (text : List UInt8) {l : List UInt8} (h : l ∈ lines text) :
    newline ∉ l := by
  induction text generalizing l with
  | nil =>
    obtain rfl : l = [] := by simpa [lines] using h
    simp
  | cons b s ih =>
    rw [lines, List.splitOn_cons_eq_if_modifyHead] at h
    by_cases hb : b = newline
    · rw [if_pos (by simpa using hb), List.mem_cons] at h
      rcases h with rfl | h
      · simp
      · exact ih h
    · rw [if_neg (by simpa using hb)] at h
      obtain ⟨x, xs, hx⟩ := List.exists_cons_of_ne_nil (List.splitOn_ne_nil newline s)
      rw [hx, List.modifyHead_cons, List.mem_cons] at h
      rcases h with rfl | h
      · have hmem : newline ∉ x := ih (by rw [lines, hx]; exact List.mem_cons_self ..)
        simp only [List.mem_cons, not_or]
        exact ⟨fun he => hb he.symm, hmem⟩
      · exact ih (by rw [lines, hx]; exact List.mem_cons_of_mem _ h)

theorem mem_of_mem_join {ls : List (List UInt8)} {l : List UInt8} {b : UInt8} (hl : l ∈ ls)
    (hb : b ∈ l) : b ∈ join ls := by
  induction ls with
  | nil => cases hl
  | cons x xs ih =>
    rw [join_cons, List.mem_append]
    rcases List.mem_cons.1 hl with rfl | hl
    · exact .inl hb
    · obtain ⟨y, ys, rfl⟩ := List.exists_cons_of_ne_nil (List.ne_nil_of_mem hl)
      exact .inr (List.mem_cons_of_mem _ (ih hl))

theorem following_head (ls : List (List UInt8)) : following ls = [] ∨
    (following ls).head? = some newline := by
  cases ls with
  | nil => exact .inl rfl
  | cons l ls => exact .inr rfl

@[simp] theorem following_eq_nil {ls : List (List UInt8)} : following ls = [] ↔ ls = [] := by
  cases ls <;> simp [following]

/-- A scan for a newline stops behind the line. -/
theorem lineOf_append {l : List UInt8} (h : newline ∉ l) (ls : List (List UInt8)) :
    lineOf (l ++ following ls) = l := by
  rw [lineOf, List.takeWhile_append_of_pos fun b hb => by
    simpa using fun he : b = newline => h (he ▸ hb)]
  cases ls <;> simp [following]

theorem lineEnd_append {l : List UInt8} (h : newline ∉ l) (ls : List (List UInt8)) :
    lineEnd (l ++ following ls) = following ls := by
  rw [lineEnd, List.dropWhile_append_of_pos fun b hb => by
    simpa using fun he : b = newline => h (he ▸ hb)]
  cases ls <;> simp [following]

theorem lineOf_append_lineEnd (s : List UInt8) : lineOf s ++ lineEnd s = s :=
  List.takeWhile_append_dropWhile

theorem dropWhile_isSpace_append {l : List UInt8} (h : l.dropWhile isSpace ≠ [])
    (s : List UInt8) : (l ++ s).dropWhile isSpace = l.dropWhile isSpace ++ s := by
  induction l with
  | nil => exact absurd rfl h
  | cons b l ih =>
    by_cases hb : isSpace b = true
    · rw [List.cons_append, List.dropWhile_cons_of_pos hb, List.dropWhile_cons_of_pos hb]
      exact ih (by rwa [List.dropWhile_cons_of_pos hb] at h)
    · rw [List.cons_append, List.dropWhile_cons_of_neg hb, List.dropWhile_cons_of_neg hb,
        List.cons_append]

theorem isSpace_of_dropWhile_eq_nil {l : List UInt8} (h : l.dropWhile isSpace = []) :
    ∀ b ∈ l, isSpace b = true :=
  List.dropWhile_eq_nil_iff.1 h

theorem dropWhile_isSpace_blank {l : List UInt8} (h : l.dropWhile isSpace = [])
    (s : List UInt8) : (l ++ s).dropWhile isSpace = s.dropWhile isSpace :=
  List.dropWhile_append_of_pos (isSpace_of_dropWhile_eq_nil h)

theorem newline_notMem_dropWhile {l : List UInt8} (h : newline ∉ l) :
    newline ∉ l.dropWhile isSpace :=
  fun hm => h ((List.dropWhile_suffix isSpace).subset hm)

/-! ## The brace that `include_prefix` finds -/

theorem includePrefixLoop_newline (fuel : Nat) (s : List UInt8) :
    includePrefixLoop (fuel + 1) (newline :: s) = includePrefixLoop (fuel + 1) s := by
  rw [includePrefixLoop, includePrefixLoop, List.dropWhile_cons_of_pos (by decide)]

theorem includePrefixLoop_blank {l : List UInt8} (h : l.dropWhile isSpace = []) (fuel : Nat)
    (s : List UInt8) :
    includePrefixLoop (fuel + 1) (l ++ s) = includePrefixLoop (fuel + 1) s := by
  rw [includePrefixLoop, includePrefixLoop, dropWhile_isSpace_blank h]

/-- In front of any other character the loop does not move. -/
theorem includePrefixLoop_stuck {s r : List UInt8}
    (hh : (s.dropWhile isSpace).head? ≠ some (chr '#'))
    (hb : (s.dropWhile isSpace).head? ≠ some (chr '{')) (fuel : Nat) :
    includePrefixLoop fuel s ≠ .returns r := by
  induction fuel generalizing s with
  | zero => exact fun h => by cases h
  | succ fuel ih =>
    rw [includePrefixLoop, if_neg hh, if_neg hb]
    apply ih
    · rwa [List.dropWhile_idempotent]
    · rwa [List.dropWhile_idempotent]

theorem includePrefixLoop_hash {l : List UInt8} (h : newline ∉ l) (hh : hashLine l = true)
    (fuel : Nat) (ls : List (List UInt8)) :
    includePrefixLoop (fuel + 1) (l ++ following ls) =
      if ls = [] then .outside else includePrefixLoop fuel (following ls) := by
  have hhead : (l.dropWhile isSpace).head? = some (chr '#') := by simpa [hashLine] using hh
  have hne : l.dropWhile isSpace ≠ [] := by
    intro he
    rw [he] at hhead
    cases hhead
  rw [includePrefixLoop, dropWhile_isSpace_append hne,
    lineEnd_append (newline_notMem_dropWhile h), if_pos (by
      rw [List.head?_append_of_ne_nil _ hne]
      exact hhead)]
  simp only [following_eq_nil]

theorem braceFollows_of_returns {l : List UInt8} {ls : List (List UInt8)}
    (h : ∀ x ∈ l :: ls, newline ∉ x) {fuel : Nat} {r : List UInt8}
    (hr : includePrefixLoop fuel (join (l :: ls)) = .returns r) : BraceFollows (l :: ls) := by
  induction ls generalizing l fuel with
  | nil =>
    rw [join_cons, following, List.append_nil] at hr
    by_cases hb : (l.dropWhile isSpace).head? = some (chr '{')
    · exact .inl hb
    by_cases hh : hashLine l = true
    · cases fuel with
      | zero => cases hr
      | succ fuel =>
        have := includePrefixLoop_hash (h l (List.mem_cons_self ..)) hh fuel []
        rw [following, List.append_nil, if_pos rfl] at this
        rw [this] at hr
        cases hr
    · exact absurd hr (includePrefixLoop_stuck (by simpa [hashLine] using hh) hb fuel)
  | cons x xs ih =>
    have hx : ∀ y ∈ x :: xs, newline ∉ y := fun y hy => h y (List.mem_cons_of_mem _ hy)
    have hl : newline ∉ l := h l (List.mem_cons_self ..)
    rw [join_cons] at hr
    cases fuel with
    | zero => cases hr
    | succ fuel =>
    by_cases hb : (l.dropWhile isSpace).head? = some (chr '{')
    · exact .inl hb
    by_cases hh : hashLine l = true
    · rw [includePrefixLoop_hash hl hh, if_neg (List.cons_ne_nil _ _), following] at hr
      cases fuel with
      | zero => cases hr
      | succ fuel =>
        rw [includePrefixLoop_newline] at hr
        exact .inr ⟨.inr hh, ih hx hr⟩
    · by_cases he : l.dropWhile isSpace = []
      · rw [includePrefixLoop_blank he, following, includePrefixLoop_newline] at hr
        exact .inr ⟨.inl he, ih hx hr⟩
      · refine absurd hr (includePrefixLoop_stuck ?_ ?_ _) <;>
          rw [dropWhile_isSpace_append he, List.head?_append_of_ne_nil _ he]
        · simpa [hashLine] using hh
        · exact hb

/-- The brace is the first character of its line that is no blank. -/
theorem idxOf_brace {l : List UInt8} (h : (l.dropWhile isSpace).head? = some (chr '{')) :
    l.idxOf (chr '{') + (l.dropWhile isSpace).length = l.length := by
  obtain ⟨rest, hrest⟩ : ∃ rest, l.dropWhile isSpace = chr '{' :: rest := by
    cases hd : l.dropWhile isSpace with
    | nil =>
      rw [hd] at h
      cases h
    | cons b rest =>
      rw [hd] at h
      exact ⟨rest, by rw [Option.some.inj h]⟩
  have hblank : chr '{' ∉ l.takeWhile isSpace := by
    intro hm
    have := List.mem_takeWhile_imp hm
    exact absurd this (by decide)
  have hl : l.takeWhile isSpace ++ l.dropWhile isSpace = l := List.takeWhile_append_dropWhile
  have hidx : l.idxOf (chr '{') = (l.takeWhile isSpace).length := by
    conv_lhs => rw [← hl, hrest]
    rw [List.idxOf_append_of_notMem hblank, List.idxOf_cons_self, Nat.add_zero]
  have hlen := congrArg List.length hl
  rw [List.length_append] at hlen
  omega

/-- Such a line ends the loop. -/
theorem includePrefixLoop_brace {l : List UInt8} (ls : List (List UInt8))
    (h : (l.dropWhile isSpace).head? = some (chr '{')) :
    includePrefixLoop 1 (l ++ following ls) =
        .returns (l.dropWhile isSpace ++ following ls) ∧
      bracePosition (l :: ls) = l.idxOf (chr '{') := by
  have hne : l.dropWhile isSpace ≠ [] := by
    intro he
    rw [he] at h
    cases h
  have hmem : chr '{' ∈ l := (List.dropWhile_suffix isSpace).subset (List.mem_of_mem_head? h)
  have hhead : (l.dropWhile isSpace ++ following ls).head? = some (chr '{') := by
    rw [List.head?_append_of_ne_nil _ hne, h]
  constructor
  · rw [includePrefixLoop, dropWhile_isSpace_append hne, hhead, if_neg (by decide), if_pos rfl]
  · rw [bracePosition, if_neg]
    simp only [hashLine, h, List.contains_iff_mem.2 hmem]
    decide

theorem returns_of_braceFollows {l : List UInt8} {ls : List (List UInt8)}
    (h : ∀ x ∈ l :: ls, newline ∉ x) (hb : BraceFollows (l :: ls)) :
    ∃ fuel tmp, includePrefixLoop (fuel + 1) (join (l :: ls)) = .returns tmp ∧
      bracePosition (l :: ls) + tmp.length = (join (l :: ls)).length := by
  induction ls generalizing l with
  | nil =>
    rcases hb with hb | ⟨-, hf⟩
    · obtain ⟨hloop, hpos⟩ := includePrefixLoop_brace [] hb
      refine ⟨0, _, by rw [join_cons]; exact hloop, ?_⟩
      have := idxOf_brace hb
      rw [hpos, join_cons, List.length_append, List.length_append]
      omega
    · exact absurd hf id
  | cons x xs ih =>
    rcases hb with hb | ⟨hl, hf⟩
    · obtain ⟨hloop, hpos⟩ := includePrefixLoop_brace (x :: xs) hb
      refine ⟨0, _, by rw [join_cons]; exact hloop, ?_⟩
      have := idxOf_brace hb
      rw [hpos, join_cons, List.length_append, List.length_append]
      omega
    · obtain ⟨fuel, tmp, hloop, hlen⟩ := ih (fun y hy => h y (List.mem_cons_of_mem _ hy)) hf
      have hskip : ∃ fuel, includePrefixLoop (fuel + 1) (join (l :: x :: xs)) = .returns tmp := by
        rcases hl with hblank | hhash
        · refine ⟨fuel, ?_⟩
          rw [join_cons, includePrefixLoop_blank hblank, following, includePrefixLoop_newline,
            hloop]
        · refine ⟨fuel + 1, ?_⟩
          rw [join_cons, includePrefixLoop_hash (h l (List.mem_cons_self ..)) hhash,
            if_neg (List.cons_ne_nil _ _), following, includePrefixLoop_newline, hloop]
      obtain ⟨fuel', hskip⟩ := hskip
      refine ⟨fuel', tmp, hskip, ?_⟩
      have hpassed : (hashLine l || !l.contains (chr '{')) = true := by
        rcases hl with hblank | hhash
        · have : chr '{' ∉ l := fun hm =>
            absurd (isSpace_of_dropWhile_eq_nil hblank _ hm) (by decide)
          simp [this]
        · rw [hhash, Bool.true_or]
      rw [bracePosition, if_pos hpassed, if_neg (List.cons_ne_nil _ _), join_cons, following,
        List.length_append, List.length_cons]
      omega

theorem lines_cons (text : List UInt8) : ∃ l ls, lines text = l :: ls :=
  List.exists_cons_of_ne_nil (List.splitOn_ne_nil newline text)

theorem includePrefix_iff (code : CString) :
    (∃ fuel, includePrefix fuel code = .returns (bracePosition (lines code.bytes))) ↔
      BraceFollows (lines code.bytes) := by
  obtain ⟨l, ls, hl⟩ := lines_cons code.bytes
  have hjoin : join (l :: ls) = code.bytes := by rw [← hl, join_lines]
  have hfree : ∀ x ∈ l :: ls, newline ∉ x := fun x hx =>
    newline_notMem_of_mem_lines code.bytes (by rwa [hl])
  rw [hl]
  simp only [includePrefix, Scan.map_eq_returns]
  constructor
  · rintro ⟨fuel, tmp, hr, -⟩
    rw [← hjoin] at hr
    exact braceFollows_of_returns hfree hr
  · intro hb
    obtain ⟨fuel, tmp, hr, hlen⟩ := returns_of_braceFollows hfree hb
    rw [hjoin] at hr hlen
    exact ⟨fuel + 1, tmp, hr, by omega⟩

/-! ## Directives -/

theorem head_of_afterInclude {l ptr : List UInt8} (h : afterInclude l = some ptr) :
    ∃ rest, l = chr '#' :: rest := by
  rw [afterInclude] at h
  split at h
  case isTrue hinc =>
    obtain ⟨t, ht⟩ := hinc.1
    exact ⟨_, ht.symm⟩
  case isFalse => cases h

theorem directive_eq_some {l : List UInt8} {n : Nat} (h : directive l = some n) :
    ∃ name m, afterInclude l = some name ∧ closing name = some m ∧
      n = l.length - name.length + m + 1 := by
  simp only [directive, Option.bind_eq_some_iff, Option.map_eq_some_iff] at h
  obtain ⟨name, hname, m, hm, rfl⟩ := h
  exact ⟨name, m, hname, hm, rfl⟩

theorem hash_mem_of_directive {l : List UInt8} {n : Nat} (h : directive l = some n) :
    chr '#' ∈ l := by
  obtain ⟨name, -, hname, -⟩ := directive_eq_some h
  obtain ⟨rest, rfl⟩ := head_of_afterInclude hname
  exact List.mem_cons_self ..

/-- What is behind an `#include` is the end of the text. -/
theorem afterInclude_suffix {l ptr : List UInt8} (h : afterInclude l = some ptr) :
    ∃ pre, pre ++ ptr = l ∧ 8 ≤ pre.length := by
  rw [afterInclude] at h
  split at h
  case isTrue hinc =>
    rw [← Option.some.inj h]
    refine ⟨l.take 8 ++ (l.drop 8).takeWhile isSpace, ?_, ?_⟩
    · rw [List.append_assoc, List.takeWhile_append_dropWhile, List.take_append_drop]
    · have := hinc.1.length_le
      simp only [chars, List.length_map, List.length_cons, List.length_nil] at this
      rw [List.length_append, List.length_take]
      omega
  case isFalse => cases h

/-- A name in the line is there whatever follows the line. -/
theorem afterInclude_append {l name : List UInt8} (h : afterInclude l = some name)
    (hname : name ≠ []) (s : List UInt8) : afterInclude (l ++ s) = some (name ++ s) := by
  rw [afterInclude] at h
  split at h
  case isTrue hinc =>
    have hdrop : (l.drop 8).dropWhile isSpace = name := Option.some.inj h
    have hlong : 8 ≤ l.length := by
      have := hinc.1.length_le
      simpa [chars] using this
    have hne : l.drop 8 ≠ [] := by
      intro he
      rw [he] at hdrop
      exact hname hdrop.symm
    rw [afterInclude, List.drop_append_of_le_length hlong, List.head?_append_of_ne_nil _ hne,
      if_pos ⟨hinc.1.trans (List.prefix_append l s), hinc.2⟩,
      dropWhile_isSpace_append (by rwa [hdrop]), hdrop]
  case isFalse => cases h

/-- A name ends in its line, at a bracket or a quote. -/
theorem closing_spec {name : List UInt8} {m : Nat} (h : closing name = some m) :
    ∃ b, name[m]? = some b ∧ b ≠ chr '\'' := by
  cases name with
  | nil => cases h
  | cons b s =>
    rw [closing] at h
    split at h
    case isTrue =>
      obtain ⟨hm, hget, -⟩ := List.idxOf?_eq_some_iff.1 h
      exact ⟨_, List.getElem?_eq_getElem hm, by rw [hget]; decide⟩
    case isFalse =>
      split at h
      case isTrue =>
        obtain ⟨k, hk, rfl⟩ := Option.map_eq_some_iff.1 h
        obtain ⟨hm, hget, -⟩ := List.idxOf?_eq_some_iff.1 hk
        refine ⟨_, by rw [List.getElem?_cons_succ, List.getElem?_eq_getElem hm], ?_⟩
        rw [hget]
        decide
      case isFalse => cases h

theorem directive_spec {l : List UInt8} {n : Nat} (h : directive l = some n) :
    0 < n ∧ n ≤ l.length ∧ ∃ b, l[n - 1]? = some b ∧ b ≠ chr '\'' := by
  obtain ⟨name, m, hname, hm, rfl⟩ := directive_eq_some h
  obtain ⟨pre, rfl, -⟩ := afterInclude_suffix hname
  obtain ⟨b, hb, hne⟩ := closing_spec hm
  have hlt : m < name.length := (List.getElem?_eq_some_iff.1 hb).1
  rw [List.length_append, Nat.add_sub_cancel]
  refine ⟨by omega, by omega, b, ?_, hne⟩
  rw [Nat.add_sub_cancel, List.getElem?_append_right (by omega), Nat.add_sub_cancel_left, hb]

theorem blankDirective_of_some {l : List UInt8} {n : Nat} (h : directive l = some n) :
    blankDirective l = List.replicate n (chr ' ') ++ l.drop n := by
  rw [blankDirective, h]

theorem blankDirective_of_none {l : List UInt8} (h : directive l = none) :
    blankDirective l = l := by
  rw [blankDirective, h]

theorem blankDirective_length (l : List UInt8) : (blankDirective l).length = l.length := by
  cases h : directive l with
  | none => rw [blankDirective_of_none h]
  | some n =>
    have := (directive_spec h).2.1
    rw [blankDirective_of_some h, List.length_append, List.length_replicate, List.length_drop]
    omega

theorem blankDirective_eq_self_iff {l : List UInt8} :
    blankDirective l = l ↔ directive l = none := by
  refine ⟨fun heq => ?_, blankDirective_of_none⟩
  cases h : directive l with
  | none => rfl
  | some n =>
    obtain ⟨name, -, hname, -⟩ := directive_eq_some h
    obtain ⟨rest, rfl⟩ := head_of_afterInclude hname
    obtain ⟨k, rfl⟩ := Nat.exists_eq_succ_of_ne_zero (directive_spec h).1.ne'
    rw [blankDirective_of_some h, List.replicate_succ, List.cons_append] at heq
    exact absurd (List.cons.inj heq).1 (by decide)

theorem blankLine_length (l : List UInt8) : (blankLine l).length = l.length := by
  rw [blankLine, List.length_append, blankDirective_length, ← List.length_append,
    List.takeWhile_append_dropWhile]

theorem blankLine_eq_self_iff {l : List UInt8} :
    blankLine l = l ↔ directive (l.dropWhile isSpace) = none := by
  rw [← blankDirective_eq_self_iff, blankLine]
  constructor
  · intro h
    have heq := h.trans (List.takeWhile_append_dropWhile (p := isSpace) (l := l)).symm
    exact List.append_cancel_left heq
  · intro h
    rw [h, List.takeWhile_append_dropWhile]

theorem newline_notMem_blankLine {l : List UInt8} (h : newline ∉ l) : newline ∉ blankLine l := by
  rw [blankLine, List.mem_append, not_or]
  refine ⟨fun hm => h ((List.takeWhile_prefix isSpace).subset hm), ?_⟩
  have hd := newline_notMem_dropWhile h
  cases hdir : directive (l.dropWhile isSpace) with
  | none => rwa [blankDirective_of_none hdir]
  | some n =>
    rw [blankDirective_of_some hdir, List.mem_append, not_or]
    refine ⟨fun hm => ?_, fun hm => hd (List.mem_of_mem_drop hm)⟩
    exact absurd (List.eq_of_mem_replicate hm) (by decide)

/-- A directive starts with no blank. -/
theorem dropWhile_of_afterInclude {l ptr : List UInt8} (h : afterInclude l = some ptr) :
    l.dropWhile isSpace = l ∧ l.takeWhile isSpace = [] := by
  obtain ⟨rest, rfl⟩ := head_of_afterInclude h
  exact ⟨List.dropWhile_cons_of_neg (by decide), List.takeWhile_cons_of_neg (by decide)⟩

theorem blankLine_of_directive {l : List UInt8} {n : Nat} (h : directive l = some n) :
    blankLine l = List.replicate n (chr ' ') ++ l.drop n := by
  obtain ⟨name, -, hname, -⟩ := directive_eq_some h
  obtain ⟨hdrop, htake⟩ := dropWhile_of_afterInclude hname
  rw [blankLine, hdrop, htake, List.nil_append, blankDirective_of_some h]

/-- Whether a quote is the last character of a line is not changed. -/
theorem getLast?_blankLine {l : List UInt8} {n : Nat} (h : directive l = some n) :
    (blankLine l).getLast? = some (chr '\'') ↔ l.getLast? = some (chr '\'') := by
  obtain ⟨hpos, hle, b, hb, hne⟩ := directive_spec h
  rw [blankLine_of_directive h]
  by_cases hd : l.drop n = []
  · have hn : n = l.length := Nat.le_antisymm hle (List.drop_eq_nil_iff.1 hd)
    subst hn
    rw [hd, List.append_nil, List.getLast?_replicate, if_neg hpos.ne',
      List.getLast?_eq_getElem?, hb]
    exact ⟨fun he => absurd (Option.some.inj he) (by decide),
      fun he => absurd (Option.some.inj he) hne⟩
  · conv_rhs => rw [← List.take_append_drop n l]
    rw [List.getLast?_append_of_ne_nil _ hd, List.getLast?_append_of_ne_nil _ hd]

/-! ## One line of `cod_preprocessor` -/

theorem preprocessLine_directive {l : List UInt8} {n : Nat} (hl : newline ∉ l)
    (h : directive l = some n) (loop : List UInt8 → Scan (List UInt8))
    (ls : List (List UInt8)) :
    preprocessLine loop (l ++ following ls) =
      skipToNextLine loop (blankLine l ++ following ls) := by
  obtain ⟨name, m, hname, hm, rfl⟩ := directive_eq_some h
  have hne : name ≠ [] := by
    intro he
    rw [he] at hm
    cases hm
  have hlt : m < name.length := by
    obtain ⟨b, hb, -⟩ := closing_spec hm
    exact (List.getElem?_eq_some_iff.1 hb).1
  rw [blankLine_of_directive h]
  obtain ⟨pre, rfl, -⟩ := afterInclude_suffix hname
  have hfree : newline ∉ name := fun hmem => hl (List.mem_append_right _ hmem)
  have hpassed : (pre ++ name ++ following ls).length - (name ++ following ls).length =
      pre.length := by
    simp only [List.length_append]
    omega
  have hpre : (pre ++ name).length - name.length = pre.length := by
    rw [List.length_append, Nat.add_sub_cancel]
  have hdrop : (pre ++ name).drop (pre.length + m + 1) = name.drop (m + 1) := by
    rw [Nat.add_assoc, List.drop_append, List.drop_eq_nil_of_le (by omega), List.nil_append,
      Nat.add_sub_cancel_left]
  have hdrop' : (name ++ following ls).drop (m + 1) = name.drop (m + 1) ++ following ls :=
    List.drop_append_of_le_length (by omega)
  simp only [preprocessLine, afterInclude_append hname hne, lineOf_append hfree, hm, hpassed,
    hpre, hdrop, hdrop']
  rw [List.append_assoc]

theorem lineOf_append_of_notMem {x : List UInt8} (hx : newline ∉ x) (s : List UInt8) :
    lineOf (x ++ s) = x ++ lineOf s :=
  List.takeWhile_append_of_pos fun b hb => by simpa using fun he : b = newline => hx (he ▸ hb)

/-- What stands in front of the newline stays as it is. -/
theorem skipToNextLine_prefix {loop : List UInt8 → Scan (List UInt8)} {x s out : List UInt8}
    (hx : newline ∉ x) (h : skipToNextLine loop (x ++ s) = .returns out) : x <+: out := by
  rw [skipToNextLine] at h
  split at h
  case isTrue =>
    injection h with h
    exact ⟨s, h⟩
  case isFalse =>
    split at h
    case isTrue => cases h
    case isFalse =>
      obtain ⟨rest, -, rfl⟩ := Scan.map_eq_returns.1 h
      rw [lineOf_append_of_notMem hx, List.append_assoc]
      exact List.prefix_append ..

theorem preprocessLoop_newline (fuel : Nat) (s : List UInt8) :
    preprocessLoop (fuel + 1) (newline :: s) =
      (preprocessLine (preprocessLoop fuel) s).map (newline :: ·) := by
  rw [preprocessLoop, if_pos (by decide)]

/-- From `skip` on the text becomes what it should if this line already is and the loop goes on
to the next one. -/
theorem skipToNextLine_iff {x y : List UInt8} (ls : List (List UInt8)) (hx : newline ∉ x)
    (hlen : x.length = y.length) :
    (∃ fuel, skipToNextLine (preprocessLoop fuel) (x ++ following ls) =
        .returns (y ++ following (ls.map blankLine))) ↔
      x = y ∧ (ls ≠ [] → x.getLast? ≠ some (chr '\'') ∧
        ∃ fuel, preprocessLine (preprocessLoop fuel) (join ls) =
          .returns (join (ls.map blankLine))) := by
  constructor
  · rintro ⟨fuel, h⟩
    obtain ⟨t, ht⟩ := skipToNextLine_prefix hx h
    have hxy : x = y := (List.append_inj ht hlen).1
    subst hxy
    refine ⟨rfl, fun hls => ?_⟩
    obtain ⟨z, zs, rfl⟩ := List.exists_cons_of_ne_nil hls
    rw [skipToNextLine, lineEnd_append hx, lineOf_append hx,
      if_neg (by simp [following])] at h
    by_cases hq : x.getLast? = some (chr '\'')
    · rw [if_pos hq] at h
      cases h
    · rw [if_neg hq] at h
      obtain ⟨rest, hrest, heq⟩ := Scan.map_eq_returns.1 h
      refine ⟨hq, ?_⟩
      cases fuel with
      | zero => cases hrest
      | succ fuel =>
        rw [following, preprocessLoop_newline] at hrest
        obtain ⟨out, hout, rfl⟩ := Scan.map_eq_returns.1 hrest
        have hsame : out = join ((z :: zs).map blankLine) :=
          (List.cons.inj (List.append_cancel_left heq)).2
        exact ⟨fuel, by rw [hout, hsame]⟩
  · rintro ⟨rfl, hnext⟩
    by_cases hls : ls = []
    · subst hls
      refine ⟨0, ?_⟩
      rw [skipToNextLine, lineEnd_append hx, if_pos (by simp)]
      rfl
    · obtain ⟨hq, fuel, hfuel⟩ := hnext hls
      obtain ⟨z, zs, rfl⟩ := List.exists_cons_of_ne_nil hls
      refine ⟨fuel + 1, ?_⟩
      rw [skipToNextLine, lineEnd_append hx, lineOf_append hx, if_neg (by simp [following]),
        if_neg hq, following, preprocessLoop_newline, hfuel]
      rfl

/-! ## Malformed directives -/

theorem following_length (ls : List (List UInt8)) :
    (following (ls.map blankLine)).length = (following ls).length := by
  induction ls with
  | nil => rfl
  | cons l ls ih =>
    rw [List.map_cons, following, following, join_cons, join_cons, List.length_cons,
      List.length_cons, List.length_append, List.length_append, blankLine_length, ih]

theorem join_blankLine_length (l : List UInt8) (ls : List (List UInt8)) :
    (join ((l :: ls).map blankLine)).length = (join (l :: ls)).length := by
  rw [List.map_cons, join_cons, join_cons, List.length_append, List.length_append,
    blankLine_length, following_length]

theorem join_blankLine_eq_self_iff {ls : List (List UInt8)} (hls : ls ≠ [])
    (h : ∀ l ∈ ls, newline ∉ l) :
    join (ls.map blankLine) = join ls ↔
      ∀ l ∈ ls, directive (l.dropWhile isSpace) = none := by
  simp only [← blankLine_eq_self_iff]
  constructor
  · intro heq
    have hfree : ∀ l ∈ ls.map blankLine, newline ∉ l := by
      intro l hl
      obtain ⟨l', hl', rfl⟩ := List.mem_map.1 hl
      exact newline_notMem_blankLine (h l' hl')
    have hsame : ls.map blankLine = ls := by
      rw [← lines_join (by simpa using hls) hfree, heq, lines_join hls h]
    exact List.map_inj_left.1 (hsame.trans (List.map_id ls).symm)
  · intro hall
    rw [List.map_congr_left hall, List.map_id']

/-- Behind `#include` the name is in the line, or the scan has gone on to the lines below. -/
theorem afterInclude_cases {l ptr : List UInt8} {ls : List (List UInt8)} (hl : newline ∉ l)
    (h : afterInclude (l ++ following ls) = some ptr) :
    (∃ name, name ≠ [] ∧ afterInclude l = some name ∧ ptr = name ++ following ls) ∨
      ptr = (following ls).dropWhile isSpace := by
  rw [afterInclude] at h
  split at h
  case isFalse => cases h
  case isTrue hinc =>
    have hptr := Option.some.inj h
    have hstarts : chars ['#', 'i', 'n', 'c', 'l', 'u', 'd', 'e'] <+: l := by
      obtain ⟨t, ht⟩ := hinc.1
      have hline := congrArg lineOf ht
      rw [lineOf_append hl, lineOf_append_of_notMem (by decide)] at hline
      exact ⟨_, hline⟩
    have hlong : 8 ≤ l.length := by
      have := hstarts.length_le
      simpa [chars] using this
    rw [List.drop_append_of_le_length hlong] at hptr hinc
    by_cases hname : (l.drop 8).dropWhile isSpace = []
    · right
      rw [← hptr, dropWhile_isSpace_blank hname]
    · left
      have hne : l.drop 8 ≠ [] := by
        intro he
        rw [he] at hname
        exact hname rfl
      refine ⟨(l.drop 8).dropWhile isSpace, hname, ?_, ?_⟩
      · rw [List.head?_append_of_ne_nil _ hne] at hinc
        rw [afterInclude, if_pos ⟨hstarts, hinc.2⟩]
      · rw [← hptr, dropWhile_isSpace_append hname]

/-- Where the name is on a line below, the newlines in front of it are blanked too. -/
theorem preprocessLine_below {l ptr out : List UInt8} {ls : List (List UInt8)} {m : Nat}
    {loop : List UInt8 → Scan (List UInt8)} (hl : newline ∉ l) (hd : directive l = none)
    (h : afterInclude (l ++ following ls) = some ptr) (hm : closing (lineOf ptr) = some m)
    (hout : preprocessLine loop (l ++ following ls) = .returns out) :
    out[l.length]? = some (chr ' ') := by
  have hpast : ptr.length < (following ls).length := by
    rcases afterInclude_cases hl h with ⟨name, hne, hname, rfl⟩ | rfl
    · have hfree : newline ∉ name := by
        obtain ⟨pre, rfl, -⟩ := afterInclude_suffix hname
        exact fun hmem => hl (List.mem_append_right _ hmem)
      rw [lineOf_append hfree] at hm
      simp [directive, hname, hm] at hd
    · cases ls with
      | nil => cases hm
      | cons x xs =>
        rw [following, List.dropWhile_cons_of_pos (by decide), List.length_cons]
        exact Nat.lt_succ_of_le (List.dropWhile_suffix _).length_le
  simp only [preprocessLine, h, hm] at hout
  have hblank : List.replicate ((l ++ following ls).length - ptr.length + m + 1) (chr ' ') <+:
      out := skipToNextLine_prefix (fun hmem =>
        absurd (List.eq_of_mem_replicate hmem) (by decide)) hout
  obtain ⟨t, rfl⟩ := hblank
  have hlt : l.length < (l ++ following ls).length - ptr.length + m + 1 := by
    rw [List.length_append]
    omega
  rw [List.getElem?_append_left (by rwa [List.length_replicate]),
    List.getElem?_replicate_of_lt hlt]

/-- At an `#include` that is no directive of its line the text stays what it should be only where
no name and no newline follows. -/
theorem preprocessLine_malformed_iff {l ptr : List UInt8} {ls : List (List UInt8)}
    (hfree : ∀ x ∈ l :: ls, newline ∉ x) (hd : directive l = none)
    (h : afterInclude (join (l :: ls)) = some ptr) :
    (∃ fuel, preprocessLine (preprocessLoop fuel) (join (l :: ls)) =
        .returns (join ((l :: ls).map blankLine))) ↔
      (closing ptr = none ∧ lineEnd ptr = []) ∧
        ∀ x ∈ ls, directive (x.dropWhile isSpace) = none := by
  have hl : newline ∉ l := hfree l (List.mem_cons_self ..)
  have hself := (join_blankLine_eq_self_iff (List.cons_ne_nil _ _) hfree)
  obtain ⟨pre, hpre, -⟩ := afterInclude_suffix h
  have hstart : directive (l.dropWhile isSpace) = none := by
    obtain ⟨rest, hrest⟩ := head_of_afterInclude h
    rw [join_cons] at hrest
    cases l with
    | nil => exact hd
    | cons b l =>
      rw [List.cons_append] at hrest
      rw [(List.cons.inj hrest).1, List.dropWhile_cons_of_neg (by decide),
        ← (List.cons.inj hrest).1]
      exact hd
  have hlen := join_blankLine_length l ls
  cases hm : closing (lineOf ptr) with
  | some m =>
    constructor
    · rintro ⟨fuel, hf⟩
      rw [join_cons] at h hf
      have hget := preprocessLine_below hl hd h hm hf
      rw [List.map_cons, join_cons, List.getElem?_append_right
        (by rw [blankLine_length]), blankLine_length, Nat.sub_self] at hget
      have hhead := following_head (ls.map blankLine)
      rw [List.head?_eq_getElem?] at hhead
      rcases hhead with he | he
      · rw [he] at hget
        cases hget
      · rw [he] at hget
        exact absurd (Option.some.inj hget) (by decide)
    · rintro ⟨⟨hnone, hend⟩, -⟩
      have hline : lineOf ptr = ptr := by
        have := lineOf_append_lineEnd ptr
        rwa [hend, List.append_nil] at this
      rw [hline, hnone] at hm
      cases hm
  | none =>
    simp only [preprocessLine, h, hm]
    by_cases hend : lineEnd ptr = []
    · have hline : lineOf ptr = ptr := by
        have := lineOf_append_lineEnd ptr
        rwa [hend, List.append_nil] at this
      rw [if_pos hend]
      constructor
      · rintro ⟨-, hf⟩
        injection hf with hf
        have := hself.1 hf.symm
        exact ⟨⟨by rwa [hline] at hm, hend⟩, fun x hx => this x (List.mem_cons_of_mem _ hx)⟩
      · rintro ⟨-, hall⟩
        refine ⟨0, ?_⟩
        rw [hself.2]
        intro x hx
        rcases List.mem_cons.1 hx with rfl | hx
        · exact hstart
        · exact hall x hx
    · rw [if_neg hend]
      constructor
      · rintro ⟨-, hf⟩
        injection hf with hf
        have hshort := congrArg List.length hf
        have hpos : 0 < (lineEnd ptr).length := List.length_pos_iff.2 hend
        have hsplit := congrArg List.length (lineOf_append_lineEnd ptr)
        rw [hlen, ← hpre, List.length_append, List.length_append, List.length_take,
          List.length_append] at hshort
        rw [List.length_append] at hsplit
        omega
      · rintro ⟨⟨-, he⟩, -⟩
        exact absurd he hend

/-! ## The whole text -/

/-- What one line has to be like, and that the loop keeps the lines behind it. -/
theorem preprocessLine_step {l : List UInt8} {ls : List (List UInt8)}
    (hfree : ∀ x ∈ l :: ls, newline ∉ x)
    (hgood : directive l ≠ none ∨ afterInclude (join (l :: ls)) = none) :
    (∃ fuel, preprocessLine (preprocessLoop fuel) (join (l :: ls)) =
        .returns (join ((l :: ls).map blankLine))) ↔
      (directive l = none → directive (l.dropWhile isSpace) = none) ∧
        (ls ≠ [] → l.getLast? ≠ some (chr '\'') ∧
          ∃ fuel, preprocessLine (preprocessLoop fuel) (join ls) =
            .returns (join (ls.map blankLine))) := by
  have hl : newline ∉ l := hfree l (List.mem_cons_self ..)
  rw [join_cons, List.map_cons, join_cons]
  cases hd : directive l with
  | some n =>
    simp only [preprocessLine_directive hl hd,
      skipToNextLine_iff ls (newline_notMem_blankLine hl) rfl, ne_eq, getLast?_blankLine hd,
      true_and, reduceCtorEq, false_imp_iff]
  | none =>
    have hnone : afterInclude (l ++ following ls) = none := by
      rw [← join_cons]
      exact hgood.resolve_left (not_not.2 hd)
    simp only [preprocessLine, hnone,
      skipToNextLine_iff ls hl (blankLine_length l).symm, true_imp_iff, eq_comm (a := l),
      blankLine_eq_self_iff]

theorem preprocessLine_iff {l : List UInt8} {ls : List (List UInt8)}
    (hfree : ∀ x ∈ l :: ls, newline ∉ x) :
    (∃ fuel, preprocessLine (preprocessLoop fuel) (join (l :: ls)) =
        .returns (join ((l :: ls).map blankLine))) ↔ DirectivesKept (l :: ls) := by
  induction ls generalizing l with
  | nil =>
    rw [DirectivesKept]
    by_cases hbad : directive l = none ∧ (afterInclude (join [l])).isSome = true
    · obtain ⟨ptr, hptr⟩ := Option.isSome_iff_exists.1 hbad.2
      rw [if_pos hbad, preprocessLine_malformed_iff hfree hbad.1 hptr, hptr]
      simp only [Option.mem_some_iff, forall_eq']
    · rw [if_neg hbad, preprocessLine_step hfree]
      · simp only [ne_eq, not_true_eq_false, false_imp_iff]
      · rwa [not_and_or, Option.not_isSome_iff_eq_none] at hbad
  | cons x xs ih =>
    rw [DirectivesKept]
    by_cases hbad : directive l = none ∧ (afterInclude (join (l :: x :: xs))).isSome = true
    · obtain ⟨ptr, hptr⟩ := Option.isSome_iff_exists.1 hbad.2
      rw [if_pos hbad, preprocessLine_malformed_iff hfree hbad.1 hptr, hptr]
      simp only [Option.mem_some_iff, forall_eq']
    · rw [if_neg hbad, preprocessLine_step hfree,
        ih fun y hy => hfree y (List.mem_cons_of_mem _ hy)]
      rwa [not_and_or, Option.not_isSome_iff_eq_none] at hbad

theorem blankIncludes_cons_blank {b : UInt8} (hb : isSpace b = true) (s : List UInt8) :
    blankIncludes (b :: s) = b :: blankIncludes s := by
  obtain ⟨l, ls, hl⟩ := lines_cons s
  rw [blankIncludes, blankIncludes, hl, lines, List.splitOn_cons_eq_if_modifyHead]
  rw [lines] at hl
  by_cases hn : b = newline
  · subst hn
    rw [if_pos (beq_self_eq_true _), hl, List.map_cons, join_cons, List.map_cons, following]
    rfl
  · rw [if_neg (by simpa using hn), hl, List.modifyHead_cons, List.map_cons, List.map_cons,
      join_cons, join_cons, blankLine, blankLine, List.takeWhile_cons_of_pos hb,
      List.dropWhile_cons_of_pos hb]
    rfl

theorem blankIncludes_of_noHash {text : List UInt8} (h : chr '#' ∉ text) :
    blankIncludes text = text := by
  have hall : ∀ l ∈ lines text, blankLine l = l := by
    intro l hl
    rw [blankLine_eq_self_iff]
    cases hd : directive (l.dropWhile isSpace) with
    | none => rfl
    | some n =>
      have hmem := (List.dropWhile_suffix isSpace).subset (hash_mem_of_directive hd)
      exact absurd (join_lines text ▸ mem_of_mem_join hl hmem) h
  rw [blankIncludes, List.map_congr_left hall, List.map_id', join_lines]

theorem preprocessLoop_iff (text : List UInt8) :
    (∃ fuel, preprocessLoop fuel text = .returns (blankIncludes text)) ↔
      DirectivesKept (lines (behindBlank text)) := by
  have hline : ∀ s, (∃ fuel, preprocessLine (preprocessLoop fuel) s =
      .returns (blankIncludes s)) ↔ DirectivesKept (lines s) := by
    intro s
    obtain ⟨l, ls, hl⟩ := lines_cons s
    have hfree : ∀ x ∈ l :: ls, newline ∉ x := fun x hx =>
      newline_notMem_of_mem_lines s (by rwa [hl])
    rw [blankIncludes, hl, ← preprocessLine_iff hfree, ← hl, join_lines]
  cases text with
  | nil =>
    exact ⟨fun _ => (hline []).1 ⟨0, rfl⟩, fun _ => ⟨1, rfl⟩⟩
  | cons b s =>
    by_cases hb : isSpace b = true
    · have hbehind : behindBlank (b :: s) = s := by simp [behindBlank, hb]
      rw [hbehind, ← hline s, blankIncludes_cons_blank hb]
      constructor
      · rintro ⟨fuel, h⟩
        cases fuel with
        | zero => cases h
        | succ fuel =>
          rw [preprocessLoop, if_pos hb] at h
          obtain ⟨out, hout, heq⟩ := Scan.map_eq_returns.1 h
          exact ⟨fuel, by rw [hout, (List.cons.inj heq).2]⟩
      · rintro ⟨fuel, h⟩
        exact ⟨fuel + 1, by rw [preprocessLoop, if_pos hb, h]; rfl⟩
    · have hbehind : behindBlank (b :: s) = b :: s := by simp [behindBlank, hb]
      rw [hbehind, ← hline (b :: s)]
      constructor
      · rintro ⟨fuel, h⟩
        cases fuel with
        | zero => cases h
        | succ fuel =>
          rw [preprocessLoop, if_neg hb] at h
          exact ⟨fuel, h⟩
      · rintro ⟨fuel, h⟩
        exact ⟨fuel + 1, by rw [preprocessLoop, if_neg hb, h]⟩

theorem codPreprocessor_iff (input : CString) :
    (∃ fuel out white, codPreprocessor fuel input = .returns (out, white) ∧
        out.getD input.bytes = blankIncludes input.bytes) ↔
      (chr '#' ∈ input.bytes → DirectivesKept (lines (behindBlank input.bytes))) := by
  by_cases hhash : chr '#' ∈ input.bytes
  · simp only [codPreprocessor, hhash, if_true, Scan.map_eq_returns, true_imp_iff]
    rw [← preprocessLoop_iff]
    constructor
    · rintro ⟨fuel, out, white, ⟨text, htext, heq⟩, hout⟩
      injection heq with heq _
      subst heq
      exact ⟨fuel, by rw [htext, ← hout]; rfl⟩
    · rintro ⟨fuel, htext⟩
      exact ⟨fuel, _, _, ⟨_, htext, rfl⟩, rfl⟩
  · simp only [codPreprocessor, hhash, if_false, false_imp_iff, iff_true]
    exact ⟨0, none, false, rfl, (blankIncludes_of_noHash hhash).symm⟩

/-- `include_prefix` ends only at a brace that has nothing but blanks and `#` lines in front of
it, and `cod_preprocessor` keeps the text only where the directives are as it expects them. -/
theorem preprocessing (code : CString) :
    ((∃ fuel, includePrefix fuel code = .returns (bracePosition (lines code.bytes))) ↔
        BraceFollows (lines code.bytes)) ∧
      ((∃ fuel out white, codPreprocessor fuel code = .returns (out, white) ∧
          out.getD code.bytes = blankIncludes code.bytes) ↔
        (chr '#' ∈ code.bytes → DirectivesKept (lines (behindBlank code.bytes)))) :=
  ⟨includePrefix_iff code, codPreprocessor_iff code⟩

/-- A declaration in front of the brace, and a directive without a name. -/
def declarationInFront : CString :=
  cstr ['#', 'i', 'n', 'c', 'l', 'u', 'd', 'e', ' ', 'a', '\n', 'i', 'n', 't', ' ', 'i', ';', '{',
    '}'] (.refl false)

theorem declarationInFront_notPreprocessed :
    (∀ fuel n, includePrefix fuel declarationInFront ≠ .returns n) ∧
      codPreprocessor 1 declarationInFront =
        .returns (some (declarationInFront.bytes.take 10), false) ∧
      ¬ ∃ fuel out white, codPreprocessor fuel declarationInFront = .returns (out, white) ∧
        out.getD declarationInFront.bytes = blankIncludes declarationInFront.bytes := by
  refine ⟨fun fuel n h => ?_, by decide, (codPreprocessor_iff _).not.2 (by decide)⟩
  obtain ⟨tmp, htmp, -⟩ := Scan.map_eq_returns.1 h
  rw [← join_lines declarationInFront.bytes] at htmp
  exact absurd (braceFollows_of_returns (by decide) htmp) (by decide)

end Cod
end FFS
