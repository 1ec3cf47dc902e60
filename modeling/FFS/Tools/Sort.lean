import FFS.File.RawHeader

/-!
# Sorting a file

`main` of `FFSsort.c`.  The records of a file are read one after another, each gets the keys that
its format's handler extracts from it, and `qsort` puts them in order.  The records are those that
the reader delivers to a caller who sees data and formats.  What compiles an expression is a
parameter, and so is what memory holds where nothing was stored.
-/

namespace FFS

open Machine

/-- A pointer.  One that is neither the null pointer nor points to something of its type is wild. -/
inductive Pointer (α : Type) where
  | null
  | wild
  | to (target : α)

namespace SortTool

/-! ## The files -/

/-- A data record, of a format with a handle. -/
structure DataRecord where
  handle : Nat
  bigEndian : Bool
  data : List UInt8
deriving DecidableEq

/-- A record that the tool sees. -/
inductive SortRecord where
  | format (handle : Nat)
  | data (record : DataRecord)
deriving DecidableEq

/-- The arguments of `-e`, and the file with the formats that its reader knows. -/
structure SortInput where
  arguments : List (List UInt8)
  formats : Nat → StoredFormat
  records : List SortRecord

def SortInput.message (input : SortInput) (d : DataRecord) : List UInt8 :=
  encodedMessage d.bigEndian (input.formats d.handle) d.data

def SortInput.formatName (input : SortInput) (handle : Nat) : List UInt8 :=
  (input.formats handle).format.top.formatName.bytes

def SortRecord.data? : SortRecord → Option DataRecord
  | .format _ => none
  | .data d => some d

def SortInput.dataRecords (input : SortInput) : List DataRecord :=
  input.records.filterMap SortRecord.data?

/-! ## Expressions -/

/-- `parse_expression`: the name in front of a colon, and what follows without blanks around. -/
def parseExpression (argument : List UInt8) : Option (List UInt8) × List UInt8 :=
  let trimmed (expr : List UInt8) :=
    ((expr.dropWhile isSpace).reverse.dropWhile isSpace).reverse
  match strchr argument (chr ':') with
  | some rest => (some (argument.takeWhile (· ≠ chr ':')), trimmed rest.tail)
  | none => (none, trimmed argument)

def SortInput.expressions (input : SortInput) : List (Option (List UInt8) × List UInt8) :=
  input.arguments.map parseExpression

def templates : List (List UInt8 → List UInt8) :=
  [fun expression => chars ['{', '\n', 'r', 'e', 't', 'u', 'r', 'n', ' ', 'i', 'n', 'p', 'u', 't',
      '.'] ++ expression ++ chars [';', '\n', '}'],
   fun expression => chars ['{', '\n', 'r', 'e', 't', 'u', 'r', 'n', ' ', '('] ++ expression ++
      chars [')', ';', '\n', '}']]

/-- The code that extracts a key from a record. -/
inductive SortCode (D : Type) where
  | int (func : List UInt8 → Int32)
  | dbl (func : List UInt8 → D)
  | str (func : List UInt8 → Option (List UInt8))

/-- What `cod_code_gen` makes of a program for a format, as `int proc()`, `double proc()` and
`string proc()`. -/
structure SortCoder (D : Type) where
  int : Nat → List UInt8 → Option (List UInt8 → Int32)
  dbl : Nat → List UInt8 → Option (List UInt8 → D)
  str : Nat → List UInt8 → Option (List UInt8 → Option (List UInt8))

/-- The reals as `double` has them. -/
structure Doubles (D : Type) where
  lt : D → D → Bool
  ofLong : Int → D
  toLong : D → Int

/-! ## Memory -/

structure SortKey (D : Type) where
  int : Int
  double : D
  string : Pointer (List UInt8)

structure FuncTableEntry (D : Type) where
  format : Nat
  intFunc : Pointer (List UInt8 → Int32)
  dblFunc : Pointer (List UInt8 → D)
  strFunc : Pointer (List UInt8 → Option (List UInt8))

/-- What memory holds where nothing was stored: whether the expressions go on behind the last, the
names of expressions that have none, the entries of the table, and the keys of the records. -/
structure Fresh (D : Type) where
  goesOn : Bool
  name : Nat → Pointer (List UInt8)
  entry : Nat → FuncTableEntry D
  key : Nat → SortKey D

structure DataEntry (D : Type) where
  data : List UInt8
  key : SortKey D

inductive SortType where
  | noSort
  | int
  | float
  | string
deriving DecidableEq

inductive SortStop where
  | wildPointer
  | nullString
  | noFormat
  | incompatible
  | assertion

structure SortState (D : Type) where
  funcTable : List (FuncTableEntry D)
  sortType : SortType
  dataValues : List (DataEntry D)

/-- The names and expressions as they are stored, from a number on. -/
def storedFrom {D : Type} (fresh : Fresh D) :
    Nat → List (Option (List UInt8) × List UInt8) → List (Pointer (List UInt8) × List UInt8)
  | _, [] => []
  | i, (name, expression) :: rest =>
    (match name with
      | some name => .to name
      | none => fresh.name i, expression) :: storedFrom fresh (i + 1) rest

/-! ## Handlers -/

section

variable {D : Type} (coder : SortCoder D)

/-- `generate_single_handler` -/
def generateSingleHandler (format : Nat) (expression : List UInt8) : Option (SortCode D) :=
  templates.findSome? fun template =>
    let prog := template expression
    ((coder.int format prog).map SortCode.int).or
      (((coder.dbl format prog).map SortCode.dbl).or ((coder.str format prog).map SortCode.str))

/-- The expressions that name a format: the first loop of `generate_sort_handler`.  Where nothing
ends the expressions, the next name or expression is no string. -/
def findNamed (goesOn : Bool) (formatName : List UInt8) :
    List (Pointer (List UInt8) × List UInt8) → Except SortStop (Option (List UInt8))
  | [] => if goesOn then .error .wildPointer else .ok none
  | (.null, _) :: rest => findNamed goesOn formatName rest
  | (.wild, _) :: _ => .error .wildPointer
  | (.to name, expression) :: rest =>
    if name = formatName then .ok (some expression) else findNamed goesOn formatName rest

/-- The expressions without a name: the second loop. -/
def findGeneric (goesOn : Bool) (format : Nat) :
    List (Pointer (List UInt8) × List UInt8) → Except SortStop (Option (SortCode D))
  | [] => if goesOn then .error .wildPointer else .ok none
  | (.null, expression) :: rest =>
    match generateSingleHandler coder format expression with
    | some code => .ok (some code)
    | none => findGeneric goesOn format rest
  | _ :: rest => findGeneric goesOn format rest

/-- `generate_sort_handler` -/
def generateSortHandler (goesOn : Bool) (format : Nat) (formatName : List UInt8)
    (stored : List (Pointer (List UInt8) × List UInt8)) :
    Except SortStop (Option (SortCode D)) := do
  match ← findNamed goesOn formatName stored with
  | some expression => return generateSingleHandler coder format expression
  | none => findGeneric coder goesOn format stored

/-- The function that was generated goes to its place in the entry. -/
def FuncTableEntry.store (entry : FuncTableEntry D) : Option (SortCode D) → FuncTableEntry D
  | some (.int func) => { entry with intFunc := .to func }
  | some (.dbl func) => { entry with dblFunc := .to func }
  | some (.str func) => { entry with strFunc := .to func }
  | none => entry

variable (fresh : Fresh D) (input : SortInput)

/-- `get_sort_handler_index`, with the entry. -/
def getSortHandler (s : SortState D) (format : Nat) :
    Except SortStop (FuncTableEntry D × SortState D) :=
  match s.funcTable.find? (·.format = format) with
  | some entry => .ok (entry, s)
  | none => do
    let code ← generateSortHandler coder fresh.goesOn format (input.formatName format)
      (storedFrom fresh 0 input.expressions)
    let entry := { fresh.entry s.funcTable.length with format }.store code
    return (entry, { s with funcTable := s.funcTable ++ [entry] })

/-! ## The loop over the records -/

/-- The type of an item in the case of a format: the last of the functions that are there. -/
def FuncTableEntry.sortType (entry : FuncTableEntry D) : SortType :=
  match entry.strFunc, entry.dblFunc, entry.intFunc with
  | .null, .null, .null => .noSort
  | .null, .null, _ => .int
  | .null, _, _ => .float
  | _, _, _ => .string

/-- The cases of `combine`. -/
def combine (thisItem sortType : SortType) : Except SortStop SortType :=
  match thisItem, sortType with
  | _, .noSort => .ok thisItem
  | .int, .int | .float, .float | .string, .string => .ok sortType
  | .string, _ | .int, .string | .float, .string => .error .incompatible
  | .float, .int => .ok .float
  | .int, .float => .ok sortType
  | .noSort, _ => .ok sortType

/-- The case of a format up to its end, where that of a data record begins. -/
def formatCase (s : SortState D) (format : Nat) : Except SortStop (SortState D) := do
  let (entry, s) ← getSortHandler coder fresh input s format
  let sortType ← combine entry.sortType s.sortType
  return { s with sortType }

/-- The keys of a record. -/
def extractKey (reals : Doubles D) (entry : FuncTableEntry D) (buffer : List UInt8)
    (unset : SortKey D) : Except SortStop (SortKey D) :=
  match entry.intFunc, entry.dblFunc, entry.strFunc with
  | .to func, _, _ =>
    .ok ⟨(func buffer).toInt, reals.ofLong (func buffer).toInt, .null⟩
  | .null, .to func, _ => .ok ⟨reals.toLong (func buffer), func buffer, .null⟩
  | .null, .null, .to func =>
    .ok ⟨0, reals.ofLong 0, match func buffer with
      | some s => .to s
      | none => .null⟩
  | .null, .null, .null => .ok unset
  | _, _, _ => .error .wildPointer

/-- The case of a data record.  `FFSread_raw_header` puts the header of the format in front of the
data again. -/
def dataCase (reals : Doubles D) (s : SortState D) (d : DataRecord) :
    Except SortStop (SortState D) := do
  let buffer := rawHeader (input.formats d.handle) ++ d.data
  let (entry, s) ← getSortHandler coder fresh input s d.handle
  let key ← extractKey reals entry buffer (fresh.key s.dataValues.length)
  return { s with dataValues := s.dataValues ++ [⟨buffer, key⟩] }

/-- The loop.  The case of a format runs into the case of data (`inData`), where
`FFSnext_data_length` passes over further formats; behind the last data record nothing is read,
and the variable for the format is not set. -/
def loop (reals : Doubles D) :
    Bool → List SortRecord → SortState D → Except SortStop (SortState D)
  | false, [], s => .ok s
  | true, [], _ => .error .noFormat
  | false, .format f :: rest, s => do
    let s ← formatCase coder fresh input s f
    loop reals true rest s
  | true, .format _ :: rest, s => loop reals true rest s
  | _, .data d :: rest, s => do
    let s ← dataCase coder fresh input reals s d
    loop reals false rest s

def run (reals : Doubles D) : Except SortStop (SortState D) :=
  loop coder fresh input reals false input.records ⟨[], .noSort, []⟩

end

/-! ## Sorting -/

/-- `strcmp`, of which the sign counts. -/
def strcmp (s t : List UInt8) : Int :=
  if strLe s t then if strLe t s then 0 else -1 else 1

section

variable {D : Type} (reals : Doubles D)

/-- `int_compar`, `double_compar` and `string_compar`. -/
def compar : SortType → SortKey D → SortKey D → Except SortStop Int
  | .int, a, b => .ok (if a.int < b.int then -1 else if b.int < a.int then 1 else 0)
  | .float, a, b =>
    .ok (if reals.lt a.double b.double then -1 else if reals.lt b.double a.double then 1 else 0)
  | .string, a, b =>
    match a.string, b.string with
    | .to s, .to t => .ok (strcmp s t)
    | .null, _ => .error .nullString
    | _, .null => .error .nullString
    | _, _ => .error .wildPointer
  | .noSort, _, _ => .error .assertion

/-- `qsort` does not stop in a comparison. -/
def QsortRuns (type : SortType) (entries : List (DataEntry D)) : Prop :=
  entries.length ≤ 1 ∨ ∀ a ∈ entries, ∀ b ∈ entries, ∃ c, compar reals type a.key b.key = .ok c

/-- What `qsort` can make of the records. -/
structure QsortGives (type : SortType) (entries out : List (DataEntry D)) : Prop where
  perm : out.Perm entries
  sorted : out.Pairwise fun a b => ∃ c, compar reals type a.key b.key = .ok c ∧ c ≤ 0

/-! ## What the tool is for -/

/-- The key of a record. -/
inductive KeyValue (D : Type) where
  | missing
  | int (n : Int)
  | real (d : D)
  | string (s : List UInt8)

/-- Keys in order, an integer being a real among reals. -/
def KeyValue.le : KeyValue D → KeyValue D → Prop
  | .missing, .missing => True
  | .int a, .int b => a ≤ b
  | .int a, .real b => reals.lt b (reals.ofLong a) = false
  | .real a, .int b => reals.lt (reals.ofLong b) a = false
  | .real a, .real b => reals.lt b a = false
  | .string s, .string t => strLe s t = true
  | _, _ => False

variable (coder : SortCoder D) (input : SortInput)

/-- The code for a format: of the expression with its name, or else of the first expression
without a name that compiles. -/
def chosenCode (format : Nat) : Option (SortCode D) :=
  match input.expressions.find? (·.1 = some (input.formatName format)) with
  | some (_, expression) => generateSingleHandler coder format expression
  | none => (input.expressions.filter (·.1.isNone)).findSome? fun expression =>
      generateSingleHandler coder format expression.2

def keyOf (d : DataRecord) : KeyValue D :=
  match chosenCode coder input d.handle with
  | some (.int func) => .int (func (input.message d)).toInt
  | some (.dbl func) => .real (func (input.message d))
  | some (.str func) =>
    match func (input.message d) with
    | some s => .string s
    | none => .missing
  | none => .missing

/-- The key with the one that stands for those that are missing. -/
def KeyValue.or (default : KeyValue D) : KeyValue D → KeyValue D
  | .missing => default
  | key => key

/-- The tool writes the records of the file in the order of their keys, whatever `qsort` does with
records of equal keys. -/
def SortsRight (fresh : Fresh D) : Prop :=
  ∃ s, run coder fresh input reals = .ok s ∧ s.sortType ≠ .noSort ∧
    QsortRuns reals s.sortType s.dataValues ∧
    ∀ out, QsortGives reals s.sortType s.dataValues out →
      ∃ (records : List DataRecord) (default : KeyValue D), records.Perm input.dataRecords ∧
        out.map (·.data) = records.map input.message ∧
        records.Pairwise fun a b =>
          KeyValue.le reals (default.or (keyOf coder input a)) (default.or (keyOf coder input b))

end

/-! ## Expressions with names -/

/-- The expression that names a format, if all in front of it have names as well. -/
def firstNamed (formatName : List UInt8) :
    List (Option (List UInt8) × List UInt8) → Option (List UInt8)
  | [] => none
  | (none, _) :: _ => none
  | (some name, expression) :: rest =>
    if name = formatName then some expression else firstNamed formatName rest

section

variable {D : Type}

theorem findNamed_of_firstNamed (fresh : Fresh D) (goesOn : Bool) {formatName : List UInt8}
    {expressions : List (Option (List UInt8) × List UInt8)} {expression : List UInt8}
    (h : firstNamed formatName expressions = some expression) (i : Nat) :
    findNamed goesOn formatName (storedFrom fresh i expressions) = .ok (some expression) := by
  induction expressions generalizing i with
  | nil => cases h
  | cons first rest ih =>
    obtain ⟨name, e⟩ := first
    cases name with
    | none => cases h
    | some name =>
      rw [firstNamed] at h
      rw [storedFrom, findNamed]
      split at h
      · next heq => rw [if_pos heq, h]
      · next hne =>
        rw [if_neg hne]
        exact ih h (i + 1)

/-- Memory in which every name that was not stored is wild, and the expressions go on. -/
structure Fresh.Adverse (fresh : Fresh D) : Prop where
  goesOn : fresh.goesOn = true
  name : ∀ i, fresh.name i = .wild

theorem firstNamed_of_findNamed {fresh : Fresh D} (hfresh : fresh.Adverse)
    {formatName : List UInt8} {expressions : List (Option (List UInt8) × List UInt8)}
    {result : Option (List UInt8)} (i : Nat)
    (h : findNamed fresh.goesOn formatName (storedFrom fresh i expressions) = .ok result) :
    ∃ expression, firstNamed formatName expressions = some expression ∧
      result = some expression := by
  induction expressions generalizing i with
  | nil =>
    rw [storedFrom, findNamed, if_pos hfresh.goesOn] at h
    cases h
  | cons first rest ih =>
    obtain ⟨name, e⟩ := first
    cases name with
    | none =>
      rw [storedFrom, hfresh.name i, findNamed] at h
      cases h
    | some name =>
      rw [storedFrom, findNamed] at h
      rw [firstNamed]
      split at h
      · next heq =>
        cases h
        exact ⟨e, if_pos heq, rfl⟩
      · next hne =>
        rw [if_neg hne]
        exact ih (i + 1) h

variable (coder : SortCoder D) (input : SortInput)

/-- The code of the expression that names a format, if all in front of it have names as well. -/
def namedCode (format : Nat) : Option (Option (SortCode D)) :=
  (firstNamed (input.formatName format) input.expressions).map fun expression =>
    generateSingleHandler coder format expression

variable {coder : SortCoder D} {input : SortInput} {fresh : Fresh D}

theorem generateSortHandler_of_named {format : Nat} {code : Option (SortCode D)}
    (h : namedCode coder input format = some code) :
    generateSortHandler coder fresh.goesOn format (input.formatName format)
      (storedFrom fresh 0 input.expressions) = .ok code := by
  obtain ⟨expression, hfirst, rfl⟩ := Option.map_eq_some_iff.mp h
  rw [generateSortHandler, findNamed_of_firstNamed fresh _ hfirst]
  rfl

theorem named_of_generateSortHandler (hfresh : fresh.Adverse) {format : Nat}
    {code : Option (SortCode D)}
    (h : generateSortHandler coder fresh.goesOn format (input.formatName format)
      (storedFrom fresh 0 input.expressions) = .ok code) :
    namedCode coder input format = some code := by
  rw [generateSortHandler] at h
  cases hfind : findNamed fresh.goesOn (input.formatName format)
      (storedFrom fresh 0 input.expressions) with
  | error stop =>
    rw [hfind] at h
    cases h
  | ok result =>
    obtain ⟨expression, hfirst, rfl⟩ := firstNamed_of_findNamed hfresh 0 hfind
    rw [hfind] at h
    rw [namedCode, hfirst]
    exact congrArg some (Except.ok.inj h)

/-! ## The table -/

/-- The entry that is made for a format in a table of some length. -/
def madeEntry (fresh : Fresh D) (count format : Nat) (code : Option (SortCode D)) :
    FuncTableEntry D := { fresh.entry count with format }.store code

@[simp] theorem format_store (entry : FuncTableEntry D) (code : Option (SortCode D)) :
    (entry.store code).format = entry.format := by
  obtain - | code := code
  · rfl
  · cases code <;> rfl

/-- An entry has the code for its format. -/
def EntryOf (coder : SortCoder D) (input : SortInput) (fresh : Fresh D)
    (entry : FuncTableEntry D) : Prop :=
  ∃ count code, namedCode coder input entry.format = some code ∧
    entry = madeEntry fresh count entry.format code

/-- The entries of the table that were made for formats of named expressions. -/
def TableOf (coder : SortCoder D) (input : SortInput) (fresh : Fresh D)
    (table : List (FuncTableEntry D)) : Prop :=
  ∀ entry ∈ table, EntryOf coder input fresh entry

theorem entryOf_made {format : Nat} {code : Option (SortCode D)}
    (h : namedCode coder input format = some code) (count : Nat) :
    EntryOf coder input fresh (madeEntry fresh count format code) := by
  have hformat : (madeEntry fresh count format code).format = format := format_store _ _
  refine ⟨count, code, ?_, ?_⟩
  · rw [hformat]
    exact h
  · rw [hformat]

/-- A format with a named expression has an entry, whatever memory holds. -/
theorem getSortHandler_of_named {s : SortState D} (htable : TableOf coder input fresh s.funcTable)
    {format : Nat} {code : Option (SortCode D)} (h : namedCode coder input format = some code) :
    ∃ count table, getSortHandler coder fresh input s format =
        .ok (madeEntry fresh count format code, { s with funcTable := table }) ∧
      TableOf coder input fresh table := by
  rw [getSortHandler]
  cases hfind : s.funcTable.find? (·.format = format) with
  | some entry =>
    have hformat : entry.format = format := by simpa using List.find?_some hfind
    obtain ⟨count, code', hcode, hentry⟩ := htable entry (List.mem_of_find?_eq_some hfind)
    rw [hformat, h] at hcode
    rw [hformat, ← Option.some.inj hcode] at hentry
    refine ⟨count, s.funcTable, ?_, htable⟩
    rw [← hentry]
  | none =>
    refine ⟨s.funcTable.length, s.funcTable ++ [madeEntry fresh s.funcTable.length format code],
      ?_, ?_⟩
    · rw [generateSortHandler_of_named h]
      rfl
    · intro entry hentry
      obtain hmem | hlast := List.mem_append.mp hentry
      · exact htable entry hmem
      · rw [List.mem_singleton.mp hlast]
        exact entryOf_made h _

/-- In adverse memory only formats of named expressions have entries. -/
theorem named_of_getSortHandler (hfresh : fresh.Adverse) {s s' : SortState D}
    (htable : TableOf coder input fresh s.funcTable) {format : Nat} {entry : FuncTableEntry D}
    (h : getSortHandler coder fresh input s format = .ok (entry, s')) :
    ∃ count code, namedCode coder input format = some code ∧
      entry = madeEntry fresh count format code ∧ TableOf coder input fresh s'.funcTable ∧
      s'.sortType = s.sortType ∧ s'.dataValues = s.dataValues := by
  have hnamed : ∃ code, namedCode coder input format = some code := by
    rw [getSortHandler] at h
    cases hfind : s.funcTable.find? (·.format = format) with
    | some found =>
      have hformat : found.format = format := by simpa using List.find?_some hfind
      obtain ⟨-, code, hcode, -⟩ := htable found (List.mem_of_find?_eq_some hfind)
      rw [hformat] at hcode
      exact ⟨code, hcode⟩
    | none =>
      rw [hfind] at h
      cases hcode : generateSortHandler coder fresh.goesOn format (input.formatName format)
          (storedFrom fresh 0 input.expressions) with
      | error stop =>
        dsimp only at h
        rw [hcode] at h
        cases h
      | ok code => exact ⟨code, named_of_generateSortHandler hfresh hcode⟩
  obtain ⟨code, hcode⟩ := hnamed
  obtain ⟨count, table, hget, htable'⟩ := getSortHandler_of_named htable hcode
  rw [hget] at h
  cases h
  exact ⟨count, code, hcode, rfl, htable', rfl, rfl⟩

/-! ## The loop -/

/-- A record that the loop waits for in the case of data is there. -/
theorem loop_inData {reals : Doubles D} {records : List SortRecord} {s s' : SortState D}
    (h : loop coder fresh input reals true records s = .ok s') :
    ∃ (others : List Nat) (d : DataRecord) (rest : List SortRecord) (s₁ : SortState D),
      records = others.map SortRecord.format ++ .data d :: rest ∧
      dataCase coder fresh input reals s d = .ok s₁ ∧
      loop coder fresh input reals false rest s₁ = .ok s' := by
  induction records with
  | nil => cases h
  | cons record rest ih =>
    cases record with
    | format f =>
      obtain ⟨others, d, rest', s₁, rfl, hdata, hloop⟩ := ih h
      exact ⟨f :: others, d, rest', s₁, rfl, hdata, hloop⟩
    | data d =>
      obtain ⟨s₁, hdata, hloop⟩ := bind_eq_ok_iff.mp h
      exact ⟨[], d, rest, s₁, rfl, hdata, hloop⟩

theorem loop_skips (reals : Doubles D) (others : List Nat) (d : DataRecord) (s : SortState D) :
    loop coder fresh input reals true (others.map SortRecord.format ++ [.data d]) s =
      dataCase coder fresh input reals s d := by
  induction others with
  | nil =>
    show (dataCase coder fresh input reals s d >>= fun s => .ok s) = _
    cases dataCase coder fresh input reals s d <;> rfl
  | cons f others ih => exact ih

theorem dataCase_eq_ok {reals : Doubles D} {s s' : SortState D} {d : DataRecord}
    (h : dataCase coder fresh input reals s d = .ok s') :
    ∃ entry s₁ key, getSortHandler coder fresh input s d.handle = .ok (entry, s₁) ∧
      extractKey reals entry (rawHeader (input.formats d.handle) ++ d.data)
        (fresh.key s₁.dataValues.length) = .ok key ∧
      s' = { s₁ with dataValues := s₁.dataValues ++
        [⟨rawHeader (input.formats d.handle) ++ d.data, key⟩] } := by
  obtain ⟨⟨entry, s₁⟩, hget, h⟩ := bind_eq_ok_iff.mp h
  obtain ⟨key, hkey, h⟩ := bind_eq_ok_iff.mp h
  exact ⟨entry, s₁, key, hget, hkey, (Except.ok.inj h).symm⟩

theorem formatCase_eq_ok {s s' : SortState D} {f : Nat}
    (h : formatCase coder fresh input s f = .ok s') :
    ∃ entry s₁ sortType, getSortHandler coder fresh input s f = .ok (entry, s₁) ∧
      combine entry.sortType s₁.sortType = .ok sortType ∧ s' = { s₁ with sortType } := by
  obtain ⟨⟨entry, s₁⟩, hget, h⟩ := bind_eq_ok_iff.mp h
  obtain ⟨sortType, hcombine, h⟩ := bind_eq_ok_iff.mp h
  exact ⟨entry, s₁, sortType, hget, hcombine, (Except.ok.inj h).symm⟩

/-! ## Memory in which everything is wild -/

/-- Adverse memory, with wild functions as well. -/
structure Fresh.Wild (fresh : Fresh D) : Prop extends fresh.Adverse where
  int : ∀ i, (fresh.entry i).intFunc = .wild
  dbl : ∀ i, (fresh.entry i).dblFunc = .wild
  str : ∀ i, (fresh.entry i).strFunc = .wild

/-- In wild memory every format seems to have strings for keys. -/
theorem sortType_wild (hfresh : fresh.Wild) (count format : Nat) (code : Option (SortCode D)) :
    (madeEntry fresh count format code).sortType = .string := by
  obtain - | code := code
  · simp [madeEntry, FuncTableEntry.store, FuncTableEntry.sortType, hfresh.int, hfresh.dbl,
      hfresh.str]
  · cases code <;>
      simp [madeEntry, FuncTableEntry.store, FuncTableEntry.sortType, hfresh.int, hfresh.dbl,
        hfresh.str]

/-- In wild memory a key is taken only by a function that gives integers. -/
theorem extractKey_wild (hfresh : fresh.Wild) {reals : Doubles D} {count format : Nat}
    {code : Option (SortCode D)} {buffer : List UInt8} {unset key : SortKey D}
    (h : extractKey reals (madeEntry fresh count format code) buffer unset = .ok key) :
    (∃ func, code = some (.int func)) ∧ key.string = .null := by
  obtain - | code := code
  · simp [madeEntry, FuncTableEntry.store, extractKey, hfresh.int] at h
  · cases code with
    | int func =>
      refine ⟨⟨func, rfl⟩, ?_⟩
      cases h
      rfl
    | dbl func => simp [madeEntry, FuncTableEntry.store, extractKey, hfresh.int] at h
    | str func => simp [madeEntry, FuncTableEntry.store, extractKey, hfresh.int] at h

/-- What holds in wild memory between two records: strings are compared, if anything is, and no
record has one. -/
structure WildState (coder : SortCoder D) (input : SortInput) (fresh : Fresh D)
    (s : SortState D) : Prop where
  table : TableOf coder input fresh s.funcTable
  sortType : s.sortType = .noSort ∨ s.sortType = .string
  strings : ∀ entry ∈ s.dataValues, entry.key.string = .null

theorem wildState_formatCase (hfresh : fresh.Wild) {s s' : SortState D}
    (hs : WildState coder input fresh s) {f : Nat}
    (h : formatCase coder fresh input s f = .ok s') :
    WildState coder input fresh s' ∧ s'.dataValues = s.dataValues ∧
      ∃ code, namedCode coder input f = some code := by
  obtain ⟨entry, s₁, sortType, hget, hcombine, rfl⟩ := formatCase_eq_ok h
  obtain ⟨count, code, hcode, rfl, htable, htype, hvalues⟩ :=
    named_of_getSortHandler hfresh.toAdverse hs.table hget
  refine ⟨⟨htable, .inr ?_, ?_⟩, hvalues, code, hcode⟩
  · rw [sortType_wild hfresh, htype] at hcombine
    obtain hno | hstring := hs.sortType
    · rw [hno] at hcombine
      exact (Except.ok.inj hcombine).symm
    · rw [hstring] at hcombine
      exact (Except.ok.inj hcombine).symm
  · exact fun entry hentry => hs.strings entry (hvalues ▸ hentry)

theorem wildState_dataCase (hfresh : fresh.Wild) {reals : Doubles D} {s s' : SortState D}
    (hs : WildState coder input fresh s) {d : DataRecord}
    (h : dataCase coder fresh input reals s d = .ok s') :
    WildState coder input fresh s' ∧ s'.dataValues.length = s.dataValues.length + 1 ∧
      s'.sortType = s.sortType ∧
      (s'.dataValues.map (·.data) = s.dataValues.map (·.data) ++
        [rawHeader (input.formats d.handle) ++ d.data]) ∧
      ∃ func, namedCode coder input d.handle = some (some (.int func)) := by
  obtain ⟨entry, s₁, key, hget, hkey, rfl⟩ := dataCase_eq_ok h
  obtain ⟨count, code, hcode, rfl, htable, htype, hvalues⟩ :=
    named_of_getSortHandler hfresh.toAdverse hs.table hget
  obtain ⟨⟨func, rfl⟩, hnull⟩ := extractKey_wild hfresh hkey
  refine ⟨⟨htable, by rw [htype]; exact hs.sortType, ?_⟩, ?_, htype, ?_, func, hcode⟩
  · intro entry hentry
    rw [hvalues] at hentry
    obtain hmem | hlast := List.mem_append.mp hentry
    · exact hs.strings entry hmem
    · rw [List.mem_singleton.mp hlast]
      exact hnull
  · rw [hvalues, List.length_append]
    rfl
  · rw [hvalues, List.map_append]
    rfl

/-- How many data records there are. -/
def dataCount (records : List SortRecord) : Nat := (records.filterMap SortRecord.data?).length

theorem filterMap_formats (others : List Nat) (records : List SortRecord) :
    (others.map SortRecord.format ++ records).filterMap SortRecord.data? =
      records.filterMap SortRecord.data? := by
  induction others with
  | nil => rfl
  | cons f others ih => exact ih

theorem dataCount_formats (others : List Nat) (records : List SortRecord) :
    dataCount (others.map SortRecord.format ++ records) = dataCount records :=
  congrArg List.length (filterMap_formats others records)

theorem dataCount_format (f : Nat) (records : List SortRecord) :
    dataCount (.format f :: records) = dataCount records := rfl

theorem dataCount_data (d : DataRecord) (records : List SortRecord) :
    dataCount (.data d :: records) = dataCount records + 1 := rfl

theorem wildState_loop (hfresh : fresh.Wild) {reals : Doubles D} {records : List SortRecord}
    {inData : Bool} {s s' : SortState D} (hs : WildState coder input fresh s)
    (h : loop coder fresh input reals inData records s = .ok s') :
    WildState coder input fresh s' ∧
      s'.dataValues.length = s.dataValues.length + dataCount records := by
  induction records generalizing inData s with
  | nil =>
    cases inData with
    | false =>
      cases h
      exact ⟨hs, rfl⟩
    | true => cases h
  | cons record rest ih =>
    cases record with
    | format f =>
      cases inData with
      | false =>
        obtain ⟨s₁, hformat, hloop⟩ := bind_eq_ok_iff.mp h
        obtain ⟨hs₁, hvalues, -⟩ := wildState_formatCase hfresh hs hformat
        obtain ⟨hs', hlength⟩ := ih hs₁ hloop
        rw [hvalues] at hlength
        exact ⟨hs', hlength⟩
      | true => exact ih hs h
    | data d =>
      obtain ⟨s₁, hdata, hloop⟩ := bind_eq_ok_iff.mp (show
        (dataCase coder fresh input reals s d >>= fun s =>
          loop coder fresh input reals false rest s) = .ok s' by cases inData <;> exact h)
      obtain ⟨hs₁, hone, -⟩ := wildState_dataCase hfresh hs hdata
      obtain ⟨hs', hlength⟩ := ih hs₁ hloop
      refine ⟨hs', ?_⟩
      rw [hlength, hone, dataCount_data]
      omega

/-- In wild memory no two records are sorted. -/
theorem length_of_qsortRuns_wild {reals : Doubles D} {s : SortState D}
    (hs : WildState coder input fresh s) (hsort : s.sortType ≠ .noSort)
    (hruns : QsortRuns reals s.sortType s.dataValues) : s.dataValues.length ≤ 1 := by
  obtain hlength | hall := hruns
  · exact hlength
  · cases hvalues : s.dataValues with
    | nil => exact Nat.zero_le _
    | cons a rest =>
      have hmem : a ∈ s.dataValues := hvalues ▸ List.mem_cons_self
      obtain ⟨c, hc⟩ := hall a hmem a hmem
      rw [hs.sortType.resolve_left hsort, compar, hs.strings a hmem] at hc
      cases hc

/-! ## One record -/

/-- A file with one data record, as its last record, for whose format an expression with its name
gives an integer; the first format of the file has one that compiles.  The expressions in front of
these have names.  The header of the record has no length in it. -/
def OneRecord (coder : SortCoder D) (input : SortInput) : Prop :=
  ∃ (f : Nat) (others : List Nat) (d : DataRecord),
    input.records = .format f :: (others.map SortRecord.format ++ [.data d]) ∧
    (∃ code, namedCode coder input f = some (some code)) ∧
    (∃ func, namedCode coder input d.handle = some (some (.int func))) ∧
    ((input.formats d.handle).format.top.variant = false ∨ d.data = [])

/-- The records have identifiers of the right length, and their messages are no longer than `int`
counts. -/
def SortInput.WellFormed (input : SortInput) : Prop :=
  ∀ d ∈ input.dataRecords,
    ProperID (input.formats d.handle).serverID ∧ (input.message d).length < 2 ^ 31

/-- The record is written as it was if its header is made again rightly. -/
theorem buffer_eq_iff (hinput : input.WellFormed) {d : DataRecord} (hd : d ∈ input.dataRecords) :
    rawHeader (input.formats d.handle) ++ d.data = input.message d ↔
      (input.formats d.handle).format.top.variant = false ∨ d.data = [] := by
  obtain ⟨hid, hmessage⟩ := hinput d hd
  have hlength : d.data.length < 2 ^ 31 := by
    rw [SortInput.message, encodedMessage, List.length_append] at hmessage
    omega
  rw [SortInput.message, encodedMessage, List.append_cancel_right_eq,
    rawHeader_eq_iff d.bigEndian hid hlength, List.length_eq_zero_iff]

theorem dataRecords_of_one {f : Nat} {others : List Nat} {d : DataRecord}
    (h : input.records = .format f :: (others.map SortRecord.format ++ [.data d])) :
    input.dataRecords = [d] := by
  rw [SortInput.dataRecords, h, List.filterMap_cons_none rfl, filterMap_formats]
  rfl

/-- An entry with code for its format has a sort type. -/
theorem sortType_made (count format : Nat) (code : SortCode D) :
    (madeEntry fresh count format (some code)).sortType ≠ .noSort := by
  cases code with
  | int func =>
    simp only [madeEntry, FuncTableEntry.store, FuncTableEntry.sortType]
    split <;> simp_all
  | dbl func =>
    simp only [madeEntry, FuncTableEntry.store, FuncTableEntry.sortType]
    split <;> simp_all
  | str func => simp [madeEntry, FuncTableEntry.store, FuncTableEntry.sortType]

theorem tableOf_nil : TableOf coder input fresh [] := fun _ h => absurd h List.not_mem_nil

/-- A record of a format with integers gets a key, whatever memory holds. -/
theorem dataCase_of_named (reals : Doubles D) {s : SortState D}
    (htable : TableOf coder input fresh s.funcTable) {d : DataRecord}
    {func : List UInt8 → Int32} (h : namedCode coder input d.handle = some (some (.int func))) :
    ∃ table key, dataCase coder fresh input reals s d = .ok
      { s with funcTable := table, dataValues := s.dataValues ++
        [⟨rawHeader (input.formats d.handle) ++ d.data, key⟩] } := by
  obtain ⟨count, table, hget, -⟩ := getSortHandler_of_named htable h
  refine ⟨table, ?_, bind_eq_of_eq_ok hget (bind_eq_of_eq_ok ?_ rfl)⟩
  · exact ⟨(func (rawHeader (input.formats d.handle) ++ d.data)).toInt,
      reals.ofLong (func (rawHeader (input.formats d.handle) ++ d.data)).toInt, .null⟩
  · rfl

/-- One record is written as it was, whatever memory holds. -/
theorem sortsRight_of_one (reals : Doubles D) (hinput : input.WellFormed)
    (h : OneRecord coder input) (fresh : Fresh D) : SortsRight reals coder input fresh := by
  obtain ⟨f, others, d, hrecords, ⟨code, hcode⟩, ⟨func, hfunc⟩, hheader⟩ := h
  have hdata := dataRecords_of_one hrecords
  have hbuffer := (buffer_eq_iff hinput (hdata ▸ List.mem_cons_self)).mpr hheader
  have hnil : TableOf coder input fresh [] := tableOf_nil
  obtain ⟨count, table, hget, htable⟩ :=
    getSortHandler_of_named (s := ⟨[], .noSort, []⟩) hnil hcode
  have hsort : (madeEntry fresh count f (some code)).sortType ≠ .noSort :=
    sortType_made count f code
  have hformat : formatCase coder fresh input ⟨[], .noSort, []⟩ f =
      .ok ⟨table, (madeEntry fresh count f (some code)).sortType, []⟩ := by
    refine bind_eq_of_eq_ok hget (bind_eq_of_eq_ok ?_ rfl)
    simp [combine]
  obtain ⟨table', key, hcase⟩ := dataCase_of_named reals
    (s := ⟨table, (madeEntry fresh count f (some code)).sortType, []⟩) htable hfunc
  have hrun : run coder fresh input reals = .ok
      ⟨table', (madeEntry fresh count f (some code)).sortType,
        [⟨rawHeader (input.formats d.handle) ++ d.data, key⟩]⟩ := by
    rw [run, hrecords]
    exact bind_eq_of_eq_ok hformat ((loop_skips reals others d _).trans hcase)
  refine ⟨_, hrun, hsort, .inl (le_refl 1), fun out hout => ?_⟩
  have hone := List.perm_singleton.mp hout.perm
  refine ⟨[d], .missing, ?_, ?_, List.pairwise_singleton _ _⟩
  · rw [hdata]
  · rw [hone]
    exact congrArg (fun m => [m]) hbuffer

/-! ## All memory -/

/-- Memory full of wild pointers, but for the functions as they are given. -/
def adverseMemory (reals : Doubles D) (functions : FuncTableEntry D) : Fresh D :=
  ⟨true, fun _ => .wild, fun _ => functions, fun _ => ⟨0, reals.ofLong 0, .null⟩⟩

theorem adverse_adverseMemory (reals : Doubles D) (functions : FuncTableEntry D) :
    (adverseMemory reals functions).Adverse := ⟨rfl, fun _ => rfl⟩

/-- What a run in wild memory needs of the records. -/
theorem shape_of_loop_wild (hfresh : fresh.Wild) {reals : Doubles D} {records : List SortRecord}
    {s : SortState D}
    (h : loop coder fresh input reals false records ⟨[], .noSort, []⟩ = .ok s)
    (hsort : s.sortType ≠ .noSort) (hruns : QsortRuns reals s.sortType s.dataValues) :
    ∃ (f : Nat) (others : List Nat) (d : DataRecord) (code : Option (SortCode D))
      (func : List UInt8 → Int32),
      records = .format f :: (others.map SortRecord.format ++ [.data d]) ∧
      namedCode coder input f = some code ∧
      namedCode coder input d.handle = some (some (.int func)) ∧
      s.dataValues.map (·.data) = [rawHeader (input.formats d.handle) ++ d.data] := by
  have hinit : WildState coder input fresh ⟨[], .noSort, []⟩ :=
    ⟨tableOf_nil, .inl rfl, fun _ hmem => absurd hmem List.not_mem_nil⟩
  obtain ⟨hs, hlength⟩ := wildState_loop hfresh hinit h
  have hone := length_of_qsortRuns_wild hs hsort hruns
  -- Behind the one record of data the loop ends: a format would wait for another.
  have hends : ∀ {d : DataRecord} {rest : List SortRecord} {s₁ s₂ : SortState D},
      dataCount (.data d :: rest) ≤ 1 → loop coder fresh input reals false rest s₁ = .ok s₂ →
        rest = [] ∧ s₁ = s₂ := by
    intro d rest s₁ s₂ hcount hloop
    have hnone : dataCount rest = 0 := by
      rw [dataCount_data] at hcount
      omega
    cases rest with
    | nil => exact ⟨rfl, Except.ok.inj hloop⟩
    | cons record rest =>
      cases record with
      | format f =>
        obtain ⟨s₃, -, hwait⟩ := bind_eq_ok_iff.mp hloop
        obtain ⟨others, d', rest', -, rfl, -, -⟩ := loop_inData hwait
        rw [dataCount_format, dataCount_formats, dataCount_data] at hnone
        cases hnone
      | data d' => cases hnone
  cases records with
  | nil =>
    cases h
    exact absurd rfl hsort
  | cons record rest =>
    cases record with
    | data d =>
      obtain ⟨s₁, hdata, hloop⟩ := bind_eq_ok_iff.mp h
      obtain ⟨-, -, htype, -⟩ := wildState_dataCase hfresh hinit hdata
      have hcount : dataCount (.data d :: rest) ≤ 1 := by
        rw [hlength] at hone
        simpa using hone
      obtain ⟨-, rfl⟩ := hends hcount hloop
      exact absurd htype hsort
    | format f =>
      obtain ⟨s₁, hformat, hloop⟩ := bind_eq_ok_iff.mp h
      obtain ⟨hs₁, hvalues, code, hcode⟩ := wildState_formatCase hfresh hinit hformat
      obtain ⟨others, d, rest', s₂, rfl, hdata, hloop'⟩ := loop_inData hloop
      obtain ⟨-, -, -, hbuffers, func, hfunc⟩ := wildState_dataCase hfresh hs₁ hdata
      have hcount : dataCount (.data d :: rest') ≤ 1 := by
        rw [hlength, dataCount_format, dataCount_formats] at hone
        simpa using hone
      obtain ⟨rfl, rfl⟩ := hends hcount hloop'
      rw [hvalues] at hbuffers
      exact ⟨f, others, d, code, func, rfl, hcode, hfunc, hbuffers⟩

/-- The tool sorts a file rightly whatever memory holds if and only if the file has one record, as
`OneRecord` says. -/
theorem sortsRight_iff (reals : Doubles D) (hinput : input.WellFormed) :
    (∀ fresh, SortsRight reals coder input fresh) ↔ OneRecord coder input := by
  refine ⟨fun h => ?_, sortsRight_of_one reals hinput⟩
  have hwild : (adverseMemory reals ⟨0, .wild, .wild, .wild⟩).Wild :=
    ⟨adverse_adverseMemory _ _, fun _ => rfl, fun _ => rfl, fun _ => rfl⟩
  obtain ⟨s, hrun, hsort, hruns, hright⟩ := h (adverseMemory reals ⟨0, .wild, .wild, .wild⟩)
  obtain ⟨f, others, d, code, func, hrecords, hcode, hfunc, hbuffers⟩ :=
    shape_of_loop_wild hwild hrun hsort hruns
  have hdata := dataRecords_of_one hrecords
  have hsorted : s.dataValues.Pairwise fun a b =>
      ∃ c, compar reals s.sortType a.key b.key = .ok c ∧ c ≤ 0 := by
    have hlength := congrArg List.length hbuffers
    rw [List.length_map] at hlength
    obtain ⟨entry, hentry⟩ := List.length_eq_one_iff.mp hlength
    rw [hentry]
    exact List.pairwise_singleton _ _
  refine ⟨f, others, d, hrecords, ?_, ⟨func, hfunc⟩, ?_⟩
  · -- Where the functions are not set, a format without code leaves the file without an order.
    cases code with
    | some code => exact ⟨code, hcode⟩
    | none =>
      obtain ⟨s', hrun', hsort', -⟩ := h (adverseMemory reals ⟨0, .null, .null, .null⟩)
      rw [run, hrecords] at hrun'
      obtain ⟨s₁, hformat, hloop⟩ := bind_eq_ok_iff.mp hrun'
      rw [loop_skips] at hloop
      obtain ⟨entry, s₂, sortType, hget, hcombine, rfl⟩ := formatCase_eq_ok hformat
      obtain ⟨count, code', hcode', rfl, htable, htype, -⟩ :=
        named_of_getSortHandler (adverse_adverseMemory _ _) tableOf_nil hget
      rw [hcode] at hcode'
      rw [← Option.some.inj hcode', htype] at hcombine
      obtain ⟨entry', s₃, key, hget', -, rfl⟩ := dataCase_eq_ok hloop
      obtain ⟨-, -, -, -, -, htype', -⟩ := named_of_getSortHandler (adverse_adverseMemory _ _)
        (s := ⟨s₂.funcTable, sortType, s₂.dataValues⟩) htable hget'
      have hno : sortType = .noSort := (Except.ok.inj hcombine).symm
      exact absurd (htype'.trans hno) hsort'
  · obtain ⟨records, -, hperm, hmap, -⟩ := hright s.dataValues
      ⟨List.Perm.refl _, hsorted⟩
    rw [hdata, List.perm_singleton] at hperm
    rw [hbuffers, hperm] at hmap
    exact (buffer_eq_iff hinput (hdata ▸ List.mem_cons_self)).mp (List.cons.inj hmap).1

end

/-! ### Numbers -/

/-- Records of one number each, sorted by the first byte, which `n:x` stands for. -/
def numberInput (numbers : List UInt8) : SortInput where
  arguments := [chars ['n', ':', 'x']]
  formats := fun _ => FFSReader.nameBody false
  records := .format 0 :: numbers.map fun n => .data ⟨0, false, n :: List.replicate 7 0⟩

def numberCoder : SortCoder Int where
  int := fun _ _ => some fun m => Int32.ofNat (m.getD 16 0).toNat
  dbl := fun _ _ => none
  str := fun _ _ => none

/-- Whole numbers for reals. -/
def wholeNumbers : Doubles Int := ⟨fun a b => decide (a < b), id, id⟩

theorem wellFormed_numbers (numbers : List UInt8) : (numberInput numbers).WellFormed := by
  intro d hd
  obtain ⟨record, hrecord, heq⟩ := List.mem_filterMap.mp hd
  obtain rfl | hmem := List.mem_cons.mp hrecord
  · cases heq
  · obtain ⟨n, -, rfl⟩ := List.mem_map.mp hmem
    cases heq
    have hid : ProperID (FFSReader.nameBody false).serverID := by decide
    have hlength : ((numberInput numbers).message ⟨0, false, n :: List.replicate 7 0⟩).length <
        2 ^ 31 := by
      change (encodedMessage false (FFSReader.nameBody false)
        (n :: List.replicate 7 0)).length < 2 ^ 31
      rw [encodedMessage, List.length_append, length_encodedHeader false hid]
      exact (by decide : headerSize (FFSReader.nameBody false) + 8 < 2 ^ 31)
    exact ⟨hid, hlength⟩

theorem oneRecord_number : OneRecord numberCoder (numberInput [7]) :=
  ⟨0, [], ⟨0, false, 7 :: List.replicate 7 0⟩, rfl, ⟨_, rfl⟩, ⟨_, rfl⟩, .inl rfl⟩

/-- One number is written as it was. -/
theorem number_sorted : OneRecord numberCoder (numberInput [7]) ∧
    ∀ fresh, SortsRight wholeNumbers numberCoder (numberInput [7]) fresh :=
  ⟨oneRecord_number, (sortsRight_iff wholeNumbers (wellFormed_numbers [7])).mpr oneRecord_number⟩

/-- Two numbers are not sorted whatever memory holds. -/
theorem numbers_not_sorted :
    ¬ ∀ fresh, SortsRight wholeNumbers numberCoder (numberInput [7, 3]) fresh := by
  intro h
  have hwild : (adverseMemory wholeNumbers ⟨0, .wild, .wild, .wild⟩).Wild :=
    ⟨adverse_adverseMemory _ _, fun _ => rfl, fun _ => rfl, fun _ => rfl⟩
  obtain ⟨s, hrun, hsort, hruns, -⟩ := h (adverseMemory wholeNumbers ⟨0, .wild, .wild, .wild⟩)
  obtain ⟨f, others, d, -, -, hrecords, -⟩ := shape_of_loop_wild hwild hrun hsort hruns
  have hdata : (2 : Nat) = 1 := congrArg List.length (dataRecords_of_one hrecords)
  exact absurd hdata (by decide)

end SortTool

end FFS
