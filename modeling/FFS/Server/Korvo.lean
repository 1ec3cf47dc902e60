import FFS.Server.FormatServer
import FFS.Machine.Decimal
import FFS.Machine.Json

/-!
# The web format server

`korvo_server` is run for each request.  It keeps formats and atoms in three directories, a file
for each, and finds the members of a JSON body by searching its text.  The path of the data
directory has at most 758 bytes, so that no path of a file is cut.
-/

namespace FFS

open Machine

/-! ## Texts -/

/-- The literal bytes of a text. -/
def bytesOf (s : String) : List UInt8 := chars s.toList

def hexChars : List UInt8 := bytesOf "0123456789abcdef"

def hexDigit (n : Nat) : UInt8 := hexChars.getD n 0

/-- `hex_encode` -/
def hexEncode (data : List UInt8) : List UInt8 :=
  data.flatMap fun b => [hexDigit (b.toNat / 16), hexDigit (b.toNat % 16)]

def hexValue (c : UInt8) : Option Nat := (digitValue c).filter (· < 16)

/-- `hex_decode` -/
def hexDecode : List UInt8 → Option (List UInt8)
  | [] => some []
  | [_] => none
  | hi :: lo :: rest => do
    let hi ← hexValue hi
    let lo ← hexValue lo
    return UInt8.ofNat (hi * 16 + lo) :: (← hexDecode rest)

/-- `strstr` -/
def strstr (pattern : List UInt8) : List UInt8 → Option (List UInt8)
  | [] => if pattern = [] then some [] else none
  | c :: rest => if pattern.isPrefixOf (c :: rest) then some (c :: rest) else strstr pattern rest

def quoted (s : List UInt8) : List UInt8 := chr '"' :: (s ++ [chr '"'])

def isGap (c : UInt8) : Bool := c = chr ' ' || c = chr '\t' || c = chr ':'

/-- The text behind a quoted key and what separates it from a value. -/
def jsonValue (json key : List UInt8) : Option (List UInt8) := do
  let p ← strstr (quoted key) json
  return (p.drop (quoted key).length).dropWhile isGap

/-- `json_get_string` -/
def jsonGetString (json key : List UInt8) : Option (List UInt8) := do
  match ← jsonValue json key with
  | [] => none
  | c :: start =>
    if c ≠ chr '"' then none
    else
      let _ ← strchr start (chr '"')
      return start.takeWhile (· ≠ chr '"')

/-- `atoi` -/
def atoi (s : List UInt8) : Int := (strtol 10 s).1.bmod (2 ^ 32)

/-- `json_get_int` -/
def jsonGetInt (json key : List UInt8) : Int :=
  match jsonValue json key with
  | none => -1
  | some p => atoi p

/-- A byte that a name has as it is. -/
def isUrlSafe (c : UInt8) : Bool :=
  (chr 'a' ≤ c && c ≤ chr 'z') || (chr 'A' ≤ c && c ≤ chr 'Z') || (chr '0' ≤ c && c ≤ chr '9') ||
    c = chr '-' || c = chr '.' || c = chr '_'

def urlSafeByte (c : UInt8) : List UInt8 :=
  if isUrlSafe c then [c] else [chr '%', hexDigit (c.toNat / 16), hexDigit (c.toNat % 16)]

/-- `url_safe_encode` behind what is already in the buffer. -/
def urlSafeEncode (outSize : Nat) : List UInt8 → List UInt8 → List UInt8
  | out, [] => out
  | out, c :: str =>
    if out.length < outSize - 5 then urlSafeEncode outSize (out ++ urlSafeByte c) str else out

/-- `url_safe_decode` with room for so many bytes. -/
def urlSafeDecode : Nat → List UInt8 → List UInt8
  | 0, _ => []
  | _ + 1, [] => []
  | room + 1, c :: enc =>
    match enc with
    | hi :: lo :: rest =>
      match if c = chr '%' then hexDecode [hi, lo] else none with
      | some b => b ++ urlSafeDecode room rest
      | none => c :: urlSafeDecode room (hi :: lo :: rest)
    | enc => c :: urlSafeDecode room enc

/-! ## Files -/

abbrev Directory := List UInt8 → Option (List UInt8)

/-- The directories `formats`, `atoms/s` and `atoms/v`. -/
structure KorvoStore where
  formats : Directory
  byString : Directory
  byValue : Directory

/-- The directories that `ensure_data_dirs` makes. -/
def KorvoStore.empty : KorvoStore :=
  { formats := fun _ => none, byString := fun _ => none, byValue := fun _ => none }

/-- The names that a file of a directory can have. -/
def isFileName (name : List UInt8) : Bool :=
  name ≠ [] && name.length ≤ 255 && name ≠ bytesOf "." && name ≠ bytesOf ".." &&
    !name.contains (chr '/')

/-- `fopen` of a file to read, with what is found where the name leads elsewhere. -/
def openRead (directory : Directory) (elsewhere : Option (List UInt8)) (name : List UInt8) :
    Option (List UInt8) :=
  if isFileName name then directory name
  else if 255 < name.length && !name.contains (chr '/') then none
  else elsewhere

/-- `fopen` of a file to write, and what is written. -/
def writeFile (directory : Directory) (name contents : List UInt8) : Option Directory :=
  if isFileName name then some (Function.update directory name (some contents)) else none

/-! ## Handlers -/

structure Response where
  status : Nat
  body : List UInt8
deriving DecidableEq

/-- `json_ok` of an object with one member. -/
def jsonOk (key value : List UInt8) : Response :=
  { status := 200
    body := chr '{' :: chr '"' :: (key ++ chr '"' :: chr ':' :: (value ++ [chr '}'])) }

/-- The answer to a request that fails. -/
def jsonFail (status : Nat) (error : String) : Response :=
  { jsonOk (bytesOf "error") (quoted (bytesOf error)) with status }

/-- `handle_post_format`.  There is no result when the ID is generated from bytes behind the
representation, which happens when the length it records is negative as an `int`. -/
def handlePostFormat (hash : List UInt8 → UInt32 × UInt32) (store : KorvoStore)
    (body : List UInt8) : Option (KorvoStore × Response) :=
  match jsonGetString body (bytesOf "format_rep") with
  | none => some (store, jsonFail 400 "missing format_rep")
  | some hexRep =>
    if hexRep.length / 2 < 8 then some (store, jsonFail 400 "format_rep too short")
    else
      match hexDecode hexRep with
      | none => some (store, jsonFail 400 "invalid hex in format_rep")
      | some formatRep => do
        let declaredLen := Int.bmod (← recordedRepLength formatRep) (2 ^ 32)
        if formatRep.length < declaredLen then
          return (store, jsonFail 400 "format_rep_length mismatch")
        else
          let hexID := hexEncode (← generatedServerID hash formatRep)
          let response := jsonOk (bytesOf "server_id") (quoted hexID)
          match openRead store.formats none hexID with
          | some _ => return (store, response)
          | none =>
            match writeFile store.formats hexID formatRep with
            | none => return (store, jsonFail 500 "cannot write format file")
            | some formats => return ({ store with formats }, response)

/-- `handle_get_format` -/
def handleGetFormat (store : KorvoStore) (elsewhere : Option (List UInt8)) (hexID : List UInt8) :
    Response :=
  match openRead store.formats elsewhere hexID with
  | none => jsonFail 404 "format not found"
  | some rep => jsonOk (bytesOf "format_rep") (quoted (hexEncode rep))

/-- `handle_post_atom` -/
def handlePostAtom (store : KorvoStore) (body : List UInt8) : KorvoStore × Response :=
  let atom := jsonGetInt body (bytesOf "atom")
  match jsonGetString body (bytesOf "string") with
  | none => (store, jsonFail 400 "missing string or atom")
  | some str =>
    if atom < 0 then (store, jsonFail 400 "missing string or atom")
    else
      match writeFile store.byString (urlSafeEncode 512 [] str) (decimal atom ++ [chr '\n']) with
      | none => (store, jsonFail 500 "cannot write atom file")
      | some byString =>
        let store := { store with byString }
        match writeFile store.byValue (decimal atom) (str ++ [chr '\n']) with
        | none => (store, jsonFail 500 "cannot write atom value file")
        | some byValue => ({ store with byValue }, jsonOk (bytesOf "ok") (bytesOf "true"))

/-- `fscanf` of a number. -/
def scanInt (contents : List UInt8) : Option Int :=
  let (value, rest) := strtol 10 contents
  if rest.length = contents.length then none else some (value.bmod (2 ^ 32))

/-- `handle_get_atom_by_string`.  A directory has nothing to read. -/
def handleGetAtomByString (store : KorvoStore) (str : List UInt8) : Response :=
  match openRead store.byString (some []) (urlSafeEncode 512 [] str) with
  | none => jsonFail 404 "atom not found"
  | some contents =>
    match scanInt contents with
    | none => jsonFail 500 "corrupt atom file"
    | some atom => jsonOk (bytesOf "atom") (decimal atom)

/-- `fgets` with room for so many bytes: a line with its end. -/
def fgets : Nat → List UInt8 → List UInt8
  | 0, _ => []
  | _ + 1, [] => []
  | room + 1, c :: rest => if c = chr '\n' then [c] else c :: fgets room rest

/-- `handle_get_atom_by_value` -/
def handleGetAtomByValue (store : KorvoStore) (atom : Int) : Response :=
  match openRead store.byValue (some []) (decimal atom) with
  | none => jsonFail 404 "atom value not found"
  | some contents =>
    let line := (fgets 511 contents).takeWhile (· ≠ 0)
    if fgets 511 contents = [] then jsonFail 500 "corrupt atom value file"
    else
      let str := if line.getLast? = some (chr '\n') then line.dropLast else line
      jsonOk (bytesOf "string") (quoted str)

/-! ## Requests -/

/-- What the web server passes on, and what a path in the name of a format leads to. -/
structure CgiRequest where
  method : List UInt8
  pathInfo : List UInt8
  body : List UInt8
  elsewhere : Option (List UInt8)

/-- `read_post_body`, up to the first zero. -/
def readPostBody (body : List UInt8) : Option (List UInt8) :=
  if body = [] ∨ 10 * 1024 * 1024 < body.length then none else some (body.takeWhile (· ≠ 0))

/-- What is behind a path. -/
def behindPath (path : String) (pathInfo : List UInt8) : Option (List UInt8) :=
  if (bytesOf path).isPrefixOf pathInfo then some (pathInfo.drop (bytesOf path).length) else none

/-- `main`, without the health check. -/
def korvoServer (hash : List UInt8 → UInt32 × UInt32) (store : KorvoStore) (r : CgiRequest) :
    Option (KorvoStore × Response) :=
  let body := readPostBody r.body
  let isGet := r.method = bytesOf "GET"
  let isPost := r.method = bytesOf "POST"
  if r.pathInfo = bytesOf "/v1/formats" ∧ isPost then
    match body with
    | none => some (store, jsonFail 400 "missing request body")
    | some body => handlePostFormat hash store body
  else
    match if isGet then behindPath "/v1/formats/" r.pathInfo else none with
    | some [] => some (store, jsonFail 400 "missing format id")
    | some hexID => some (store, handleGetFormat store r.elsewhere hexID)
    | none =>
      if r.pathInfo = bytesOf "/v1/atoms" ∧ isPost then
        match body with
        | none => some (store, jsonFail 400 "missing request body")
        | some body => some (handlePostAtom store body)
      else
        match if isGet then behindPath "/v1/atoms/by-string/" r.pathInfo else none with
        | some str =>
          some (store, handleGetAtomByString store ((urlSafeDecode 511 str).takeWhile (· ≠ 0)))
        | none =>
          match if isGet then behindPath "/v1/atoms/by-value/" r.pathInfo else none with
          | some text => some (store, handleGetAtomByValue store (atoi text))
          | none => some (store, jsonFail 404 "unknown endpoint")

end FFS
