import FFS.Machine.CString
import FFS.Cod.Types

/-!
# Specifiers

The keywords of a type in front of its declarators, and the type that they make.
-/

namespace FFS
namespace Cod

open Machine

/-- The token of a `cod_type_specifier`. -/
inductive Token where
  | int | long | short | double | string | void | float | char | signed | unsigned
  | typedef | static | externToken | const | star | atSign
deriving DecidableEq

namespace Token

def pointer (t : Token) : Bool := t == star || t == atSign

/-- The specifiers that are not counted. -/
def uncounted (t : Token) : Bool := t == typedef || t == static || t == externToken || t == const

end Token

/-- `spec_count` -/
def specCount (tokens : List Token) : Nat := tokens.countP (!·.uncounted)

/-- The rules of `reduce_type_list` and of `type_list_to_string`, which differ in what they make of
the keywords of an `int`: the type of the keywords in front, with more behind them or not.  `none`
where they return with an error. -/
def keywordType (last : CgType) (tokens : List Token) (more : Bool) : Option CgType :=
  if specCount tokens = 0 then some (if more then .err else .i)
  else if 0 < tokens.count .void ∧ 1 < specCount tokens then none
  else if 0 < tokens.count .string ∧ 1 < specCount tokens then none
  else if 0 < tokens.count .void then some .v
  else if 0 < tokens.count .string then some .p
  else if 0 < tokens.count .short ∧ 0 < tokens.count .long then none
  else if 0 < tokens.count .short ∧ 0 < tokens.count .double + tokens.count .float then none
  else if 0 < tokens.count .double + tokens.count .float then
    if 1 < tokens.count .double + tokens.count .float + tokens.count .short +
        tokens.count .signed + tokens.count .unsigned + tokens.count .char + tokens.count .int then
      none
    else some (if 0 < tokens.count .double then .d else .f)
  else
    let longLong := if tokens.count .long = 2 then 1 else 0
    let long := if tokens.count .long = 2 then 0 else tokens.count .long
    if 2 ≤ tokens.count .short + tokens.count .char + long + longLong then none
    else if 1 < tokens.count .unsigned + tokens.count .signed then none
    else if 0 < tokens.count .unsigned then
      some (if 0 < tokens.count .char then .uc else if 0 < tokens.count .short then .us
        else if 0 < long ∨ 0 < longLong then .ul else .u)
    else
      some (if 0 < tokens.count .char then .c else if 0 < tokens.count .short then .s
        else if 0 < long ∨ 0 < longLong then .l else last)

/-- The first part of `reduce_type_list`. -/
def specifiedType (tokens : List Token) (more : Bool) : Option CgType :=
  keywordType (if 0 < tokens.count .int then .i else .err) tokens more

end Cod
end FFS
