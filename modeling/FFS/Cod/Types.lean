import FFS.Machine.CString

/-!
# Types of expressions

The types that the code generator knows, in the order of their numbers.
-/

namespace FFS
namespace Cod

/-- `DILL_C` to `DILL_ERR` -/
inductive CgType where
  | c | uc | s | us | i | u | l | ul | p | f | d | v | b | ec | err
deriving DecidableEq, Repr

namespace CgType

def number : CgType → Nat
  | c => 0
  | uc => 1
  | s => 2
  | us => 3
  | i => 4
  | u => 5
  | l => 6
  | ul => 7
  | p => 8
  | f => 9
  | d => 10
  | v => 11
  | b => 12
  | ec => 13
  | err => 14

end CgType

end Cod
end FFS
