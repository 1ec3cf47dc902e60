import FFS.Encode.Encode
import FFS.Machine.Runs

/-!
# Vectors in a buffer

The vector that `FFSencode_vector` returns points into its buffer and into the memory of the
application.  `copy_vector_to_FFSBuffer` brings the vector into the buffer and
`copy_all_to_FFSBuffer` what it points to, while the buffer grows and moves.  Here the buffer
has an address, and the vector is a table in memory that ends with a null address.
-/

namespace FFS

open Machine

/-- A process with an `FFSBuffer` that grows.  The buffer has no block while its size is 0. -/
structure Process where
  mem : Mem
  tmpBuffer : Nat
  tmpBufferSize : Nat
  tmpBufferInUseSize : Nat

/-- Where `realloc` places a block, and what it leaves in memory that is new or no longer
used. -/
structure Allocator where
  place : Process → Nat → Nat
  fill : Process → Nat → Mem

def tmpBufferInitSize : Nat := 1024

def sizeofFFSEncodeVec : Nat := 16

namespace Process

/-- `realloc` of the buffer. -/
def realloc (a : Allocator) (p : Process) (size : Nat) : Process :=
  let block := a.place p size
  { p with
    tmpBuffer := block, tmpBufferSize := size,
    mem := fun x =>
      if block ≤ x ∧ x < block + min p.tmpBufferSize size then p.mem (p.tmpBuffer + (x - block))
      else if (block ≤ x ∧ x < block + size) ∨
          (p.tmpBuffer ≤ x ∧ x < p.tmpBuffer + p.tmpBufferSize) then a.fill p size x
      else p.mem x }

/-- `add_to_tmp_buffer`.  The first block is allocated in two steps, of which the first one
leaves the size at 0. -/
def addToTmpBuffer (a : Allocator) (p : Process) (size : Nat) : Process × Nat :=
  let needed := size + p.tmpBufferInUseSize
  let p' :=
    if p.tmpBufferSize < needed then p.realloc a needed
    else if p.tmpBufferSize = 0 then { p with tmpBuffer := a.place p tmpBufferInitSize }
    else p
  ({ p' with tmpBufferInUseSize := needed }, p.tmpBufferInUseSize)

/-- Whether an address lies in the buffer. -/
def inBuffer (p : Process) (addr : Nat) : Bool :=
  p.tmpBuffer ≤ addr && addr < p.tmpBuffer + p.tmpBufferSize

/-- `vec[i].iov_base` -/
def iovBase (p : Process) (vec i : Nat) : Nat :=
  leValue (p.mem.read (vec + sizeofFFSEncodeVec * i) 8)

/-- `vec[i].iov_len` -/
def iovLen (p : Process) (vec i : Nat) : Nat :=
  leValue (p.mem.read (vec + sizeofFFSEncodeVec * i + 8) 8)

/-- `vec[i].iov_base = value` -/
def setIovBase (p : Process) (vec i value : Nat) : Process :=
  { p with mem := p.mem.write (vec + sizeofFFSEncodeVec * i) (leBytes 8 value) }

/-- `memcpy` -/
def memcpy (p : Process) (dest src size : Nat) : Process :=
  { p with mem := p.mem.write dest (p.mem.read src size) }

end Process

/-- `copy_vector_to_FFSBuffer` -/
def copyVectorToFFSBuffer (a : Allocator) (fuel : Nat) (p : Process) (vec : Nat) :
    Option (Process × Nat) :=
  if p.inBuffer vec then some (p, vec)
  else do
    let (_, i) ← forWhile (fun _ i => p.iovBase vec i != 0) (fun _ _ => ()) fuel () 0
    let (p, vecOffset) := p.addToTmpBuffer a ((i + 2) * sizeofFFSEncodeVec)
    let remainder := vecOffset % sizeofFFSEncodeVec
    let vecOffset := if remainder ≠ 0 then vecOffset + (sizeofFFSEncodeVec - remainder)
      else vecOffset
    let p := p.memcpy (p.tmpBuffer + vecOffset) vec ((i + 1) * sizeofFFSEncodeVec)
    return (p, p.tmpBuffer + vecOffset)

/-- What `copy_all_to_FFSBuffer` keeps between its loops. -/
structure CopyAll where
  process : Process
  vecOffset : Nat
  alreadyIn : List Bool

namespace CopyAll

def vec (s : CopyAll) : Nat := s.process.tmpBuffer + s.vecOffset

/-- The condition of all its loops. -/
def more (s : CopyAll) (i : Nat) : Bool := s.process.iovBase s.vec i != 0

/-- An address in the buffer becomes its offset, plus one. -/
def remap (s : CopyAll) (i : Nat) : CopyAll :=
  let base := s.process.iovBase s.vec i
  let inside := s.process.inBuffer base
  { s with
    process := if inside then s.process.setIovBase s.vec i (base - s.process.tmpBuffer + 1)
      else s.process,
    alreadyIn := s.alreadyIn ++ [inside] }

/-- A segment outside the buffer is copied. -/
def copyExternal (a : Allocator) (s : CopyAll) (i : Nat) : CopyAll :=
  if s.alreadyIn[i]? = some false then
    let (p, offset) := s.process.addToTmpBuffer a (s.process.iovLen s.vec i)
    let v := p.tmpBuffer + s.vecOffset
    let p := p.memcpy (p.tmpBuffer + offset) (p.iovBase v i) (p.iovLen v i)
    { s with process := p.setIovBase v i (offset + 1) }
  else s

/-- An offset plus one becomes an address. -/
def unmap (s : CopyAll) (i : Nat) : CopyAll :=
  let base := s.process.iovBase s.vec i
  if 0 < signed 8 base ∧ base ≤ s.process.tmpBufferSize then
    { s with process := s.process.setIovBase s.vec i (base + s.process.tmpBuffer - 1) }
  else s

end CopyAll

/-- `copy_all_to_FFSBuffer`, which asserts that the vector lies in the buffer. -/
def copyAllToFFSBuffer (a : Allocator) (fuel : Nat) (p : Process) (vec : Nat) :
    Option (Process × Nat) :=
  if p.inBuffer vec then do
    let s : CopyAll := { process := p, vecOffset := vec - p.tmpBuffer, alreadyIn := [] }
    let (s, _) ← forWhile CopyAll.more CopyAll.remap fuel s 0
    let (s, _) ← forWhile CopyAll.more (CopyAll.copyExternal a) fuel s 0
    let (s, _) ← forWhile CopyAll.more CopyAll.unmap fuel s 0
    return (s.process, s.vec)
  else none

end FFS
