import FFS.Machine.Bytes

/-!
# The file under an `FFSFile`

The bytes of an open file and the position of its descriptor, with the calls of
`unix_io.c` that the file layer makes.  The operating system is the complete one:
a `write` or a `writev` stores everything it is given, and a `read` delivers
everything up to the end of the file.  What the wrappers do with lengths that do
not fit in an `int` is theirs and is kept.
-/

namespace FFS

open Machine

structure Disk where
  bytes : List UInt8
  pos : Nat
deriving DecidableEq, Repr

inductive Whence where
  | set
  | cur
  | fromEnd
deriving DecidableEq, Repr

namespace Disk

/-- Store `bs` at the position and move past it.  A gap left by a seek beyond the
end of the file is filled with zeros. -/
def put (d : Disk) (bs : List UInt8) : Disk :=
  if bs = [] then d
  else
    { bytes := (d.bytes ++ List.replicate (d.pos - d.bytes.length) 0).take d.pos ++ bs
        ++ d.bytes.drop (d.pos + bs.length),
      pos := d.pos + bs.length }

/-- `unix_file_lseek_func`, which returns the new position as an `int`. -/
def lseek (d : Disk) (offset : Int) (whence : Whence) : Int × Disk :=
  let target := match whence with
    | .set => offset
    | .cur => d.pos + offset
    | .fromEnd => d.bytes.length + offset
  if target < 0 then (-1, d)
  else (signed 4 (unsigned 4 target), { d with pos := target.toNat })

/-- `unix_write_func` with a count that fits in an `int`, as both its callers have it:
the magic number and an index block. -/
def write (d : Disk) (bs : List UInt8) : Disk := d.put bs

/-- `unix_writev_func`.  The lengths are summed in an `int`, and nothing is written
when the sum is not positive. -/
def writev (d : Disk) (iov : List (List UInt8)) : Disk :=
  if 0 < signed 4 (unsigned 4 (iov.flatten.length : Nat)) then d.put iov.flatten else d

/-- `unix_read_func`: the bytes that arrive in the buffer, the count returned and the
file afterwards.  The first `read` delivers what there is; what is still missing
is at the end of the file, and the second `read` finds nothing. -/
def read (d : Disk) (length : Nat) : List UInt8 × Int × Disk :=
  let got := (d.bytes.drop d.pos).take length
  let iget := signed 4 (unsigned 4 (got.length : Nat))
  let left := signed 4 (unsigned 4 (signed 4 (unsigned 4 (length : Nat)) - iget))
  let d' := { d with pos := d.pos + got.length }
  if iget = 0 then (got, 0, d')
  else if iget = -1 then (got, -1, d')
  else if 0 < left then (got, length - left, d')
  else (got, length, d')

end Disk

end FFS
