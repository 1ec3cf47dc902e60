import FFS.Machine.Bytes

/-!
# The hash of format IDs

`hashlittle2` reads its key in blocks of three 32-bit words and mixes them into a state of
three words.  The three ways in which it reads a key, by its alignment, give the same words.
-/

namespace FFS

open Machine

structure HashState where
  a : UInt32
  b : UInt32
  c : UInt32

def rot (x : UInt32) (k : UInt32) : UInt32 := (x <<< k) ||| (x >>> (32 - k))

/-- `mix` -/
def HashState.mix (s : HashState) : HashState :=
  let round (s : HashState) (k₁ k₂ k₃ : UInt32) : HashState :=
    let a := (s.a - s.c) ^^^ rot s.c k₁
    let c := s.c + s.b
    let b := (s.b - a) ^^^ rot a k₂
    let a := a + c
    let c := (c - b) ^^^ rot b k₃
    let b := b + a
    { a, b, c }
  round (round s 4 6 8) 16 19 4

/-- `final` -/
def HashState.final (s : HashState) : HashState :=
  let c := (s.c ^^^ s.b) - rot s.b 14
  let a := (s.a ^^^ c) - rot c 11
  let b := (s.b ^^^ a) - rot a 25
  let c := (c ^^^ b) - rot b 16
  let a := (a ^^^ c) - rot c 4
  let b := (b ^^^ a) - rot a 14
  let c := (c ^^^ b) - rot b 24
  { a, b, c }

/-- The words of a block, missing bytes counting as zero. -/
def HashState.add (s : HashState) (block : List UInt8) : HashState :=
  let word (k : Nat) := UInt32.ofNat (leValue ((block.drop k).take 4))
  { a := s.a + word 0, b := s.b + word 4, c := s.c + word 8 }

/-- The blocks of a key, of which there are no more than `rounds`. -/
def hashBlocks : Nat → HashState → List UInt8 → HashState
  | 0, s, _ => s
  | rounds + 1, s, key =>
    if key.length > 12 then hashBlocks rounds ((s.add key).mix) (key.drop 12)
    else if key.isEmpty then s
    else (s.add key).final

/-- `hashlittle2` with both initial values 0. -/
def hashlittle2 (key : List UInt8) : UInt32 × UInt32 :=
  let start := 0xdeadbeef + UInt32.ofNat key.length
  let s := hashBlocks (key.length + 1) { a := start, b := start, c := start } key
  (s.c, s.b)

end FFS
