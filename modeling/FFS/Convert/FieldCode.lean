import FFS.Convert.ScalarField
import FFS.Machine.Transfers

/-!
# Code that converts one scalar

`genSimpleFieldConv` is `gen_simple_field_conv` for fields that are not floats: the instructions it
hands to dill for a host whose `size_t` has 8 bytes and whose low bytes come first.  Registers,
loads with the bytes swapped and alignments are those of dill's target.  `none` is an exit of the
process, a failed assertion or an operand whose register was never set.
-/

namespace FFS

open Machine

/-- The types that alignments are asked for. -/
inductive DriscType where
  | c | s | i | l | d | f | p
  deriving DecidableEq

/-- What dill knows of its target.  `ffs_getreg` gives a register that is not in use, and fails
when there is none. -/
structure DillTarget (R : Type) where
  getreg : List R → IntType → Option R
  fresh : ∀ {inUse t r}, getreg inUse t = some r → r ∉ inUse
  registers : Nat
  supplies : ∀ {inUse t}, inUse.length < registers → (getreg inUse t).isSome
  hasLdbs : Bool
  typeAlign : DriscType → Nat

/-- A stream of instructions, and its registers in use. -/
structure DillStream (R : Type) where
  inUse : List R
  code : List (Transfer R)

/-- `iogen_oprnd`: a value in a register, or its address. -/
structure IogenOprnd (R : Type) where
  address : Bool
  dataType : FMDataType
  size : Int32
  offset : Nat
  aligned : Bool
  byteSwap : Bool
  vcReg : R

/-- `drisc_type` -/
def driscType (dataType : FMDataType) (size : Int32) : DriscType :=
  match dataType with
  | .integerType | .unsignedType =>
    if size = 1 then .c else if size = 2 then .s else if size = 4 then .i
    else if size = 8 then .l else .i
  | .floatType => if size = 8 then .d else if size = 4 then .f else .i
  | .charType => .c
  | .stringType => .p
  | .booleanType | .enumerationType | .unknownType => .i

section

variable {R : Type} [DecidableEq R] (dill : DillTarget R)

def DillStream.emit (c : DillStream R) (i : Transfer R) : DillStream R :=
  { c with code := c.code ++ [i] }

/-- `ffs_getreg` -/
def ffsGetreg (c : DillStream R) (t : IntType) : Option (R × DillStream R) :=
  (dill.getreg c.inUse t).map fun r => (r, { c with inUse := r :: c.inUse })

/-- `ffs_putreg` -/
def ffsPutreg (c : DillStream R) (r : R) : DillStream R := { c with inUse := c.inUse.erase r }

/-- `free_oprnd` -/
def freeOprnd (c : DillStream R) (oprnd : IogenOprnd R) : DillStream R := ffsPutreg c oprnd.vcReg

/-- The types of the registers, by size. -/
def signedRegister (size : Int32) : Option IntType :=
  if size = 1 then some .c else if size = 2 then some .s else if size = 4 then some .i
  else if size = 8 then some .l else none

def unsignedRegister (size : Int32) : Option IntType :=
  if size = 1 then some .uc else if size = 2 then some .us else if size = 4 then some .u
  else if size = 8 then some .ul else none

/-- The ladder that a type is fetched and stored by. -/
def registerType (dataType : FMDataType) (size : Int32) : Option IntType :=
  match dataType with
  | .integerType | .booleanType | .enumerationType => signedRegister size
  | .unsignedType | .charType => unsignedRegister size
  | .unknownType | .floatType | .stringType => none

/-! ## Fetching -/

/-- A swapped value of 8 bytes that need not be aligned is loaded in halves, the high one first. -/
def bswapFetchHalves (c : DillStream R) (srcReg : R) (offset : Nat) :
    Option (R × DillStream R) := do
  let (r, c) ← ffsGetreg dill c .l
  if offset % 4 = 0 then
    let (high, c) ← ffsGetreg dill c .l
    let c := c.emit (.ldbs .i high srcReg offset)
    let c := c.emit (.ldbs .u r srcReg (offset + 4))
    let c := c.emit (.arithi .lsh .l high high 32)
    let c := c.emit (.arith .or .l r high r)
    return (r, ffsPutreg c high)
  else none

/-- `gen_bswap_fetch` -/
def genBswapFetch (c : DillStream R) (srcReg : R) (offset : Nat) (size : Int32)
    (dataType : FMDataType) (aligned : Bool) : Option (IogenOprnd R × DillStream R) := do
  let t ← registerType dataType size
  let (r, c) ←
    if t = .l ∧ (aligned = false ∨ offset % 8 ≠ 0) then bswapFetchHalves dill c srcReg offset
    else do
      let (r, c) ← ffsGetreg dill c t
      some (r, c.emit (.ldbs t r srcReg offset))
  return (⟨false, dataType, size, 0, false, false, r⟩, c)

/-- `gen_byte_swap` on a value. -/
def genByteSwap (c : DillStream R) (oprnd : IogenOprnd R) : Option (DillStream R) :=
  if oprnd.size = 1 then some c
  else if oprnd.size = 2 then some (c.emit (.bswap .s oprnd.vcReg oprnd.vcReg))
  else if oprnd.size = 4 then some (c.emit (.bswap .i oprnd.vcReg oprnd.vcReg))
  else if oprnd.size = 8 then some (c.emit (.bswap .l oprnd.vcReg oprnd.vcReg))
  else none

/-- `gen_fetch` -/
def genFetch (c : DillStream R) (srcReg : R) (offset : Nat) (size : Int32)
    (dataType : FMDataType) (aligned byteSwap : Bool) : Option (IogenOprnd R × DillStream R) :=
  if dill.hasLdbs ∧ byteSwap then genBswapFetch dill c srcReg offset size dataType aligned
  else do
    let t ← registerType dataType size
    let (r, c) ← ffsGetreg dill c t
    let c := c.emit (.ld t r srcReg offset)
    let oprnd : IogenOprnd R := ⟨false, dataType, size, 0, false, false, r⟩
    let c ← if byteSwap then genByteSwap c oprnd else some c
    return (oprnd, c)

/-- `gen_load` -/
def genLoad (c : DillStream R) (src : IogenOprnd R) : Option (IogenOprnd R × DillStream R) :=
  genFetch dill c src.vcReg src.offset src.size src.dataType src.aligned src.byteSwap

/-! ## Conversions -/

/-- `gen_size_conversion` of an integer. -/
def genSizeConversionSigned (c : DillStream R) (src : IogenOprnd R) (size : Int32) :
    Option (IogenOprnd R × DillStream R) :=
  if size = 1 then do
    let (r, c) ← ffsGetreg dill c .c
    let c :=
      if src.size = 2 then (c.emit (.cv .s .l r src.vcReg)).emit (.cv .l .c r src.vcReg)
      else if src.size = 4 then c.emit (.cv .i .c r src.vcReg)
      else if src.size = 8 then c.emit (.cv .l .c r src.vcReg)
      else c
    return ({ src with size, vcReg := r }, c)
  else if size = 2 then do
    let (r, c) ← ffsGetreg dill c .s
    let c ←
      if src.size = 1 then do
        let (tmp, c) ← ffsGetreg dill c .l
        let c := (c.emit (.cv .c .l tmp src.vcReg)).emit (.cv .l .s r tmp)
        some (ffsPutreg c tmp)
      else if src.size = 4 then some (c.emit (.cv .i .s r src.vcReg))
      else if src.size = 8 then some (c.emit (.cv .l .s r src.vcReg))
      else some c
    return ({ src with size, vcReg := r }, c)
  else if size = 4 then do
    let (r, c) ← ffsGetreg dill c .i
    let c :=
      if src.size = 1 then c.emit (.cv .c .i r src.vcReg)
      else if src.size = 2 then c.emit (.cv .s .i r src.vcReg)
      else if src.size = 8 then c.emit (.cv .l .i r src.vcReg)
      else c
    return ({ src with size, vcReg := r }, c)
  else if size = 8 then do
    let (r, c) ← ffsGetreg dill c .l
    let c :=
      if src.size = 1 then c.emit (.cv .c .l r src.vcReg)
      else if src.size = 2 then c.emit (.cv .s .l r src.vcReg)
      else if src.size = 4 then c.emit (.cv .i .l r src.vcReg)
      else c
    return ({ src with size, vcReg := r }, c)
  else some ({ src with size }, c)

/-- `gen_size_conversion` of the other types: but for 8 bytes it reads the source by the signed
types. -/
def genSizeConversionUnsigned (c : DillStream R) (src : IogenOprnd R) (size : Int32) :
    Option (IogenOprnd R × DillStream R) :=
  if size = 1 then do
    let (r, c) ← ffsGetreg dill c .uc
    let c :=
      if src.size = 2 then (c.emit (.cv .s .l r src.vcReg)).emit (.cv .l .c r src.vcReg)
      else if src.size = 4 then (c.emit (.cv .i .l r src.vcReg)).emit (.cv .l .c r src.vcReg)
      else if src.size = 8 then c.emit (.cv .l .c r src.vcReg)
      else c
    return ({ src with size, vcReg := r }, c)
  else if size = 2 then do
    let (r, c) ← ffsGetreg dill c .us
    let c ←
      if src.size = 1 then do
        let (tmp, c) ← ffsGetreg dill c .l
        let c := (c.emit (.cv .c .l tmp src.vcReg)).emit (.cv .l .s r tmp)
        some (ffsPutreg c tmp)
      else if src.size = 4 then some (c.emit (.cv .i .s r src.vcReg))
      else if src.size = 8 then some (c.emit (.cv .l .s r src.vcReg))
      else some c
    return ({ src with size, vcReg := r }, c)
  else if size = 4 then do
    let (r, c) ← ffsGetreg dill c .u
    let c :=
      if src.size = 1 then c.emit (.cv .c .u r src.vcReg)
      else if src.size = 2 then c.emit (.cv .s .u r src.vcReg)
      else if src.size = 8 then c.emit (.cv .l .u r src.vcReg)
      else c
    return ({ src with size, vcReg := r }, c)
  else if size = 8 then do
    let (r, c) ← ffsGetreg dill c .ul
    let c :=
      if src.size = 1 then c.emit (.cv .uc .ul r src.vcReg)
      else if src.size = 2 then c.emit (.cv .us .ul r src.vcReg)
      else if src.size = 4 then c.emit (.cv .u .ul r src.vcReg)
      else c
    return ({ src with size, vcReg := r }, c)
  else some ({ src with size }, c)

/-- `gen_size_conversion` -/
def genSizeConversion (c : DillStream R) (src : IogenOprnd R) (size : Int32) :
    Option (IogenOprnd R × DillStream R) :=
  match src.dataType with
  | .integerType => genSizeConversionSigned dill c src size
  | .booleanType | .enumerationType | .unsignedType | .charType =>
    genSizeConversionUnsigned dill c src size
  | .unknownType | .floatType | .stringType => none

/-- `gen_type_conversion` between an integer and the unsigned types. -/
def genTypeConversion (c : DillStream R) (src : IogenOprnd R) (dataType : FMDataType) :
    Option (IogenOprnd R × DillStream R) :=
  match dataType, src.dataType with
  | .integerType, .booleanType | .integerType, .enumerationType | .integerType, .unsignedType
  | .integerType, .charType => do
    let (r, c) ← ffsGetreg dill c .l
    let c :=
      if src.size = 1 then c.emit (.cv .c .l r src.vcReg)
      else if src.size = 2 then c.emit (.cv .us .l r src.vcReg)
      else if src.size = 4 then c.emit (.cv .u .l r src.vcReg)
      else if src.size = 8 then c.emit (.cv .ul .l r src.vcReg)
      else c
    return ({ src with dataType, size := 8, vcReg := r }, c)
  | .booleanType, .charType | .booleanType, .integerType | .enumerationType, .charType
  | .enumerationType, .integerType | .unsignedType, .charType | .unsignedType, .integerType => do
    let (r, c) ← ffsGetreg dill c .ul
    let c :=
      if src.size = 1 then c.emit (.cv .c .ul r src.vcReg)
      else if src.size = 2 then c.emit (.cv .s .ul r src.vcReg)
      else if src.size = 4 then c.emit (.cv .i .ul r src.vcReg)
      else if src.size = 8 then (c.emit (.cv .l .ul r src.vcReg)).emit (.cv .ul .l r src.vcReg)
      else c
    return ({ src with dataType, size := 8, vcReg := r }, c)
  | _, _ => none

/-! ## The field -/

/-- `gen_store` -/
def genStore (c : DillStream R) (src : IogenOprnd R) (destReg : R) (offset : Nat) (size : Int32)
    (dataType : FMDataType) : Option (DillStream R) :=
  if src.size = size then
    (registerType dataType size).map fun t => c.emit (.st t src.vcReg destReg offset)
  else none

/-- `gen_simple_field_conv` of a field that is not a float, to another that is not one. -/
def genSimpleFieldConv (c : DillStream R) (field : FMgetField) (assumeAlign : Nat) (srcAddr : R)
    (srcOffset : Nat) (destSize : Int32) (destType : FMDataType) (destAddr : R)
    (destOffset : Nat) : Option (DillStream R) := do
  let srcAlign := dill.typeAlign (driscType field.dataType field.size)
  let aligned := !(decide (assumeAlign < srcAlign) || decide (srcOffset % srcAlign ≠ 0))
  let oprnd : IogenOprnd R :=
    ⟨true, field.dataType, field.size, srcOffset, aligned, field.byteSwap, srcAddr⟩
  let (oprnd, c) ← genLoad dill c oprnd
  let (oprnd, c) ←
    if oprnd.dataType ≠ destType then do
      let (converted, c) ← genTypeConversion dill c oprnd destType
      some (converted, freeOprnd c oprnd)
    else some (oprnd, c)
  let (oprnd, c) ←
    if oprnd.size ≠ destSize then do
      let (converted, c) ← genSizeConversion dill c oprnd destSize
      some (converted, freeOprnd c oprnd)
    else some (oprnd, c)
  let c ← genStore c oprnd destAddr destOffset destSize destType
  return freeOprnd c oprnd

/-! ## What the parts leave in a register -/

/-- From `c` the generator comes to `c'`, with one more register, in which its code leaves a
value. -/
structure Gives (c c' : DillStream R) (r : R) (n : Nat) (f : RegMem R → Nat) : Prop where
  fresh : r ∉ c.inUse
  inUse : c'.inUse = r :: c.inUse
  code : ∃ new, c'.code = c.code ++ new ∧ Leaves new c.inUse r n f

variable {dill} {c c' c'' : DillStream R} {r r' : R} {n n' : Nat} {f f' g : RegMem R → Nat}

omit [DecidableEq R] in
theorem exists_getreg (hroom : c.inUse.length < dill.registers) (t : IntType) :
    ∃ r, r ∉ c.inUse ∧ ffsGetreg dill c t = some (r, { c with inUse := r :: c.inUse }) := by
  obtain ⟨r, hr⟩ := Option.isSome_iff_exists.mp (dill.supplies (t := t) hroom)
  refine ⟨r, dill.fresh hr, ?_⟩
  rw [ffsGetreg, hr]
  rfl

theorem Gives.congr (h : Gives c c' r n f) (heq : ∀ s, f s = g s) : Gives c c' r n g := by
  obtain ⟨new, hcode, hleaves⟩ := h.code
  exact ⟨h.fresh, h.inUse, new, hcode, hleaves.congr heq⟩

/-- More code for the same register. -/
theorem Gives.more (h : Gives c c' r n f) {new : List (Transfer R)}
    (hleaves : Leaves new c.inUse r n' f')
    (hvalue : ∀ s s' : RegMem R, s'.mem = s.mem → (∀ x ∈ c.inUse, s'.regs x = s.regs x) →
      unsigned n (s'.regs r) = f s → f' s' = g s) :
    Gives c { c' with code := c'.code ++ new } r n' g := by
  obtain ⟨front, hcode, hfront⟩ := h.code
  refine ⟨h.fresh, h.inUse, front ++ new, ?_, hfront.andThen hleaves (fun _ hx => hx) hvalue⟩
  rw [hcode, List.append_assoc]

/-- The value of one register is made into that of another, and the first is free again. -/
theorem Gives.converted {conv : Nat → Nat} (h : Gives c c' r n f)
    (h' : Gives c' c'' r' n' fun s => conv (unsigned n (s.regs r))) :
    Gives c (ffsPutreg c'' r) r' n' fun s => conv (f s) := by
  obtain ⟨front, hcode, hfront⟩ := h.code
  obtain ⟨back, hcode', hback⟩ := h'.code
  have hfresh := h'.fresh
  rw [h.inUse, List.mem_cons, not_or] at hfresh
  rw [h.inUse] at hback
  refine ⟨hfresh.2, ?_, front ++ back, ?_, ?_⟩
  · rw [ffsPutreg, h'.inUse, h.inUse, List.erase_cons_tail (by simpa using hfresh.1),
      List.erase_cons_head]
  · rw [ffsPutreg, hcode', hcode, List.append_assoc]
  · refine hfront.andThen hback (fun x hx => List.mem_cons_of_mem _ hx) fun s s' _ _ hleft => ?_
    rw [hleft]

/-- A value that is stored where a register in use points. -/
theorem Gives.stored {t : IntType} (h : Gives c c' r t.bytes f) {base : R} (hbase : base ∈ c.inUse)
    (offset : Nat) : ∃ new, c'.code ++ [.st t r base offset] = c.code ++ new ∧
      ∀ s, ∃ s', runTransfers new s = some s' ∧
        s'.mem = s.mem.write (s.address base offset) (leBytes t.bytes (f s)) := by
  obtain ⟨new, hcode, hleaves⟩ := h.code
  refine ⟨new ++ [.st t r base offset], ?_, fun s => hleaves.stored hbase offset s⟩
  rw [hcode, List.append_assoc]

/-! ### Fetching -/

/-- The sizes of the registers. -/
def WordSize (size : Int32) : Prop := size = 1 ∨ size = 2 ∨ size = 4 ∨ size = 8

/-- The types of integers, enumerations and characters. -/
def WordType (dataType : FMDataType) : Prop :=
  dataType = .integerType ∨ dataType = .unsignedType ∨ dataType = .enumerationType ∨
    dataType = .booleanType ∨ dataType = .charType

theorem exists_registerType {dataType : FMDataType} (htype : WordType dataType) {size : Int32}
    (hsize : WordSize size) : ∃ t, registerType dataType size = some t ∧
      t.bytes = size.toNatClampNeg := by
  obtain rfl | rfl | rfl | rfl := hsize <;>
    obtain rfl | rfl | rfl | rfl | rfl := htype <;> exact ⟨_, rfl, by decide⟩

omit [DecidableEq R] in
theorem emit_emit (c : DillStream R) (i j : Transfer R) :
    (c.emit i).emit j = { c with code := c.code ++ [i, j] } := by
  rw [DillStream.emit, DillStream.emit, List.append_assoc]
  rfl

/-- One instruction for a new register. -/
theorem gives_one {i : Transfer R} (hfresh : r ∉ c.inUse) (hleaves : Leaves [i] c.inUse r n f) :
    Gives c (DillStream.emit { c with inUse := r :: c.inUse } i) r n f :=
  ⟨hfresh, rfl, [i], rfl, hleaves⟩

theorem bswapFetchHalves_spec (hroom : c.inUse.length + 2 ≤ dill.registers) {srcReg : R}
    (hbase : srcReg ∈ c.inUse) {offset : Nat} (halign : offset % 4 = 0) :
    ∃ r c', bswapFetchHalves dill c srcReg offset = some (r, c') ∧
      Gives c c' r 8 fun s => beValue (s.mem.read (s.address srcReg offset) 8) := by
  obtain ⟨r, hr, hget⟩ := exists_getreg (by omega : c.inUse.length < dill.registers) .l
  have hroom' : (r :: c.inUse).length < dill.registers := by
    rw [List.length_cons]
    omega
  obtain ⟨high, hhigh, hget'⟩ := exists_getreg (c := { c with inUse := r :: c.inUse }) hroom' .l
  rw [List.mem_cons, not_or] at hhigh
  refine ⟨r, { inUse := (high :: r :: c.inUse).erase high, code := c.code ++ _ }, ?_,
    ⟨hr, List.erase_cons_head .., _, rfl, leaves_halves hr hhigh.2 (Ne.symm hhigh.1) hbase offset⟩⟩
  rw [bswapFetchHalves, hget, Option.bind_eq_bind, Option.bind_some]
  dsimp only
  rw [if_pos halign, hget', Option.bind_some]
  simp only [DillStream.emit, List.append_assoc]
  rfl

theorem genBswapFetch_spec (hroom : c.inUse.length + 2 ≤ dill.registers) {srcReg : R}
    (hbase : srcReg ∈ c.inUse) {dataType : FMDataType} (htype : WordType dataType)
    {size : Int32} (hsize : WordSize size) {offset : Nat}
    (halign : offset % size.toNatClampNeg = 0) (aligned : Bool) :
    ∃ r c', genBswapFetch dill c srcReg offset size dataType aligned =
        some (⟨false, dataType, size, 0, false, false, r⟩, c') ∧
      Gives c c' r size.toNatClampNeg
        fun s => beValue (s.mem.read (s.address srcReg offset) size.toNatClampNeg) := by
  obtain ⟨t, ht, hbytes⟩ := exists_registerType htype hsize
  rw [genBswapFetch, ht, Option.bind_eq_bind, Option.bind_some]
  by_cases hhalves : t = .l ∧ (aligned = false ∨ offset % 8 ≠ 0)
  · have height : size.toNatClampNeg = 8 := by
      rw [← hbytes, hhalves.1]
      rfl
    rw [height] at halign
    obtain ⟨r, c', hfetch, hgives⟩ := bswapFetchHalves_spec hroom hbase (by omega : offset % 4 = 0)
    refine ⟨r, c', ?_, height ▸ hgives⟩
    rw [if_pos hhalves, hfetch]
    rfl
  · obtain ⟨r, hr, hget⟩ := exists_getreg (by omega : c.inUse.length < dill.registers) t
    refine ⟨r, _, ?_, gives_one hr (hbytes ▸ leaves_ldbs hr t srcReg offset)⟩
    rw [if_neg hhalves, hget]
    rfl

/-- A value of one byte has no order. -/
theorem getValue_single (swap : Bool) {bytes : List UInt8} (h : bytes.length = 1) :
    getValue swap bytes = leValue bytes := by
  obtain ⟨b, rfl⟩ := List.length_eq_one_iff.mp h
  cases swap <;> rfl

/-- The swap of a value that was loaded. -/
theorem genByteSwap_spec {m : RegMem R → List UInt8} (oprnd : IogenOprnd R)
    (hsize : WordSize oprnd.size)
    (h : Gives c c' oprnd.vcReg oprnd.size.toNatClampNeg fun s => leValue (m s))
    (hlength : ∀ s, (m s).length = oprnd.size.toNatClampNeg) :
    ∃ c'', genByteSwap c' oprnd = some c'' ∧
      Gives c c'' oprnd.vcReg oprnd.size.toNatClampNeg fun s => beValue (m s) := by
  have hswap : ∀ t : IntType, t.bytes = oprnd.size.toNatClampNeg →
      Gives c (c'.emit (.bswap t oprnd.vcReg oprnd.vcReg)) oprnd.vcReg
        oprnd.size.toNatClampNeg fun s => beValue (m s) := by
    intro t ht
    rw [← ht] at h hlength ⊢
    refine h.more (leaves_bswap h.fresh t oprnd.vcReg) fun s s' _ _ hleft => ?_
    have hbytes := leBytes_leValue (m s)
    rw [hlength s] at hbytes
    rw [hleft, hbytes]
  obtain heq | heq | heq | heq := hsize
  · refine ⟨c', by rw [genByteSwap, if_pos heq], h.congr fun s => ?_⟩
    have hone : (m s).length = 1 := by
      rw [hlength s, heq]
      rfl
    exact (getValue_single true hone).symm
  · refine ⟨_, ?_, hswap .s (by rw [heq]; rfl)⟩
    rw [genByteSwap, heq]
    rfl
  · refine ⟨_, ?_, hswap .i (by rw [heq]; rfl)⟩
    rw [genByteSwap, heq]
    rfl
  · refine ⟨_, ?_, hswap .l (by rw [heq]; rfl)⟩
    rw [genByteSwap, heq]
    rfl

theorem genFetch_spec (hroom : c.inUse.length + 2 ≤ dill.registers) {srcReg : R}
    (hbase : srcReg ∈ c.inUse) {dataType : FMDataType} (htype : WordType dataType)
    {size : Int32} (hsize : WordSize size) {offset : Nat}
    (halign : offset % size.toNatClampNeg = 0) (aligned byteSwap : Bool) :
    ∃ r c', genFetch dill c srcReg offset size dataType aligned byteSwap =
        some (⟨false, dataType, size, 0, false, false, r⟩, c') ∧
      Gives c c' r size.toNatClampNeg fun s =>
        getValue byteSwap (s.mem.read (s.address srcReg offset) size.toNatClampNeg) := by
  by_cases hldbs : dill.hasLdbs = true ∧ byteSwap = true
  · obtain ⟨r, c', hfetch, hgives⟩ :=
      genBswapFetch_spec hroom hbase htype hsize halign aligned
    refine ⟨r, c', ?_, hldbs.2 ▸ hgives⟩
    rw [genFetch, if_pos hldbs, hfetch]
  · obtain ⟨t, ht, hbytes⟩ := exists_registerType htype hsize
    obtain ⟨r, hr, hget⟩ := exists_getreg (by omega : c.inUse.length < dill.registers) t
    have hload := gives_one hr (hbytes ▸ leaves_ld hr t srcReg offset)
    cases byteSwap with
    | false =>
      refine ⟨r, _, ?_, hload⟩
      rw [genFetch, if_neg hldbs, ht, Option.bind_eq_bind, Option.bind_some, hget]
      rfl
    | true =>
      obtain ⟨c', hswap, hgives⟩ := genByteSwap_spec
        ⟨false, dataType, size, 0, false, false, r⟩ hsize hload
        fun s => Mem.length_read ..
      refine ⟨r, c', ?_, hgives⟩
      rw [genFetch, if_neg hldbs, ht, Option.bind_eq_bind, Option.bind_some, hget]
      exact congrArg (Option.bind · fun c => some ((_ : IogenOprnd R), c)) hswap

/-! ### Conversions -/

/-- The sign of a value is extended. -/
def extended (n n' v : Nat) : Nat := unsigned n' (signed n v)

theorem extended_narrow (h : n' ≤ n) (x : Int) : extended n n' (unsigned n x) = unsigned n' x := by
  rw [extended, unsigned_signed h, unsigned_mod h]

theorem gives_cv {src : R} (hr : r ∉ c.inUse) {a b : IntType} (ha : a.signed = true)
    (hb : n' ≤ b.bytes) :
    Gives c (DillStream.emit { c with inUse := r :: c.inUse } (.cv a b r src)) r n' fun s =>
      extended a.bytes n' (unsigned a.bytes (s.regs src)) := by
  refine gives_one hr ((leaves_cv hr a hb src).congr fun s => ?_)
  rw [IntType.wrap_eq, if_pos ha, extended]

theorem gives_cv_unsigned {src : R} (hr : r ∉ c.inUse) {a b : IntType} (ha : a.signed = false)
    (hb : n' ≤ b.bytes) :
    Gives c (DillStream.emit { c with inUse := r :: c.inUse } (.cv a b r src)) r n' fun s =>
      unsigned a.bytes (s.regs src) % 256 ^ n' := by
  refine gives_one hr ((leaves_cv hr a hb src).congr fun s => ?_)
  rw [IntType.wrap_eq, if_neg (by rw [ha]; exact Bool.false_ne_true), unsigned_natCast]

/-- The second of two conversions reads the source itself, whose low bytes are the value. -/
theorem gives_cv_cv {src : R} (hr : r ∉ c.inUse) (hsrc : src ∈ c.inUse) (a b a' b' : IntType)
    (ha : n' ≤ a'.bytes) (hb : n' ≤ b'.bytes) (hn : n' ≤ n) :
    Gives c ((DillStream.emit { c with inUse := r :: c.inUse } (.cv a b r src)).emit
      (.cv a' b' r src)) r n' fun s => extended n n' (unsigned n (s.regs src)) := by
  refine (gives_one hr (leaves_cv hr a (Nat.zero_le b.bytes) src)).more
    (leaves_cv hr a' hb src) fun s s' _ hregs _ => ?_
  rw [IntType.unsigned_wrap ha, hregs src hsrc, extended_narrow hn]

/-- A conversion by way of another register. -/
theorem gives_through {src tmp : R} (hr : r ∉ c.inUse) (htmp : tmp ∉ r :: c.inUse)
    {a b : IntType} (ha : a.signed = true) (hb : n' ≤ b.bytes) (hn : n' ≤ 8) :
    Gives c (ffsPutreg (((DillStream.mk (tmp :: r :: c.inUse) c.code).emit
      (.cv a .l tmp src)).emit (.cv .l b r tmp)) tmp) r n' fun s =>
        extended a.bytes n' (unsigned a.bytes (s.regs src)) := by
  rw [List.mem_cons, not_or] at htmp
  refine ⟨hr, List.erase_cons_head .., [.cv a .l tmp src, .cv .l b r tmp], ?_, ?_⟩
  · rw [emit_emit]
    rfl
  · refine (leaves_cv htmp.2 a (show n' ≤ IntType.l.bytes from hn) src).andThen
      (leaves_cv hr .l hb tmp) (fun _ hx => hx) fun s s' _ _ hleft => ?_
    rw [IntType.unsigned_wrap (show n' ≤ IntType.l.bytes from hn), hleft, IntType.wrap_eq,
      if_pos ha, extended]

/-- What a size conversion does with the source: the result is what `v` makes of its bytes. -/
def Resizes (c : DillStream R) (src : IogenOprnd R) (size : Int32)
    (result : Option (IogenOprnd R × DillStream R)) (v : Nat → Nat → Nat → Nat) : Prop :=
  ∃ r c', result = some ({ src with size, vcReg := r }, c') ∧
    Gives c c' r size.toNatClampNeg fun s =>
      v src.size.toNatClampNeg size.toNatClampNeg
        (unsigned src.size.toNatClampNeg (s.regs src.vcReg))

theorem resizes_of_gives {src : IogenOprnd R} {size size' : Int32} {v : Nat → Nat → Nat → Nat}
    {result : Option (IogenOprnd R × DillStream R)} (hsize : src.size = size')
    (hresult : result = some ({ src with size, vcReg := r }, c'))
    (h : Gives c c' r size.toNatClampNeg fun s => v size'.toNatClampNeg size.toNatClampNeg
      (unsigned size'.toNatClampNeg (s.regs src.vcReg))) : Resizes c src size result v := by
  subst hsize
  exact ⟨r, c', hresult, h⟩

theorem genSizeConversionSigned_spec (hroom : c.inUse.length + 2 ≤ dill.registers)
    {src : IogenOprnd R} (hsrc : src.vcReg ∈ c.inUse) (hsize : WordSize src.size) {size : Int32}
    (hdest : WordSize size) (hne : src.size ≠ size) :
    Resizes c src size (genSizeConversionSigned dill c src size) extended := by
  have hget := fun t => exists_getreg (by omega : c.inUse.length < dill.registers) t
  obtain rfl | rfl | rfl | rfl := hdest
  · obtain ⟨r, hr, hget⟩ := hget .c
    obtain heq | heq | heq | heq := hsize
    · exact absurd heq hne
    · refine resizes_of_gives heq ?_ (gives_cv_cv hr hsrc .s .l .l .c
        (show 1 ≤ IntType.l.bytes by decide) (by decide) (show 1 ≤ 2 by decide))
      rw [genSizeConversionSigned, heq, hget]
      rfl
    · refine resizes_of_gives heq ?_ (gives_cv hr (a := .i) (b := .c) rfl (by decide))
      rw [genSizeConversionSigned, heq, hget]
      rfl
    · refine resizes_of_gives heq ?_ (gives_cv hr (a := .l) (b := .c) rfl (by decide))
      rw [genSizeConversionSigned, heq, hget]
      rfl
  · obtain ⟨r, hr, hget⟩ := hget .s
    obtain heq | heq | heq | heq := hsize
    · obtain ⟨tmp, htmp, hget'⟩ := exists_getreg
        (c := { c with inUse := r :: c.inUse })
        (show (r :: c.inUse).length < dill.registers by rw [List.length_cons]; omega) .l
      refine resizes_of_gives heq ?_ (gives_through hr htmp (a := .c) (b := .s) rfl (by decide)
        (by decide))
      rw [genSizeConversionSigned, heq, hget, if_neg (by decide), if_pos rfl,
        Option.bind_eq_bind, Option.bind_some]
      dsimp only
      rw [if_pos rfl, hget']
      rfl
    · exact absurd heq hne
    · refine resizes_of_gives heq ?_ (gives_cv hr (a := .i) (b := .s) rfl (by decide))
      rw [genSizeConversionSigned, heq, hget]
      rfl
    · refine resizes_of_gives heq ?_ (gives_cv hr (a := .l) (b := .s) rfl (by decide))
      rw [genSizeConversionSigned, heq, hget]
      rfl
  · obtain ⟨r, hr, hget⟩ := hget .i
    obtain heq | heq | heq | heq := hsize
    · refine resizes_of_gives heq ?_ (gives_cv hr (a := .c) (b := .i) rfl (by decide))
      rw [genSizeConversionSigned, heq, hget]
      rfl
    · refine resizes_of_gives heq ?_ (gives_cv hr (a := .s) (b := .i) rfl (by decide))
      rw [genSizeConversionSigned, heq, hget]
      rfl
    · exact absurd heq hne
    · refine resizes_of_gives heq ?_ (gives_cv hr (a := .l) (b := .i) rfl (by decide))
      rw [genSizeConversionSigned, heq, hget]
      rfl
  · obtain ⟨r, hr, hget⟩ := hget .l
    obtain heq | heq | heq | heq := hsize
    · refine resizes_of_gives heq ?_ (gives_cv hr (a := .c) (b := .l) rfl (by decide))
      rw [genSizeConversionSigned, heq, hget]
      rfl
    · refine resizes_of_gives heq ?_ (gives_cv hr (a := .s) (b := .l) rfl (by decide))
      rw [genSizeConversionSigned, heq, hget]
      rfl
    · refine resizes_of_gives heq ?_ (gives_cv hr (a := .i) (b := .l) rfl (by decide))
      rw [genSizeConversionSigned, heq, hget]
      rfl
    · exact absurd heq hne

/-- The other ladder extends the sign too, but for 8 bytes. -/
theorem genSizeConversionUnsigned_spec (hroom : c.inUse.length + 2 ≤ dill.registers)
    {src : IogenOprnd R} (hsrc : src.vcReg ∈ c.inUse) (hsize : WordSize src.size) {size : Int32}
    (hdest : WordSize size) (hne : src.size ≠ size) (hsmall : size ≠ 8) :
    Resizes c src size (genSizeConversionUnsigned dill c src size) extended := by
  have hget := fun t => exists_getreg (by omega : c.inUse.length < dill.registers) t
  obtain rfl | rfl | rfl | rfl := hdest
  · obtain ⟨r, hr, hget⟩ := hget .uc
    obtain heq | heq | heq | heq := hsize
    · exact absurd heq hne
    · refine resizes_of_gives heq ?_ (gives_cv_cv hr hsrc .s .l .l .c
        (show 1 ≤ IntType.l.bytes by decide) (by decide) (show 1 ≤ 2 by decide))
      rw [genSizeConversionUnsigned, heq, hget]
      rfl
    · refine resizes_of_gives heq ?_ (gives_cv_cv hr hsrc .i .l .l .c
        (show 1 ≤ IntType.l.bytes by decide) (by decide) (show 1 ≤ 4 by decide))
      rw [genSizeConversionUnsigned, heq, hget]
      rfl
    · refine resizes_of_gives heq ?_ (gives_cv hr (a := .l) (b := .c) rfl (by decide))
      rw [genSizeConversionUnsigned, heq, hget]
      rfl
  · obtain ⟨r, hr, hget⟩ := hget .us
    obtain heq | heq | heq | heq := hsize
    · obtain ⟨tmp, htmp, hget'⟩ := exists_getreg
        (c := { c with inUse := r :: c.inUse })
        (show (r :: c.inUse).length < dill.registers by rw [List.length_cons]; omega) .l
      refine resizes_of_gives heq ?_ (gives_through hr htmp (a := .c) (b := .s) rfl (by decide)
        (by decide))
      rw [genSizeConversionUnsigned, heq, hget, if_neg (by decide), if_pos rfl,
        Option.bind_eq_bind, Option.bind_some]
      dsimp only
      rw [if_pos rfl, hget']
      rfl
    · exact absurd heq hne
    · refine resizes_of_gives heq ?_ (gives_cv hr (a := .i) (b := .s) rfl (by decide))
      rw [genSizeConversionUnsigned, heq, hget]
      rfl
    · refine resizes_of_gives heq ?_ (gives_cv hr (a := .l) (b := .s) rfl (by decide))
      rw [genSizeConversionUnsigned, heq, hget]
      rfl
  · obtain ⟨r, hr, hget⟩ := hget .u
    obtain heq | heq | heq | heq := hsize
    · refine resizes_of_gives heq ?_ (gives_cv hr (a := .c) (b := .u) rfl (by decide))
      rw [genSizeConversionUnsigned, heq, hget]
      rfl
    · refine resizes_of_gives heq ?_ (gives_cv hr (a := .s) (b := .u) rfl (by decide))
      rw [genSizeConversionUnsigned, heq, hget]
      rfl
    · exact absurd heq hne
    · refine resizes_of_gives heq ?_ (gives_cv hr (a := .l) (b := .u) rfl (by decide))
      rw [genSizeConversionUnsigned, heq, hget]
      rfl
  · exact absurd rfl hsmall

theorem genSizeConversionUnsigned_eight (hroom : c.inUse.length + 2 ≤ dill.registers)
    {src : IogenOprnd R} (hsize : WordSize src.size) (hne : src.size ≠ 8) :
    Resizes c src 8 (genSizeConversionUnsigned dill c src 8) fun _ n' v => v % 256 ^ n' := by
  obtain ⟨r, hr, hget⟩ := exists_getreg (by omega : c.inUse.length < dill.registers) .ul
  obtain heq | heq | heq | heq := hsize
  · refine resizes_of_gives heq ?_ (gives_cv_unsigned hr (a := .uc) (b := .ul) rfl (by decide))
    rw [genSizeConversionUnsigned, heq, hget]
    rfl
  · refine resizes_of_gives heq ?_ (gives_cv_unsigned hr (a := .us) (b := .ul) rfl (by decide))
    rw [genSizeConversionUnsigned, heq, hget]
    rfl
  · refine resizes_of_gives heq ?_ (gives_cv_unsigned hr (a := .u) (b := .ul) rfl (by decide))
    rw [genSizeConversionUnsigned, heq, hget]
    rfl
  · exact absurd heq hne

/-- What the ladder of a type makes of the bytes of a value. -/
def ladderValue (dataType : FMDataType) (n n' v : Nat) : Nat :=
  if dataType = .integerType ∨ n' ≠ 8 then extended n n' v else v % 256 ^ n'

theorem genSizeConversion_spec (hroom : c.inUse.length + 2 ≤ dill.registers)
    (src : IogenOprnd R) (hsrc : src.vcReg ∈ c.inUse) (htype : WordType src.dataType)
    (hsize : WordSize src.size) {size : Int32} (hdest : WordSize size) (hne : src.size ≠ size) :
    Resizes c src size (genSizeConversion dill c src size) (ladderValue src.dataType) := by
  by_cases hinteger : src.dataType = .integerType
  · obtain ⟨r, c', hconv, hgives⟩ := genSizeConversionSigned_spec hroom hsrc hsize hdest hne
    have hladder : genSizeConversion dill c src size = genSizeConversionSigned dill c src size := by
      rw [genSizeConversion, hinteger]
    exact ⟨r, c', hladder.trans hconv, hgives.congr fun s => (if_pos (.inl hinteger)).symm⟩
  · have hladder : genSizeConversion dill c src size =
        genSizeConversionUnsigned dill c src size := by
      rw [genSizeConversion]
      obtain h | h | h | h | h := htype
      · exact absurd h hinteger
      all_goals rw [h]
    rw [hladder]
    by_cases height : size = 8
    · subst height
      obtain ⟨r, c', hconv, hgives⟩ := genSizeConversionUnsigned_eight hroom hsize hne
      exact ⟨r, c', hconv, hgives.congr fun s => (if_neg (by simp [hinteger])).symm⟩
    · obtain ⟨r, c', hconv, hgives⟩ :=
        genSizeConversionUnsigned_spec hroom hsrc hsize hdest hne height
      have hsmall : size.toNatClampNeg ≠ 8 := by
        obtain rfl | rfl | rfl | rfl := hdest
        · decide
        · decide
        · decide
        · exact absurd rfl height
      exact ⟨r, c', hconv, hgives.congr fun s => (if_pos (.inr hsmall)).symm⟩

/-! ## The whole field -/

theorem ladderValue_self (dataType : FMDataType) {n v : Nat} (hv : v < 256 ^ n) :
    ladderValue dataType n n v = v := by
  rw [ladderValue, extended, unsigned_signed (Nat.le_refl n), Nat.mod_eq_of_lt hv, ite_self]

theorem store_spec (oprnd : IogenOprnd R) {dataType : FMDataType} (htype : WordType dataType)
    (hsize : WordSize oprnd.size)
    (h : Gives c c' oprnd.vcReg oprnd.size.toNatClampNeg f) {destAddr : R}
    (hdest : destAddr ∈ c.inUse) (destOffset : Nat) :
    ∃ c'' new, genStore c' oprnd destAddr destOffset oprnd.size dataType = some c'' ∧
      (freeOprnd c'' oprnd).inUse = c.inUse ∧ (freeOprnd c'' oprnd).code = c.code ++ new ∧
      ∀ s, ∃ s', runTransfers new s = some s' ∧
        s'.mem = s.mem.write (s.address destAddr destOffset)
          (leBytes oprnd.size.toNatClampNeg (f s)) := by
  obtain ⟨t, ht, hbytes⟩ := exists_registerType htype hsize
  rw [← hbytes] at h ⊢
  obtain ⟨new, hcode, hrun⟩ := h.stored hdest destOffset
  refine ⟨c'.emit (.st t oprnd.vcReg destAddr destOffset), new, ?_, ?_, hcode, hrun⟩
  · rw [genStore, if_pos rfl, ht]
    rfl
  · show c'.inUse.erase oprnd.vcReg = c.inUse
    rw [h.inUse, List.erase_cons_head]

/-- The code stores what its ladders make of the value, and gives its registers back. -/
theorem genSimpleFieldConv_spec (hroom : c.inUse.length + 3 ≤ dill.registers)
    {field : FMgetField} (htype : WordType field.dataType) (hsize : WordSize field.size)
    {destSize : Int32} (hdestSize : WordSize destSize) {srcAddr destAddr : R}
    (hsrc : srcAddr ∈ c.inUse) (hdest : destAddr ∈ c.inUse) {srcOffset : Nat}
    (halign : srcOffset % field.size.toNatClampNeg = 0) (assumeAlign destOffset : Nat) :
    ∃ c' new, genSimpleFieldConv dill c field assumeAlign srcAddr srcOffset destSize
        field.dataType destAddr destOffset = some c' ∧
      c'.inUse = c.inUse ∧ c'.code = c.code ++ new ∧
      ∀ s, ∃ s', runTransfers new s = some s' ∧
        s'.mem = s.mem.write (s.address destAddr destOffset)
          (leBytes destSize.toNatClampNeg (ladderValue field.dataType field.size.toNatClampNeg
            destSize.toNatClampNeg (getValue field.byteSwap
              (s.mem.read (s.address srcAddr srcOffset) field.size.toNatClampNeg)))) := by
  obtain ⟨r, c₁, hfetch, hfetched⟩ := genFetch_spec
    (by omega : c.inUse.length + 2 ≤ dill.registers) hsrc htype hsize halign
    (!(decide (assumeAlign < dill.typeAlign (driscType field.dataType field.size)) ||
      decide (srcOffset % dill.typeAlign (driscType field.dataType field.size) ≠ 0)))
    field.byteSwap
  by_cases hsame : field.size = destSize
  · subst hsame
    obtain ⟨c₂, new, hstore, hinUse, hcode, hrun⟩ := store_spec
      ⟨false, field.dataType, field.size, 0, false, false, r⟩ htype hsize hfetched hdest destOffset
    refine ⟨_, new, ?_, hinUse, hcode, fun s => ?_⟩
    · rw [genSimpleFieldConv, genLoad, hfetch, Option.bind_eq_bind, Option.bind_some]
      simp only [ne_eq, not_true_eq_false, if_false, Option.bind_eq_bind, Option.bind_some, hstore]
      rfl
    · obtain ⟨s', hs', hmem⟩ := hrun s
      refine ⟨s', hs', ?_⟩
      have hlt := getValue_lt field.byteSwap
        (s.mem.read (s.address srcAddr srcOffset) field.size.toNatClampNeg)
      rw [Mem.length_read] at hlt
      rw [ladderValue_self _ hlt]
      exact hmem
  · have hroom' : c₁.inUse.length + 2 ≤ dill.registers := by
      rw [hfetched.inUse, List.length_cons]
      omega
    have hheld : r ∈ c₁.inUse := by
      rw [hfetched.inUse]
      exact List.mem_cons_self
    obtain ⟨r', c₂, hconv, hconverted⟩ := genSizeConversion_spec hroom'
      ⟨false, field.dataType, field.size, 0, false, false, r⟩ hheld htype hsize hdestSize hsame
    obtain ⟨c₃, new, hstore, hinUse, hcode, hrun⟩ := store_spec
      ⟨false, field.dataType, destSize, 0, false, false, r'⟩ htype hdestSize
      (hfetched.converted hconverted) hdest destOffset
    refine ⟨_, new, ?_, hinUse, hcode, hrun⟩
    rw [genSimpleFieldConv, genLoad, hfetch, Option.bind_eq_bind, Option.bind_some]
    simp only [ne_eq, not_true_eq_false, if_false, if_true, hsame, not_false_eq_true,
      Option.bind_eq_bind, Option.bind_some, hconv, freeOprnd, hstore]
    rfl

/-- The value that the ladder makes is the one in the new size. -/
theorem ladderValue_eq_iff {field : FMgetField} (hsize : WordSize field.size)
    {destSize : Int32} (hdestSize : WordSize destSize) {bytes : List UInt8}
    (hlength : bytes.length = field.size.toNatClampNeg) :
    leBytes destSize.toNatClampNeg (ladderValue field.dataType field.size.toNatClampNeg
        destSize.toNatClampNeg (getValue field.byteSwap bytes)) =
      convertedBytes field destSize bytes ↔
    field.dataType = .integerType ∨ destSize.toNatClampNeg ≤ field.size.toNatClampNeg ∨
      destSize = 8 ∨ getValue field.byteSwap bytes < 256 ^ field.size.toNatClampNeg / 2 := by
  have hpos : 0 < field.size.toNatClampNeg := by
    obtain h | h | h | h := hsize <;> rw [h] <;> decide
  have height : destSize = 8 ↔ destSize.toNatClampNeg = 8 := by
    obtain rfl | rfl | rfl | rfl := hdestSize <;> decide
  have hlt := getValue_lt field.byteSwap bytes
  rw [hlength] at hlt
  rw [height, convertedBytes, sourceValue, leBytes_eq_iff, ladderValue, extended]
  generalize getValue field.byteSwap bytes = v at hlt
  generalize field.size.toNatClampNeg = n at *
  generalize destSize.toNatClampNeg = n'
  by_cases hinteger : field.dataType = .integerType
  · rw [if_pos (.inl hinteger), if_pos hinteger]
    exact iff_of_true rfl (.inl hinteger)
  · simp only [hinteger, if_false, false_or]
    rw [unsigned_natCast, Nat.mod_mod]
    by_cases hnarrow : n' ≤ n
    · rw [unsigned_signed hnarrow, ite_self, Nat.mod_mod]
      exact iff_of_true rfl (.inl hnarrow)
    · have hwide : n < n' := Nat.lt_of_not_le hnarrow
      have hpow : 256 ^ n < 256 ^ n' := Nat.pow_lt_pow_right (by decide) hwide
      rw [or_iff_right hnarrow, Nat.mod_eq_of_lt (Nat.lt_trans hlt hpow)]
      by_cases heq : n' = 8
      · rw [if_neg (not_not_intro heq)]
        exact iff_of_true (Nat.mod_eq_of_lt (Nat.lt_trans hlt hpow)) (.inl heq)
      · rw [if_pos heq, or_iff_right heq, Nat.mod_eq_of_lt (unsigned_lt n' _)]
        exact unsigned_signed_eq_iff hpos hwide hlt

/-- The code of a field to another size, run from a state, writes the value there in its new size
and nothing else. -/
def FieldCodeRight (dill : DillTarget R) (c : DillStream R) (field : FMgetField)
    (assumeAlign : Nat) (srcAddr : R) (srcOffset : Nat) (destSize : Int32) (destAddr : R)
    (destOffset : Nat) (s : RegMem R) : Prop :=
  ∃ c' new s', genSimpleFieldConv dill c field assumeAlign srcAddr srcOffset destSize
      field.dataType destAddr destOffset = some c' ∧
    c'.code = c.code ++ new ∧ runTransfers new s = some s' ∧
    s'.mem = s.mem.write (s.address destAddr destOffset)
      (convertedBytes field destSize
        (s.mem.read (s.address srcAddr srcOffset) field.size.toNatClampNeg))

theorem write_left_cancel {m : Mem} {a : Nat} {xs ys : List UInt8} (h : xs.length = ys.length) :
    m.write a xs = m.write a ys ↔ xs = ys := by
  constructor
  · intro heq
    rw [← Mem.read_write_self m a xs, heq, h, Mem.read_write_self]
  · exact congrArg _

/-- The code is right where its ladders are. -/
theorem fieldCodeRight_iff_ladder {c : DillStream R} (hroom : c.inUse.length + 3 ≤ dill.registers)
    {field : FMgetField} (htype : WordType field.dataType) (hsize : WordSize field.size)
    {destSize : Int32} (hdestSize : WordSize destSize) {srcAddr destAddr : R}
    (hsrc : srcAddr ∈ c.inUse) (hdest : destAddr ∈ c.inUse) {srcOffset : Nat}
    (halign : srcOffset % field.size.toNatClampNeg = 0) (assumeAlign destOffset : Nat)
    (s : RegMem R) :
    FieldCodeRight dill c field assumeAlign srcAddr srcOffset destSize destAddr destOffset s ↔
      leBytes destSize.toNatClampNeg (ladderValue field.dataType field.size.toNatClampNeg
          destSize.toNatClampNeg (getValue field.byteSwap
            (s.mem.read (s.address srcAddr srcOffset) field.size.toNatClampNeg))) =
        convertedBytes field destSize
          (s.mem.read (s.address srcAddr srcOffset) field.size.toNatClampNeg) := by
  obtain ⟨c', new, hgen, -, hcode, hrun⟩ := genSimpleFieldConv_spec hroom htype hsize hdestSize
    hsrc hdest halign assumeAlign destOffset
  obtain ⟨s', hs', hmem⟩ := hrun s
  rw [← write_left_cancel (m := s.mem) (a := s.address destAddr destOffset)
      (by rw [convertedBytes, length_leBytes, length_leBytes]), ← hmem]
  constructor
  · rintro ⟨d, new', t, hgen', hcode', hrun', hmem'⟩
    rw [hgen] at hgen'
    rw [← Option.some.inj hgen', hcode, List.append_cancel_left_eq] at hcode'
    rw [hcode', hrun'] at hs'
    rw [← Option.some.inj hs', hmem']
  · intro h
    exact ⟨c', new, s', hgen, hcode, hs', h⟩

/-- The code is right for integers, to no more bytes than the source has, to 8 bytes, and where
the top bit of the value is clear. -/
theorem fieldCodeRight_iff {c : DillStream R} (hroom : c.inUse.length + 3 ≤ dill.registers)
    {field : FMgetField} (htype : WordType field.dataType) (hsize : WordSize field.size)
    {destSize : Int32} (hdestSize : WordSize destSize) {srcAddr destAddr : R}
    (hsrc : srcAddr ∈ c.inUse) (hdest : destAddr ∈ c.inUse) {srcOffset : Nat}
    (halign : srcOffset % field.size.toNatClampNeg = 0) (assumeAlign destOffset : Nat)
    (s : RegMem R) :
    FieldCodeRight dill c field assumeAlign srcAddr srcOffset destSize destAddr destOffset s ↔
      field.dataType = .integerType ∨ destSize.toNatClampNeg ≤ field.size.toNatClampNeg ∨
        destSize = 8 ∨
        getValue field.byteSwap
          (s.mem.read (s.address srcAddr srcOffset) field.size.toNatClampNeg) <
            256 ^ field.size.toNatClampNeg / 2 := by
  rw [fieldCodeRight_iff_ladder hroom htype hsize hdestSize hsrc hdest halign]
  exact ladderValue_eq_iff hsize hdestSize (Mem.length_read s.mem _ _)

end

/-! ### Bytes -/

/-- The first of sixteen registers that is not in use. -/
def firstFree (inUse : List Nat) : Option Nat := (List.range 16).find? (· ∉ inUse)

theorem not_mem_of_firstFree {inUse : List Nat} {r : Nat} (h : firstFree inUse = some r) :
    r ∉ inUse := of_decide_eq_true (List.find?_some (p := fun r => decide (r ∉ inUse)) h)

theorem firstFree_isSome {inUse : List Nat} (h : inUse.length < 16) :
    (firstFree inUse).isSome := by
  rw [firstFree, List.find?_isSome]
  by_contra hnone
  have hall : List.range 16 ⊆ inUse := by
    intro r hr
    by_contra hnot
    exact hnone ⟨r, hr, decide_eq_true hnot⟩
  have hle := (List.nodup_range.subperm hall).length_le
  rw [List.length_range] at hle
  omega

/-- A target with sixteen registers. -/
def sixteenRegisters (hasLdbs : Bool) : DillTarget Nat where
  getreg inUse _ := firstFree inUse
  fresh := not_mem_of_firstFree
  registers := 16
  supplies := firstFree_isSome
  hasLdbs
  typeAlign
    | .c => 1
    | .s => 2
    | .i | .f => 4
    | .l | .d | .p => 8

/-- An unsigned number of one byte. -/
def unsignedByte : FMgetField :=
  { offset := 0, size := 1, dataType := .unsignedType, byteSwap := false, srcFloatFormat := 1,
    targetFloatFormat := 1 }

/-- Two addresses, 0 and 16, in a memory whose bytes are all `b`. -/
def sameBytes (b : UInt8) : RegMem Nat :=
  { regs := fun r => if r = 1 then 16 else 0, mem := fun _ => b }

theorem fieldCodeRight_iff_short :
    FieldCodeRight (sixteenRegisters true) ⟨[0, 1], []⟩ swappedShort 8 0 0 8 1 0 (sameBytes 255) ↔
      swappedShort.dataType = .integerType ∨
        (8 : Int32).toNatClampNeg ≤ swappedShort.size.toNatClampNeg ∨ (8 : Int32) = 8 ∨
        getValue swappedShort.byteSwap
          ((sameBytes 255).mem.read ((sameBytes 255).address 0 0)
            swappedShort.size.toNatClampNeg) < 256 ^ swappedShort.size.toNatClampNeg / 2 := by
  refine fieldCodeRight_iff ?_ (.inl rfl) (.inr (.inl rfl)) (.inr (.inr (.inr rfl))) ?_ ?_ rfl 8 0 _
  · show 5 ≤ 16
    decide
  · decide
  · decide

/-- The number 255 becomes 65535 in two bytes. -/
theorem unsignedByte_extended :
    ¬ FieldCodeRight (sixteenRegisters false) ⟨[0, 1], []⟩ unsignedByte 8 0 0 2 1 0
      (sameBytes 255) := by
  have hroom : (⟨[0, 1], []⟩ : DillStream Nat).inUse.length + 3 ≤
      (sixteenRegisters false).registers := by
    show 5 ≤ 16
    decide
  rw [fieldCodeRight_iff_ladder hroom (.inr (.inl rfl)) (.inl rfl) (.inr (.inl rfl))
    List.mem_cons_self (List.mem_cons_of_mem _ List.mem_cons_self) rfl]
  decide

end FFS
