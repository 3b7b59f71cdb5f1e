/-!
# Registers of the Z80

The registers that block instructions, branches and the stack work on, the flags one by one. `wz` is
the internal address register, of which the flags of some instructions show a trace.
-/

namespace SpectrumTiming.Z80

/-- A word of a high and a low byte. -/
def join (high low : UInt8) : UInt16 := high.toUInt16 * 256 + low.toUInt16

def high (w : UInt16) : UInt8 := (w / 256).toUInt8

def low (w : UInt16) : UInt8 := w.toUInt8

@[simp] theorem high_join (h l : UInt8) : high (join h l) = h := by
  have hh := h.toNat_lt
  have hl := l.toNat_lt
  rw [← UInt8.toNat_inj]
  simp only [high, join, UInt16.toNat_toUInt8, UInt16.toNat_div, UInt16.toNat_add,
    UInt16.toNat_mul, UInt8.toNat_toUInt16, UInt16.reduceToNat]
  omega

@[simp] theorem low_join (h l : UInt8) : low (join h l) = l := by
  have hh := h.toNat_lt
  have hl := l.toNat_lt
  rw [← UInt8.toNat_inj]
  simp only [low, join, UInt16.toNat_toUInt8, UInt16.toNat_add, UInt16.toNat_mul,
    UInt8.toNat_toUInt16, UInt16.reduceToNat]
  omega

@[simp] theorem join_high_low (w : UInt16) : join (high w) (low w) = w := by
  have hw := w.toNat_lt
  rw [← UInt16.toNat_inj]
  simp only [high, low, join, UInt16.toNat_toUInt8, UInt16.toNat_div, UInt16.toNat_add,
    UInt16.toNat_mul, UInt8.toNat_toUInt16, UInt16.reduceToNat]
  omega

/-- A bit of a byte, bit 0 the lowest. -/
def bitOf (b : UInt8) (i : Nat) : Bool := b.toNat.testBit i

/-- The flags, the highest bit first. `y` and `x` are the two undocumented ones. -/
structure Flags where
  sign : Bool := false
  zero : Bool := false
  y : Bool := false
  half : Bool := false
  x : Bool := false
  /-- Parity or overflow. -/
  parity : Bool := false
  subtract : Bool := false
  carry : Bool := false
deriving DecidableEq

namespace Flags

def ofByte (b : UInt8) : Flags where
  sign := bitOf b 7
  zero := bitOf b 6
  y := bitOf b 5
  half := bitOf b 4
  x := bitOf b 3
  parity := bitOf b 2
  subtract := bitOf b 1
  carry := bitOf b 0

/-- The flags as a number, one bit each. -/
def toNat (f : Flags) : Nat :=
  128 * f.sign.toNat + 64 * f.zero.toNat + 32 * f.y.toNat + 16 * f.half.toNat +
    8 * f.x.toNat + 4 * f.parity.toNat + 2 * f.subtract.toNat + f.carry.toNat

def toByte (f : Flags) : UInt8 := .ofNat f.toNat

end Flags

structure Registers where
  a : UInt8 := 0
  f : Flags := {}
  bc : UInt16 := 0
  de : UInt16 := 0
  hl : UInt16 := 0
  sp : UInt16 := 0
  pc : UInt16 := 0
  wz : UInt16 := 0
  i : UInt8 := 0
  r : UInt8 := 0
deriving DecidableEq

inductive Register
  | a | f | b | bc | de | hl | sp | pc | wz | i | r
deriving DecidableEq

namespace Registers

def b (r : Registers) : UInt8 := high r.bc

def c (r : Registers) : UInt8 := low r.bc

def l (r : Registers) : UInt8 := low r.hl

/-- The pair that internal cycles leave on the address bus. -/
def ir (r : Registers) : UInt16 := join r.i r.r

def setB (r : Registers) (value : UInt8) : Registers := { r with bc := join value r.c }

/-- Counts an opcode fetch in the low seven bits of `r`. -/
def refresh (r : Registers) : Registers := { r with r := (r.r &&& 0x80) ||| ((r.r + 1) &&& 0x7F) }

/-- Sets a register. One of eight bits takes the low byte. -/
def set (r : Registers) (name : Register) (value : UInt16) : Registers :=
  match name with
  | .a => { r with a := low value }
  | .f => { r with f := .ofByte (low value) }
  | .b => r.setB (low value)
  | .bc => { r with bc := value }
  | .de => { r with de := value }
  | .hl => { r with hl := value }
  | .sp => { r with sp := value }
  | .pc => { r with pc := value }
  | .wz => { r with wz := value }
  | .i => { r with i := low value }
  | .r => { r with r := low value }

def setAll (r : Registers) (values : List (Register × UInt16)) : Registers :=
  values.foldl (fun r (name, value) => r.set name value) r

end Registers

end SpectrumTiming.Z80
