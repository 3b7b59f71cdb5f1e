import SpectrumTiming.Z80.Operand

/-!
# Block instructions

The sixteen instructions that move, compare, input or output one byte, step their pointers up or
down, and may repeat until their count has run out or a match is found. A repetition is the same
instruction run again: the program counter is set back onto it.
-/

namespace SpectrumTiming.Z80

/-- What a block instruction does with its byte. -/
inductive BlockKind
  | transfer
  | compare
  | input
  | output
deriving DecidableEq

/-- One of the sixteen block instructions. -/
structure Block where
  kind : BlockKind
  /-- Whether the pointers step down instead of up. -/
  down : Bool := false
  repeats : Bool := false
deriving DecidableEq

namespace Block

/-- What is added to a pointer. -/
def stride (b : Block) : UInt16 := if b.down then 0xFFFF else 1

def opcode (b : Block) : UInt8 :=
  let kind := match b.kind with
    | .transfer => 0
    | .compare => 1
    | .input => 2
    | .output => 3
  0xA0 + (if b.repeats then 0x10 else 0) + (if b.down then 8 else 0) + kind

end Block

def evenParity (b : UInt8) : Bool := ((List.range 8).countP (bitOf b)) % 2 = 0

/-- Sets the flags that show a moved byte. -/
def Flags.afterTransfer (f : Flags) (a value : UInt8) (left : Bool) : Flags :=
  let n := a + value
  { f with y := bitOf n 1, half := false, x := bitOf n 3, parity := left, subtract := false }

/-- Sets the flags that show a compared byte. -/
def Flags.afterCompare (f : Flags) (a value : UInt8) (left : Bool) : Flags :=
  let result := a - value
  let half := bitOf (a ^^^ value ^^^ result) 4
  let n := if half then result - 1 else result
  { sign := bitOf result 7, zero := result = 0, y := bitOf n 1, half, x := bitOf n 3,
    parity := left, subtract := true, carry := f.carry }

/-- The flags that show a byte moved through a port, by the count left and a sum whose ninth bit is
the carry. -/
def Flags.ofPort (count value : UInt8) (sum : Nat) : Flags where
  sign := bitOf count 7
  zero := count = 0
  y := bitOf count 5
  half := 0x100 ≤ sum
  x := bitOf count 3
  parity := evenParity (.ofNat (sum % 8) ^^^ count)
  subtract := bitOf value 7
  carry := 0x100 ≤ sum

/-- Moves a byte from (HL) to (DE). -/
def transfer (stride : UInt16) : Work Unit := do
  let r ← registers
  let value ← read r.hl
  write r.de value
  let left := r.bc - 1
  update fun r =>
    { r with
      hl := r.hl + stride
      de := r.de + stride
      bc := left
      f := r.f.afterTransfer r.a value (left ≠ 0) }

/-- Compares A with (HL). -/
def compare (stride : UInt16) : Work Unit := do
  let r ← registers
  let value ← read r.hl
  let left := r.bc - 1
  update fun r =>
    { r with
      hl := r.hl + stride
      bc := left
      wz := r.wz + stride
      f := r.f.afterCompare r.a value (left ≠ 0) }

/-- Moves a byte from port (BC) to (HL). The port sees the count before it is lowered. -/
def blockInput (stride : UInt16) : Work Unit := do
  let r ← registers
  let value ← input r.bc
  let count := r.b - 1
  write r.hl value
  let sum := (r.c + low stride).toNat + value.toNat
  update fun r =>
    { r.setB count with
      hl := r.hl + stride
      wz := r.bc + stride
      f := .ofPort count value sum }

/-- Moves a byte from (HL) to port (BC). The port sees the count after it is lowered. -/
def blockOutput (stride : UInt16) : Work Unit := do
  let r ← registers
  let value ← read r.hl
  let count := r.b - 1
  let port := join count r.c
  output port value
  let sum := (low (r.hl + stride)).toNat + value.toNat
  update fun r =>
    { r with
      hl := r.hl + stride
      bc := port
      wz := port + stride
      f := .ofPort count value sum }

def blockOnce (b : Block) : Work Unit :=
  match b.kind with
  | .transfer => transfer b.stride
  | .compare => compare b.stride
  | .input => blockInput b.stride
  | .output => blockOutput b.stride

/-- Whether a repeating block instruction goes on with these registers. -/
def Registers.goesOn (r : Registers) : BlockKind → Bool
  | .transfer => r.bc ≠ 0
  | .compare => r.bc ≠ 0 ∧ !r.f.zero
  | .input | .output => r.b ≠ 0

/-- Sets the program counter back onto the instruction. -/
def Registers.rewind (r : Registers) (kind : BlockKind) : Registers :=
  let pc := r.pc - 2
  match kind with
  | .transfer | .compare => { r with pc, wz := pc + 1 }
  | .input | .output => { r with pc }

/-- Executes a block instruction: handles one byte and, if it repeats and is not done, goes back. -/
def block (b : Block) : Work Unit := do
  blockOnce b
  if b.repeats && (← registers).goesOn b.kind then
    take b.opcode
    update (·.rewind b.kind)

end SpectrumTiming.Z80
