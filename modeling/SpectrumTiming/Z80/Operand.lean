import SpectrumTiming.Opcode.Duration
import SpectrumTiming.Z80.Work

/-!
# Opcodes, operands and branches

How the processor fetches an instruction and its operands, works the stack and branches. A branch on
a condition reports its extra T-states and the taken path as soon as the condition is known, before
the operands are read.
-/

namespace SpectrumTiming.Z80

def fetch : Work UInt8 := do
  let pc := (← registers).pc
  update fun r => { r.refresh with pc := pc + 1 }
  readFor "rop" pc

def operand : Work UInt8 := do
  let pc := (← registers).pc
  update fun r => { r with pc := pc + 1 }
  readFor "arg" pc

/-- Reads an operand word, the low byte first. -/
def operandWord : Work UInt16 := do
  let pc := (← registers).pc
  update fun r => { r with pc := pc + 2 }
  let low ← readFor "arg16 byte1" pc
  let high ← readFor "arg16 byte2" (pc + 1)
  return join high low

/-- Pushes a word, the high byte first. -/
def push (value : UInt16) : Work Unit := do
  let sp := (← registers).sp
  write (sp - 1) (high value)
  write (sp - 2) (low value)
  update fun r => { r with sp := sp - 2 }

/-- Pops a word, the low byte first. -/
def pop : Work UInt16 := do
  let sp := (← registers).sp
  let low ← read sp
  let high ← read (sp + 1)
  update fun r => { r with sp := sp + 2 }
  return join high low

/-- Reports the documented T-states of an opcode. -/
def spend (table : Opcode.Table) (op : UInt8) : Work Unit :=
  report (.elapse .documented (Opcode.duration table op))

/-- Reports that the optional path of an opcode is taken. -/
def take (op : UInt8) : Work Unit := do
  spend .extra op
  report .confirm

def begin : Work Unit := do
  let r ← registers
  report (.begin r.bc r.ir)

/-- A signed displacement, widened to a word. -/
def displacement (b : UInt8) : UInt16 := if b < 0x80 then b.toUInt16 else b.toUInt16 + 0xFF00

/-- `JR`: jumps by a displacement. -/
def jumpRelative : Work Unit := do
  let offset ← operand
  update fun r =>
    let target := r.pc + displacement offset
    { r with pc := target, wz := target }

/-- `JR` and `DJNZ` on a condition. The displacement is read in any case. -/
def jumpRelativeIf (condition : Bool) (op : UInt8) : Work Unit :=
  if condition then do
    take op
    jumpRelative
  else do
    let _ ← operand

def call : Work Unit := do
  let target ← operandWord
  push (← registers).pc
  update fun r => { r with pc := target, wz := target }

/-- `CALL` on a condition. The target is read in any case. -/
def callIf (condition : Bool) (op : UInt8) : Work Unit :=
  if condition then do
    take op
    call
  else do
    let target ← operandWord
    update fun r => { r with wz := target }

def ret : Work Unit := do
  let target ← pop
  update fun r => { r with pc := target, wz := target }

def retIf (condition : Bool) (op : UInt8) : Work Unit :=
  if condition then do
    take op
    ret
  else pure ()

end SpectrumTiming.Z80
