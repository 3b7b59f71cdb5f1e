import SpectrumTiming.Opcode.Class

/-!
# Recognizing an instruction

The bytes of an instruction arrive one after the other. From those that have arrived `recognize`
finds that more are needed, or which script times the instruction, or that the index byte in front
has no effect on timing and collapses, so that the instruction is the one behind it. A chain of
index bytes collapses one at a time; `scriptOf?` follows it to the end.
-/

namespace SpectrumTiming.Opcode

/-- What the first bytes of an instruction tell. -/
inductive Finding
  /-- More bytes are needed. -/
  | pending
  /-- The script, and whether its optional part is taken without a condition. -/
  | script (id : ScriptNumber) (taken : Bool)
  /-- The index byte in front is timed on its own; the instruction begins behind it. -/
  | collapse
deriving DecidableEq

/-- The primary opcodes that take their optional part without a condition: `CALL` and `JR`. -/
def alwaysTaken (op : UInt8) : Bool := op = 0xCD || op = 0x18

def recognizeBit : List UInt8 → Finding
  | [] => .pending
  | op :: _ => .script (bit op) false

/-- What the bytes behind `ED` tell. An undocumented opcode is timed as two opcode bytes. -/
def recognizeExtended : List UInt8 → Finding
  | [] => .pending
  | op :: _ =>
    match extended op with
    | .script id => .script id false
    | .undocumented => .script 1 false

/-- What the bytes behind an index byte and `CB` tell: a displacement and an opcode. -/
def recognizeIndexedBit : List UInt8 → Finding
  | _ :: op :: _ => .script (indexedBit op) false
  | _ => .pending

def recognizeIndexed : List UInt8 → Finding
  | [] => .pending
  | op :: rest =>
    match indexed op with
    | .script id => .script id false
    | .standard | .undocumented => .collapse
    | .bit => recognizeIndexedBit rest

/-- What the first bytes of an instruction tell. -/
def recognize : List UInt8 → Finding
  | [] => .pending
  | op :: rest =>
    match primary op with
    | .script id => .script id (alwaysTaken op)
    | .cb => recognizeBit rest
    | .ed => recognizeExtended rest
    | .index => recognizeIndexed rest

/-- The script of a whole instruction and how many index bytes collapse in front of it, or nothing
if the bytes are not a whole instruction. -/
def scriptOf? : List UInt8 → Option (ScriptNumber × Nat)
  | [] => none
  | op :: rest =>
    match recognize (op :: rest) with
    | .pending => none
    | .script id _ => some (id, 0)
    | .collapse => (scriptOf? rest).map fun (id, n) => (id, n + 1)

end SpectrumTiming.Opcode
