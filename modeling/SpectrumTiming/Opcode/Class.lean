import SpectrumTiming.Script.Standard

/-!
# Opcode classes

Which script times an opcode byte, in each of the five sets of opcodes: primary, behind `CB`, behind
`ED`, behind an index byte (`DD` or `FD`), and behind an index byte, `CB` and a displacement.

A byte is read by its fields: the top two bits choose a quadrant, the next three a row in it and the
last three a column. Rows and columns 0 to 7 that name an operand name `B C D E H L (HL) A`, so row
or column 6 stands for memory. A row splits further into its parity and its half, which names a
register pair.
-/

namespace SpectrumTiming.Opcode

/-- The top two bits. -/
def quadrant (op : UInt8) : Nat := op.toNat / 64

/-- The middle three bits. -/
def row (op : UInt8) : Nat := op.toNat / 8 % 8

/-- The last three bits. -/
def column (op : UInt8) : Nat := op.toNat % 8

/-- What a byte says where an instruction begins. -/
inductive Primary
  | script (id : ScriptNumber)
  | cb
  | ed
  /-- One of the index bytes `DD` and `FD`. -/
  | index
deriving DecidableEq

/-- What a byte says behind `ED`. -/
inductive Extended
  | script (id : ScriptNumber)
  /-- No documented instruction. -/
  | undocumented
deriving DecidableEq

/-- What a byte says behind an index byte. -/
inductive Indexed
  | script (id : ScriptNumber)
  /-- The primary instruction, on the index register. -/
  | standard
  /-- No documented instruction: the index byte has no effect. -/
  | undocumented
  /-- The byte `CB`: a displacement and an opcode follow. -/
  | bit
deriving DecidableEq

/-- The first quadrant of the primary set. -/
def primaryLow (row column : Nat) : ScriptNumber :=
  match column with
  | 0 => if row < 2 then 0 else if row = 2 then 28 else 27
  | 1 => if row % 2 = 0 then 12 else 4
  | 2 => if row < 4 then 7 else if row < 6 then 16 else 15
  | 3 => 3
  | 4 | 5 => if row = 6 then 18 else 0
  | 6 => if row = 6 then 13 else 6
  | _ => 0

/-- The last quadrant of the primary set. -/
def primaryHigh (row column : Nat) : Primary :=
  match column with
  | 0 => .script 24
  | 1 =>
    match row with
    | 3 | 5 => .script 0
    | 7 => .script 3
    | _ => .script 22
  | 2 => .script 12
  | 3 =>
    match row with
    | 0 => .script 12
    | 1 => .cb
    | 2 | 3 => .script 30
    | 4 => .script 32
    | _ => .script 0
  | 4 => .script 26
  | 5 =>
    match row with
    | 1 => .script 26
    | 3 | 7 => .index
    | 5 => .ed
    | _ => .script 25
  | 6 => .script 6
  | _ => .script 25

/-- The class of a byte where an instruction begins. -/
def primary (op : UInt8) : Primary :=
  match quadrant op with
  | 0 => .script (primaryLow (row op) (column op))
  | 1 =>
    if op = 0x76 then .script 0
    else if row op = 6 ∨ column op = 6 then .script 7
    else .script 0
  | 2 => if column op = 6 then .script 8 else .script 0
  | _ => primaryHigh (row op) (column op)

/-- The class of a byte behind `CB`. -/
def bit (op : UInt8) : ScriptNumber :=
  if column op = 6 then if quadrant op = 1 then 10 else 19 else 1

/-- The class of a byte behind `ED`. -/
def extended (op : UInt8) : Extended :=
  match quadrant op with
  | 1 =>
    match column op with
    | 0 | 1 => .script 31
    | 2 => .script 5
    | 3 => .script 17
    | 5 => .script 23
    | 7 =>
      if row op < 4 then .script 2
      else if row op < 6 then .script 29
      else .undocumented
    | _ => .script 1
  | 2 =>
    if row op < 4 then .undocumented
    else
      match column op with
      | 0 => .script 33
      | 1 => .script 34
      | 2 => .script 35
      | 3 => .script 36
      | _ => .undocumented
  | _ => .undocumented

/-- Whether a row or column names a half of the index register. -/
def isIndexHalf (operand : Nat) : Bool := operand = 4 || operand = 5

/-- The class of a byte behind an index byte. -/
def indexed (op : UInt8) : Indexed :=
  let row := row op
  let column := column op
  match quadrant op with
  | 0 =>
    if column = 1 ∧ row % 2 = 1 then .standard
    else if row = 4 ∨ row = 5 then
      if column = 0 ∨ column = 7 then .undocumented else .standard
    else if row = 6 then
      match column with
      | 4 | 5 => .script 20
      | 6 => .script 14
      | _ => .undocumented
    else .undocumented
  | 1 =>
    if op = 0x76 then .undocumented
    else if row = 6 ∨ column = 6 then .script 9
    else if isIndexHalf row || isIndexHalf column then .standard
    else .undocumented
  | 2 =>
    if column = 6 then .script 9
    else if isIndexHalf column then .standard
    else .undocumented
  | _ =>
    if op = 0xCB then .bit
    else if op = 0xE1 ∨ op = 0xE3 ∨ op = 0xE5 ∨ op = 0xE9 ∨ op = 0xF9 then .standard
    else .undocumented

/-- The class of the opcode behind an index byte, `CB` and a displacement. -/
def indexedBit (op : UInt8) : ScriptNumber := if quadrant op = 1 then 11 else 21

end SpectrumTiming.Opcode
