import SpectrumTiming.Opcode.Class

/-!
# Documented durations

The T-states the manuals give for each opcode, without any contention. The times of an opcode behind
other bytes include those bytes. A byte that only leads to another opcode takes no time of its own
in the primary set; behind an index byte it takes the four T-states of that byte, except for `CB`,
whose time is all in the last set.
-/

namespace SpectrumTiming.Opcode

/-- The sets of opcodes that times are looked up in. -/
inductive Table
  | primary
  | bit
  | extended
  | indexed
  | indexedBit
  /-- What a taken branch (by its primary opcode) or the repetition of a block instruction (by its
  opcode behind `ED`) takes on top. -/
  | extra
deriving DecidableEq

def lowDuration (row column : Nat) : Nat :=
  match column with
  | 0 => if row < 2 then 4 else if row = 2 then 8 else if row = 3 then 12 else 7
  | 1 => if row % 2 = 0 then 10 else 11
  | 2 => if row < 4 then 7 else if row < 6 then 16 else 13
  | 3 => 6
  | 4 | 5 => if row = 6 then 11 else 4
  | 6 => if row = 6 then 10 else 7
  | _ => 4

def highDuration (row column : Nat) : Nat :=
  match column with
  | 0 => 5
  | 1 =>
    match row with
    | 3 | 5 => 4
    | 7 => 6
    | _ => 10
  | 2 => 10
  | 3 =>
    match row with
    | 0 => 10
    | 1 => 0
    | 2 | 3 => 11
    | 4 => 19
    | _ => 4
  | 4 => 10
  | 5 =>
    match row with
    | 1 => 17
    | 3 | 5 | 7 => 0
    | _ => 11
  | 6 => 7
  | _ => 11

def primaryDuration (op : UInt8) : Nat :=
  match quadrant op with
  | 0 => lowDuration (row op) (column op)
  | 1 => if op = 0x76 then 4 else if row op = 6 ∨ column op = 6 then 7 else 4
  | 2 => if column op = 6 then 7 else 4
  | _ => highDuration (row op) (column op)

def bitDuration (op : UInt8) : Nat :=
  if column op = 6 then if quadrant op = 1 then 12 else 15 else 8

def extendedDuration (op : UInt8) : Nat :=
  match quadrant op with
  | 1 =>
    match column op with
    | 0 | 1 => 12
    | 2 => 15
    | 3 => 20
    | 5 => 14
    | 7 => if row op < 4 then 9 else if row op < 6 then 18 else 8
    | _ => 8
  | 2 => if 4 ≤ row op ∧ column op < 4 then 16 else 8
  | _ => 8

def indexedDuration (op : UInt8) : Nat :=
  if op = 0xCB then 0
  else if op = 0x34 ∨ op = 0x35 then 23
  else if op = 0x36 then 19
  else if op ≠ 0x76 ∧ (quadrant op = 1 ∧ row op = 6 ∨
      (quadrant op = 1 ∨ quadrant op = 2) ∧ column op = 6) then 19
  else primaryDuration op + 4

def indexedBitDuration (op : UInt8) : Nat := if quadrant op = 1 then 20 else 23

/-- T-states on top for a taken branch or a repetition. -/
def extraDuration (op : UInt8) : Nat :=
  match quadrant op with
  | 0 => if column op = 0 ∧ (row op = 2 ∨ 4 ≤ row op) then 5 else 0
  | 2 => if 6 ≤ row op ∧ column op < 4 then 5 else 0
  | 3 => if column op = 0 then 6 else if column op = 4 then 7 else 0
  | _ => 0

def duration : Table → UInt8 → Nat
  | .primary => primaryDuration
  | .bit => bitDuration
  | .extended => extendedDuration
  | .indexed => indexedDuration
  | .indexedBit => indexedBitDuration
  | .extra => extraDuration

end SpectrumTiming.Opcode
