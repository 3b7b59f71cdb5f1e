import SpectrumTiming.Text.Digit

/-!
# Machines

What has to be known of a machine before its timing can be followed: which chip does the contending,
how long a line and a frame last, where in the frame the first contended T-state lies, how long the
processor is held off in each of eight successive T-states, and which memory banks are contended
when paged in at the top of memory.

The delays and the banks are given as digits and read once; a machine that passes has a positive
line and frame length and exactly eight delays.
-/

namespace SpectrumTiming

/-- The chip that shares the bus with the processor. -/
inductive Variant
  /-- No contention at all. -/
  | none
  /-- The Ferranti ULA of the Sinclair machines. -/
  | sinclair
  /-- The gate array of the Amstrad machines. -/
  | amstrad
deriving DecidableEq

namespace Variant

/-- Whether the chip ever holds the processor off. -/
def contends : Variant → Bool
  | .none => false
  | .sinclair | .amstrad => true

/-- The name a report gives the chip. -/
def name : Variant → String
  | .none => "None"
  | .sinclair => "Sinclair"
  | .amstrad => "Amstrad"

end Variant

/-- A machine as it is described, with its digits still unread. -/
structure Machine where
  variant : Variant
  /-- Eight digits: the delay in each of eight successive contended T-states. -/
  pattern : String
  /-- The T-state of the frame at which the first contended line begins. -/
  start : Nat
  /-- T-states of a line. -/
  line : Nat
  /-- T-states of a frame. -/
  frame : Nat
  /-- A digit for each contended bank. -/
  banks : String
deriving DecidableEq

namespace Machine

/-- A machine that never contends. -/
def uncontended : Machine where
  variant := .none
  pattern := "00000000"
  start := 14335
  line := 224
  frame := 69888
  banks := ""

/-- The ZX Spectrum 48K. -/
def spectrum48k : Machine where
  variant := .sinclair
  pattern := "65432100"
  start := 14335
  line := 224
  frame := 69888
  banks := ""

/-- The ZX Spectrum 128K. -/
def spectrum128k : Machine where
  variant := .sinclair
  pattern := "65432100"
  start := 14361
  line := 228
  frame := 70908
  banks := "1357"

/-- The ZX Spectrum +2A and +3. -/
def spectrumPlus3 : Machine where
  variant := .amstrad
  pattern := "10765432"
  start := 14360
  line := 228
  frame := 70908
  banks := "4567"

/-- Why a description is no machine. -/
inductive Error
  | patternLength (pattern : String)
  | patternChar (c : Char) (pattern : String)
  | bankChar (c : Char) (banks : String)
  | zeroLine
  | zeroFrame
deriving DecidableEq

/-- What the user is told. -/
def Error.message : Error → String
  | .patternLength pattern =>
    s!"ULA delay sequence must be 8 numeric digits in length (got \"{pattern}\")"
  | .patternChar c pattern => s!"bad character '{c}' in ULA delay sequence \"{pattern}\""
  | .bankChar c banks => s!"bad character '{c}' in contended banks \"{banks}\""
  | .zeroLine => "cycles per line must be greater than zero"
  | .zeroFrame => "cycles per frame must be greater than zero"

/-- The pattern in force: an empty one stands for no delay at all. -/
def effectivePattern (m : Machine) : String :=
  if m.pattern = "" then uncontended.pattern else m.pattern

/-- The eight delays. The length is judged before any character. -/
def delays (m : Machine) : Except Error (Vector Nat 8) :=
  let digit (c : Char) : Except Error Nat :=
    (digit? c).elim (.error (.patternChar c m.effectivePattern)) .ok
  match m.effectivePattern.toList with
  | [a, b, c, d, e, f, g, h] => do
    return #v[← digit a, ← digit b, ← digit c, ← digit d,
      ← digit e, ← digit f, ← digit g, ← digit h]
  | _ => .error (.patternLength m.effectivePattern)

/-- The contended banks, in the order given. -/
def bankNumbers (m : Machine) : Except Error (List Nat) :=
  m.banks.toList.mapM fun c => (digit? c).elim (.error (.bankChar c m.banks)) .ok

end Machine

/-- What the contention of a machine depends on, read from a description that passed. -/
structure Ula where
  variant : Variant
  /-- The delay in each of eight successive contended T-states. -/
  pattern : Vector Nat 8
  start : Nat
  line : Nat
  frame : Nat
  banks : List Nat
  line_pos : 0 < line
  frame_pos : 0 < frame

namespace Machine

/-- Reads a description. The first fault in the order pattern, banks, line, frame is reported. -/
def ula (m : Machine) : Except Error Ula := do
  let pattern ← m.delays
  let banks ← m.bankNumbers
  if hl : m.line = 0 then .error .zeroLine
  else if hf : m.frame = 0 then .error .zeroFrame
  else
    .ok { variant := m.variant, pattern, banks, start := m.start, line := m.line, frame := m.frame
          line_pos := Nat.pos_of_ne_zero hl, frame_pos := Nat.pos_of_ne_zero hf }

/-- Whether a description can be read at all. -/
def check (m : Machine) : Except Error Unit := m.ula.map fun _ => ()

end Machine

end SpectrumTiming
