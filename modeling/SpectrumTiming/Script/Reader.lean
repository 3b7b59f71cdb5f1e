import SpectrumTiming.Script.Basic
import SpectrumTiming.Text.Digit

/-!
# Reading a script

A script is written as elements `source:count` or `source:countxfactor`, each ended by a comma, a
closing bracket or the end of the text. The source is a digit (a place in the access log), `ir`,
`bc` or `N` (no address); the count is one digit or two that touch, or `IO` after a digit, which
makes the element a port cycle. An opening bracket makes the elements after it optional until a
closing one. Spaces are ignored, except that they part what has to touch.

The reader is a fold over the characters. It keeps how far the current element has got as a
`Stage`, so an element in progress exists exactly when the stage says so. A text that is no script
is refused at the first character that cannot be read; the letters `i`, `b` and `I` start something
of two characters, so they are judged when the character behind them is known.
-/

namespace SpectrumTiming.Script

/-- No script holds more elements than this. -/
def elementLimit : Nat := 9

/-- T-states of a port cycle without any delay. -/
def portCycles : Nat := 4

/-- Why a text is no script. Positions count characters from zero. -/
inductive Error
  | unexpected (c : Char) (pos : Nat)
  /-- A further element begins where the script is full. -/
  | tooMany
  /-- A separator or the end of the text cuts an element off. -/
  | unfinished (pos : Nat)
  /-- A port cycle that is not at a place in the access log. -/
  | portSource
deriving DecidableEq

/-- What the user is told about the text `text`. -/
def Error.message (text : String) : Error → String
  | .unexpected c pos => s!"unexpected character '{c}' at position {pos} in script \"{text}\""
  | .tooMany => s!"too many elements in script \"{text}\" (maximum is {elementLimit})"
  | .unfinished pos => s!"element left unfinished at position {pos} in script \"{text}\""
  | .portSource => s!"IO cycles need an access slot as their source (script \"{text}\")"

/-- How much of the current element has been read. -/
inductive Stage
  /-- Nothing: between two elements. -/
  | gap
  /-- The first letter of a register pair. -/
  | half (p : Pair)
  /-- The source. -/
  | source (s : Source)
  /-- The source and its colon. -/
  | colon (s : Source)
  /-- The source, its colon and the `I` of `IO`. -/
  | halfPort (s : Source)
  /-- One digit of the count; a second one may still touch it. -/
  | digit (s : Source) (cycles : Nat)
  /-- The whole count. -/
  | count (s : Source) (cycles : Nat)
  /-- The count and an `x`. -/
  | times (s : Source) (cycles : Nat)
  /-- The factor, and with it all an element can have. -/
  | factor (s : Source) (cycles factor : Nat)
deriving DecidableEq

/-- What has been read of a text. -/
structure Reader where
  /-- How many characters have been read. -/
  pos : Nat := 0
  script : Script := {}
  stage : Stage := .gap
  /-- Whether the next element to begin is optional. -/
  optional : Bool := false
deriving DecidableEq

namespace Reader

/-- Goes one character on, into the given stage. -/
def next (r : Reader) (stage : Stage) : Reader := { r with pos := r.pos + 1, stage }

/-- Begins an element with its source. -/
def start (r : Reader) (s : Source) : Except Error Reader :=
  if r.script.size < elementLimit then .ok (r.next (.source s)) else .error .tooMany

/-- Adds a finished element to the script. -/
def commit (r : Reader) (s : Source) (cycles repeats : Nat) : Reader :=
  { r with script := r.script.add ⟨s, cycles, repeats, r.optional⟩, stage := .gap }

/-- Ends the current element, if there is one, in front of a separator or of the end. -/
def close (r : Reader) : Except Error Reader :=
  match r.stage with
  | .gap => .ok r
  | .digit s n | .count s n => .ok (r.commit s n 1)
  | .factor s n k => .ok (r.commit s n k)
  | .half p => .error (.unexpected p.letters.1 (r.pos - 1))
  | .halfPort _ => .error (.unexpected 'I' (r.pos - 1))
  | .source _ | .colon _ | .times _ _ => .error (.unfinished r.pos)

/-- Refuses the character at the current position. -/
def refuse (r : Reader) (c : Char) : Except Error Reader := .error (.unexpected c r.pos)

/-- Reads a character that belongs to an element or opens a bracket. -/
def extend (r : Reader) (c : Char) : Except Error Reader :=
  match r.stage with
  | .gap =>
    match c with
    | '[' => .ok { r.next .gap with optional := true }
    | 'i' => .ok (r.next (.half .ir))
    | 'b' => .ok (r.next (.half .bc))
    | 'N' => r.start .idle
    | _ => (digit? c).elim (r.refuse c) fun d => r.start (.memory d)
  | .half p =>
    if c = p.letters.2 then r.start (.pair p)
    else .error (.unexpected p.letters.1 (r.pos - 1))
  | .source s => if c = ':' then .ok (r.next (.colon s)) else r.refuse c
  | .colon s =>
    if c = 'I' then .ok (r.next (.halfPort s))
    else (digit? c).elim (r.refuse c) fun d => .ok (r.next (.digit s d))
  | .halfPort s =>
    if c = 'O' then
      match s with
      | .memory slot => .ok (r.next (.count (.port slot) portCycles))
      | _ => .error .portSource
    else .error (.unexpected 'I' (r.pos - 1))
  | .digit s n =>
    if c = 'x' then .ok (r.next (.times s n))
    else (digit? c).elim (r.refuse c) fun d => .ok (r.next (.count s (10 * n + d)))
  | .count s n => if c = 'x' then .ok (r.next (.times s n)) else r.refuse c
  | .times s n => (digit? c).elim (r.refuse c) fun d => .ok (r.next (.factor s n d))
  | .factor _ _ _ => r.refuse c

/-- Passes over a space: it ends a count and is refused inside a pair of letters. -/
def space (r : Reader) : Except Error Reader :=
  match r.stage with
  | .half _ | .halfPort _ => r.extend ' '
  | .digit s n => .ok (r.next (.count s n))
  | stage => .ok (r.next stage)

/-- Reads one character. -/
def step (r : Reader) (c : Char) : Except Error Reader :=
  match c with
  | ' ' => r.space
  | ',' => r.close.map fun r => r.next r.stage
  | ']' => r.close.map fun r => { r.next r.stage with optional := false }
  | _ => r.extend c

/-- The script once the text has ended. -/
def finish (r : Reader) : Except Error Script := r.close.map (·.script)

end Reader

/-- Reads a whole text. -/
def readChars (cs : List Char) : Except Error Script :=
  cs.foldlM Reader.step {} >>= Reader.finish

/-- The script a text is written for. -/
def read (text : String) : Except Error Script := readChars text.toList

end SpectrumTiming.Script
