import SpectrumTiming.Machine
import SpectrumTiming.Text.Digit

/-!
# The command line

Three commands: `scripts` lists the scripts of a machine, `classify` finds the script of opcode
bytes, and `delay` tells the delay at a T-state of the frame. The machine is chosen by `-m` or
`--machine`, the T-state by `-t` or `--tstate`; a value follows as the next word, behind an equals
sign, or at once behind the short form. A word that begins with a dash is an option unless it is the
dash alone; behind `--` there are no options. An option is given once at most, and whatever else
does not fit is refused as a whole.
-/

namespace SpectrumTiming.Command

/-- The machines one can ask about. -/
inductive Model
  | spectrum48k
  | spectrum128k
  | spectrumPlus3
deriving DecidableEq

namespace Model

def ofWord? : String → Option Model
  | "48k" => some .spectrum48k
  | "128k" => some .spectrum128k
  | "plus3" => some .spectrumPlus3
  | _ => none

def name : Model → String
  | .spectrum48k => "Spectrum48k"
  | .spectrum128k => "Spectrum128k"
  | .spectrumPlus3 => "SpectrumPlus3"

def machine : Model → Machine
  | .spectrum48k => .spectrum48k
  | .spectrum128k => .spectrum128k
  | .spectrumPlus3 => .spectrumPlus3

end Model

/-- What is asked for. -/
inductive Request
  | scripts (model : Model)
  | classify (bytes : List String)
  | delay (model : Model) (tstate : Nat)
deriving DecidableEq

/-- What can be set by an option. -/
inductive Setting
  | machine
  | tstate
deriving DecidableEq

namespace Setting

def ofLong? : String → Option Setting
  | "machine" => some .machine
  | "tstate" => some .tstate
  | _ => none

def ofShort? : Char → Option Setting
  | 'm' => some .machine
  | 't' => some .tstate
  | _ => none

end Setting

/-- What a word of the command line is. -/
inductive Word
  | plain (text : String)
  /-- The word behind which there are no options. -/
  | stop
  /-- An option, with its value where that is in the same word. -/
  | option (s : Setting) (value? : Option String)
  | unknown
deriving DecidableEq

namespace Word

/-- Reads a long option behind its two dashes. -/
def ofLong (cs : List Char) : Word :=
  let name := cs.takeWhile (· ≠ '=')
  let value? := match cs.dropWhile (· ≠ '=') with
    | [] => none
    | _ :: value => some (String.ofList value)
  match Setting.ofLong? (String.ofList name) with
  | none => .unknown
  | some s => .option s value?

/-- Reads a short option behind its dash. -/
def ofShort (c : Char) (rest : List Char) : Word :=
  let value? := match rest with
    | [] => none
    | '=' :: value => some (String.ofList value)
    | value => some (String.ofList value)
  match Setting.ofShort? c with
  | none => .unknown
  | some s => .option s value?

def ofText (text : String) : Word :=
  match text.toList with
  | ['-', '-'] => .stop
  | '-' :: '-' :: cs => ofLong cs
  | '-' :: c :: cs => ofShort c cs
  | _ => .plain text

end Word

/-- The options and the other words behind a command. -/
structure Given where
  options : List (Setting × String) := []
  plain : List String := []
deriving DecidableEq

namespace Given

/-- Sorts words into options and others. -/
def ofWords? : List String → Option Given
  | [] => some {}
  | text :: rest =>
    match Word.ofText text with
    | .unknown => none
    | .stop => some { plain := rest }
    | .plain text => (ofWords? rest).map fun g => { g with plain := text :: g.plain }
    | .option s (some value) =>
      (ofWords? rest).map fun g => { g with options := (s, value) :: g.options }
    | .option s none =>
      match rest with
      | [] => none
      | next :: rest =>
        match Word.ofText next with
        | .plain value => (ofWords? rest).map fun g => { g with options := (s, value) :: g.options }
        | _ => none

def values (g : Given) (s : Setting) : List String :=
  g.options.filterMap fun (other, value) => if other = s then some value else none

/-- The model asked about: the 48K unless another is given. -/
def model? (g : Given) : Option Model :=
  match g.values .machine with
  | [] => some .spectrum48k
  | [value] => Model.ofWord? value
  | _ => none

end Given

/-- The value of decimal digits, at least one. -/
def readDigits? (cs : List Char) : Option Nat :=
  if cs = [] then none
  else cs.foldlM (fun n c => (digit? c).map (10 * n + ·)) 0

/-- Reads a T-state, a number below 2^32. A sign may stand in front; a minus only before zero. -/
def readTstate? (text : String) : Option Nat :=
  match text.toList with
  | '-' :: cs => (readDigits? cs).filter (· = 0)
  | '+' :: cs | cs => (readDigits? cs).filter (· < 0x100000000)

namespace Given

def tstate? (g : Given) : Option Nat :=
  match g.values .tstate with
  | [value] => readTstate? value
  | _ => none

end Given

def Request.ofWords? : List String → Option Request
  | "scripts" :: words =>
    (Given.ofWords? words).bind fun g =>
      if g.plain = [] ∧ g.values .tstate = [] then g.model?.map .scripts else none
  | "classify" :: words =>
    (Given.ofWords? words).bind fun g =>
      if g.plain ≠ [] ∧ g.options = [] then some (.classify g.plain) else none
  | "delay" :: words =>
    (Given.ofWords? words).bind fun g =>
      if g.plain = [] then
        g.model?.bind fun model => g.tstate?.map fun tstate => .delay model tstate
      else none
  | _ => none

end SpectrumTiming.Command
