import SpectrumTiming.Command.Arguments
import SpectrumTiming.Timer.Journal

/-!
# Answering the command line

What each command prints, and the code it ends with: 0 if it was answered, 1 if it could be read but
not answered, 2 if it could not be read.
-/

namespace SpectrumTiming.Command

/-- What a run of the command line leaves. -/
structure Answer where
  code : Nat
  output : String := ""
  errors : String := ""
deriving DecidableEq

namespace Answer

def ofLines (lines : List String) : Answer where
  code := 0
  output := String.join (lines.map (· ++ "\n"))

/-- A command that could not be answered. -/
def failure (reason : String) : Answer := { code := 1, errors := s!"Error: {reason}\n" }

/-- A command line that could not be read. -/
def usage : Answer where
  code := 2
  errors :=
    "usage: scripts [-m MACHINE] | classify BYTE... | delay -t TSTATE [-m MACHINE]\n"

end Answer

/-- Fills a text up with blanks to a width. -/
def padRight (width : Nat) (text : String) : String :=
  text ++ String.ofList (List.replicate (width - text.length) ' ')

def scriptLine (v : Variant) (id : ScriptNumber) : String :=
  let script := Standard.script v id
  let mandatory := padRight 3 (toString script.mandatory)
  s!"  {scriptName id}  {padRight 40 (Standard.text v id)} mandatory={mandatory} " ++
    s!"optional={script.optional}"

def answerScripts (model : Model) : Answer :=
  let v := model.machine.variant
  .ofLines (s!"{model.name} ({v.name} ULA)" :: (List.finRange scriptTotal).map (scriptLine v))

/-- Drops all marks `0x` in front of a number. -/
def dropMarks : List Char → List Char
  | '0' :: 'x' :: cs => dropMarks cs
  | cs => cs

def readByte (word : String) : Except HexError UInt8 := readHexByte (dropMarks word.toList)

/-- What the user is told of a word that is no byte. -/
def hexReport : HexError → String
  | .empty => "ParseIntError \x7b kind: Empty \x7d"
  | .invalidDigit => "ParseIntError \x7b kind: InvalidDigit \x7d"
  | .overflow => "ParseIntError \x7b kind: PosOverflow \x7d"

/-- The bytes of an instruction as a report shows them. -/
def bytesText (bytes : List UInt8) : String := bracketed (bytes.map hexByte)

def answerBytes (bytes : List UInt8) : Answer :=
  match Opcode.scriptOf? bytes with
  | none => .failure s!"\"{bytesText bytes} is not a complete opcode\""
  | some (id, collapsed) =>
    .ofLines (
      [s!"{bytesText bytes} -> {scriptName id}"] ++
      (if 0 < collapsed then [s!"  {collapsed} index prefix(es) collapsed (pc:4 each)"] else []) ++
      [s!"  Sinclair: {Standard.text .sinclair id}", s!"  Amstrad:  {Standard.text .amstrad id}"])

/-- Reads the bytes of an instruction and finds its script. The first word that is no byte is
reported. -/
def answerClassify (words : List String) : Answer :=
  match words.mapM readByte with
  | .error e => .failure (hexReport e)
  | .ok bytes => answerBytes bytes

/-- Tells the beam and the delay of a model at a T-state, counted on from frame to frame. -/
def answerDelay (model : Model) (tstate : Nat) : Answer :=
  match model.machine.ula with
  | .error e => .failure e.message
  | .ok u =>
    let counter := tstate % u.frame
    let beam := match u.beam? counter with
      | some (line, column) => s!"  Line: {line} Column: {column}"
      | none => "  Before the first contended cycle"
    .ofLines [s!"{model.name} T-state {counter}", beam, s!"  ULA delay: {u.delay counter}"]

def Request.answer : Request → Answer
  | .scripts model => answerScripts model
  | .classify words => answerClassify words
  | .delay model tstate => answerDelay model tstate

def answer (words : List String) : Answer :=
  match Request.ofWords? words with
  | none => .usage
  | some request => request.answer

end SpectrumTiming.Command
