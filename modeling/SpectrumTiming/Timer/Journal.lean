import SpectrumTiming.Text.Hex
import SpectrumTiming.Timer

/-!
# The journal

What the timer tells of its work, as lines of three levels. Building a timer tells its settings; an
operation tells which script it found and what it paid, each line at the T-state the clock had then;
a fault tells what did not add up and all that was logged of the instruction.

The lines follow from the timer and the operation and change nothing, so they are read off the same
definitions that move the timer.
-/

namespace SpectrumTiming

/-- How severe a line is. -/
inductive Level
  | error
  | debug
  | trace
deriving DecidableEq

namespace Level

/-- The name of a level. -/
def name : Level → String
  | .error => "ERROR"
  | .debug => "DEBUG"
  | .trace => "TRACE"

/-- The place of a level, the most severe first. -/
def rank : Level → Nat
  | .error => 0
  | .debug => 1
  | .trace => 2

end Level

/-- A line of the journal. -/
structure Line where
  level : Level
  text : String
deriving DecidableEq

/-- The lines that are kept when a level is asked for: those of that level and the more severe. -/
def keptLines (level? : Option Level) (lines : List Line) : List Line :=
  lines.filter fun line => level?.any fun level => line.level.rank ≤ level.rank

/-- What is told of a cost, at the clock it is paid from. -/
def Cost.line? (u : Ula) (c : Clock) : Cost → Option Line
  | .idle _ => none
  | .memory addr n =>
    some ⟨.trace, s!"  MEM TState={c.counter} ULA={c.delay u} - Addr={hexWord addr} " ++
      s!"(C:{c.delayAt u addr}, N:{n})"⟩
  | .port addr =>
    match u.variant with
    | .amstrad => some ⟨.trace, s!"  IO  TState={c.counter} - Port={hexWord addr} (C:0, N:4)"⟩
    | .none | .sinclair =>
      let high := Ula.inDisplayBank addr
      let odd := addr % 2 != 0
      some ⟨.trace, s!"  IO  TState={c.counter} ULA={c.delay u} - Port={hexWord addr} " ++
        s!"(HiByte={high} LoBit={odd})"⟩

/-- What is told of costs that are paid one after the other. -/
def costLines (u : Ula) (c : Clock) : List Cost → List Line
  | [] => []
  | x :: xs => (x.line? u c).toList ++ costLines u (c.pay u x) xs

namespace Capture

/-- What is told when a script is found. -/
def scriptLine (v : Variant) (c : Clock) (id : ScriptNumber) : Line :=
  ⟨.trace, s!"{scriptName id} {Standard.text v id} tstate={c.counter}"⟩

/-- What is told of settling a capture: the index bytes, the script if it was not known before, and
the elements of the script. -/
def settleLines (u : Ula) (clock : Clock) (c : Capture ScriptNumber) : List Line :=
  let (found, front) := c.resolve
  let later := clock.payAll u front
  let named :=
    match c.script?, found.script? with
    | none, some id => [scriptLine u.variant later id]
    | _, _ => []
  let walked :=
    match found.script? with
    | none => []
    | some id => costLines u later (found.walk (Standard.script u.variant id)).2
  costLines u clock front ++ named ++ walked

/-- What is told of a logged access. -/
def accessLine (index : Nat) (a : Access) : Line :=
  let direction := if a.marks.read then "Read" else "Write"
  let space := if a.marks.port then "IO" else "Addr"
  let charged := if a.marks.charged then "Y" else "N"
  ⟨.error, s!" [{index}] addr=0x{hexWord a.addr} val=0x{hexByte a.value} " ++
    s!"({direction}, {space}, Processed={charged} dbg={a.tag})"⟩

/-- What is told of a capture that ended in a fault. -/
def dumpLines (v : Variant) (c : Capture ScriptNumber) : List Line :=
  let script :=
    match c.script? with
    | none => "Contended Memory Script Unknown"
    | some id => s!"Contended Memory Script {scriptName id} breakdown={Standard.text v id}"
  ⟨.error, script⟩ :: ⟨.error, "Last Opcode History:"⟩ :: c.log.mapIdx accessLine

end Capture

namespace Timer

/-- What is told when a timer is built. -/
def settings (t : Timer) : List Line :=
  [⟨.debug, s!"ula_variant = {t.ula.variant.name}"⟩,
    ⟨.debug, s!"ula_delay_sequence = {listText t.ula.pattern.toList}"⟩,
    ⟨.debug, s!"contended_banks = {listText t.ula.banks}"⟩,
    ⟨.debug, s!"cycles_contention_start = {t.ula.start}"⟩,
    ⟨.debug, s!"cycles_per_line = {t.ula.line}"⟩,
    ⟨.debug, s!"cycles_per_frame = {t.ula.frame}"⟩] ++
  if t.display then [⟨.debug, "using_raster_callback = true"⟩] else []

/-- What is told of settling the capture. -/
def settleLines (t : Timer) : List Line := t.capture.settleLines t.ula t.clock

/-- What is told of an access that finds the log full. -/
def overflowLine (t : Timer) (a : Access) : Line :=
  ⟨.error, s!"RWINFO overflow. No room for addr=0x{hexWord a.addr} val=0x{hexByte a.value} " ++
    s!"flags={a.marks.text} ({a.tag}) tstate={t.clock.counter}"⟩

/-- What is told of an instruction whose sums differ. -/
def sumLines (t : Timer) : List Line :=
  if t.capture.sumsAgree then []
  else [⟨.error, "Wrong amount of uncontended cycles eaten " ++
    s!"(predicted={t.capture.predicted} eaten={t.capture.consumed})"⟩]

/-- What is told of an instruction that leaves an access uncharged. -/
def unchargedLines (t : Timer) : List Line :=
  match t.capture.firstUncharged? with
  | none => []
  | some index => [⟨.error, s!"RWINFO {index} not processed for contention"⟩]

/-- What is told of an operation. -/
def lines (t : Timer) : Op → List Line
  | .record a =>
    if !t.capture.active then []
    else if t.capture.isFull then t.overflowLine a :: t.capture.dumpLines t.ula.variant
    else settleLines { t with capture := t.capture.push a }
  | .confirm =>
    if t.capture.active then settleLines { t with capture := { t.capture with taken := true } }
    else []
  | .finish =>
    if !t.capture.active || t.reconciles then []
    else t.sumLines ++ t.unchargedLines ++ t.capture.dumpLines t.ula.variant
  | _ => []

end Timer

end SpectrumTiming
