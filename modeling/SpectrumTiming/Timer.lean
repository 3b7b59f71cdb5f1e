import SpectrumTiming.Capture

/-!
# The timer

The timer of a machine owns the clock and the capture of the running instruction. An executor
brackets each instruction with `begin` and `finish`, reports its documented T-states and its
accesses, and says when the optional path is taken. While an instruction is captured its documented
T-states are only added up; the clock is moved by what the script costs, and `finish` compares the
two sums. A machine without contention captures nothing and lets the documented T-states pass.

An operation either yields the next timer or ends in a fault, after which nothing more is done. The
display is notified at the end of an operation, if at all.
-/

namespace SpectrumTiming

/-- How T-states reach the clock. -/
inductive TimeKind
  /-- The documented T-states of an instruction: added up while one is captured, else passed. -/
  | documented
  /-- T-states of taking an interrupt: passed. -/
  | interrupt
  /-- Delay: passed, and never compared. -/
  | delay
  /-- T-states without delay: passed, and counted as charged while an instruction is captured. -/
  | base
deriving DecidableEq

/-- Why the timer gives up. -/
inductive Fault
  /-- An access is to be logged and the log is full. -/
  | logFull
  /-- The instruction is over with accesses or T-states that do not add up. -/
  | unreconciled
deriving DecidableEq

/-- What the user is told. -/
def Fault.message : Fault → String
  | .logFull => "Opcode history list is full"
  | .unreconciled => "Failed to process opcode history"

structure Timer where
  ula : Ula
  /-- Whether a display listens. -/
  display : Bool := false
  clock : Clock := {}
  capture : Capture ScriptNumber := {}

namespace Timer

/-- The timer of a described machine, at the start of its first frame. -/
def ofMachine (m : Machine) (display : Bool) : Except Machine.Error Timer :=
  m.ula.map fun ula => { ula, display }

/-- T-states since the running instruction began, or since the last one did, within a frame. -/
def sinceStart (t : Timer) : Nat :=
  (t.clock.counter + t.ula.frame - t.capture.start) % t.ula.frame

def advance (t : Timer) (cycles : Nat) : Timer := { t with clock := t.clock.advance t.ula cycles }

/-- Charges all that the log of the captured instruction allows. -/
def settle (t : Timer) : Timer :=
  let (capture, costs) := t.capture.settle t.ula.variant
  { t with capture, clock := t.clock.payAll t.ula costs }

/-- What an executor can ask for. -/
inductive Op
  | begin (bc ir : UInt16)
  | finish
  | elapse (kind : TimeKind) (cycles : Nat)
  | record (a : Access)
  | confirm
  /-- Lets T-states pass outside of all accounts. -/
  | advance (cycles : Nat)
  | setCounter (tstate : Nat)
  | setBank (bank : Nat)
  /-- Sets the clock back to its beginning. -/
  | reset
deriving DecidableEq

/-- Begins an instruction. A machine without contention only notes when. -/
def begin (t : Timer) (bc ir : UInt16) : Timer :=
  if t.ula.variant.contends then { t with capture := .begin t.clock.counter bc ir }
  else { t with capture := { t.capture with start := t.clock.counter } }

/-- Whether all accesses have been charged and the sums agree. -/
def reconciles (t : Timer) : Bool := t.capture.sumsAgree && t.capture.firstUncharged?.isNone

def finish (t : Timer) : Except Fault Timer :=
  if !t.capture.active then .ok t
  else if t.reconciles then .ok { t with capture := { t.capture with active := false } }
  else .error .unreconciled

def elapse (t : Timer) (kind : TimeKind) (cycles : Nat) : Timer :=
  match kind with
  | .documented =>
    if t.capture.active then { t with capture := t.capture.predict cycles } else t.advance cycles
  | .base =>
    if t.capture.active then { t.advance cycles with capture := t.capture.consume cycles }
    else t.advance cycles
  | .interrupt | .delay => t.advance cycles

/-- Logs an access of the captured instruction and charges what that allows. -/
def record (t : Timer) (a : Access) : Except Fault Timer :=
  if !t.capture.active then .ok t
  else if t.capture.isFull then .error .logFull
  else .ok (settle { t with capture := t.capture.push a })

/-- Takes the optional path and charges what that allows. -/
def confirm (t : Timer) : Timer :=
  let t := { t with capture := { t.capture with taken := true } }
  if t.capture.active then t.settle else t

def step (t : Timer) : Op → Except Fault Timer
  | .begin bc ir => .ok (t.begin bc ir)
  | .finish => t.finish
  | .elapse kind cycles => .ok (t.elapse kind cycles)
  | .record a => t.record a
  | .confirm => .ok t.confirm
  | .advance cycles => .ok (t.advance cycles)
  | .setCounter tstate => .ok { t with clock := t.clock.setCounter t.ula tstate }
  | .setBank bank => .ok { t with clock := t.clock.setBank bank }
  | .reset => .ok { t with clock := {} }

/-- Does all that the executor asks for, up to the first fault. -/
def run (t : Timer) (ops : List Op) : Except Fault Timer := ops.foldlM step t

theorem run_cons (t : Timer) (op : Op) (ops : List Op) :
    t.run (op :: ops) = (t.step op).bind fun after => after.run ops := rfl

theorem run_append (t : Timer) (xs ys : List Op) :
    t.run (xs ++ ys) = (t.run xs).bind fun after => after.run ys := List.foldlM_append

/-- Whether the display has to catch up once an operation is done: at the end of an instruction,
and when a captured write shows on the screen. -/
def shows (t : Timer) : Op → Bool
  | .finish => true
  | .record a => t.capture.active && a.visible t.clock.bank
  | _ => false

/-- The T-state at which the display is notified of an operation that leads from `t` to `after`. -/
def notice? (t : Timer) (op : Op) (after : Timer) : Option Nat :=
  if t.display && t.shows op then some after.clock.counter else none

end Timer

end SpectrumTiming
