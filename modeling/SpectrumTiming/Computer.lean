import SpectrumTiming.Timer.Journal
import SpectrumTiming.Z80.Operation

/-!
# Processor and timer together

The actions of the processor are played to the timer in order. Each bus cycle is logged with the
timer, which may notify the display, and shows on the bus: a read before it is logged, since the log
takes its value, every other cycle after it, so that the display has caught up before a write lands.
A fault of the timer ends the operation.
-/

namespace SpectrumTiming

/-- Something that can be seen from outside. -/
inductive Event
  /-- The display is notified, at this T-state of the frame. -/
  | display (tstate : Nat)
  | bus (kind : Z80.BusKind) (addr : UInt16) (value : UInt8)
deriving DecidableEq

namespace Z80

def BusCycle.event (c : BusCycle) : Event := .bus c.kind c.addr c.value

namespace Action

/-- What the timer is asked for. -/
def op : Action → Timer.Op
  | .bus cycle => .record cycle.access
  | .report op => op

/-- What is seen of an action that leads the timer from `before` to `after`. -/
def events (x : Action) (before after : Timer) : List Event :=
  let notice := ((before.notice? x.op after).map Event.display).toList
  match x with
  | .report _ => notice
  | .bus cycle =>
    match cycle.kind with
    | .read => cycle.event :: notice
    | .write | .input | .output => notice ++ [cycle.event]

end Action

end Z80

namespace Timer

/-- Plays actions to the timer, up to the first fault. -/
def play (t : Timer) : List Z80.Action → Except Fault (Timer × List Event)
  | [] => .ok (t, [])
  | x :: xs =>
    match t.step x.op with
    | .error f => .error f
    | .ok after =>
      match after.play xs with
      | .error f => .error f
      | .ok (last, events) => .ok (last, x.events t after ++ events)

/-- What is told of actions that are played, up to and with the first fault. -/
def playLines (t : Timer) : List Z80.Action → List Line
  | [] => []
  | x :: xs =>
    t.lines x.op ++
      match t.step x.op with
      | .error _ => []
      | .ok after => after.playLines xs

end Timer

/-- A processor with the timer of its machine. -/
structure Computer where
  processor : Z80.State
  timer : Timer

namespace Computer

/-- What an operation gives back and shows. -/
structure Report where
  value? : Option UInt16
  events : List Event
deriving DecidableEq

/-- Has the processor do one thing. -/
def step (c : Computer) (op : Z80.Op) : Except Fault (Computer × Report) :=
  let (value?, processor, actions) := op.work c.processor
  match c.timer.play actions with
  | .error f => .error f
  | .ok (timer, events) => .ok ({ processor, timer }, { value?, events })

/-- Has the processor do things one after the other, up to the first fault. -/
def run (c : Computer) : List Z80.Op → Except Fault (Computer × List Report)
  | [] => .ok (c, [])
  | op :: ops =>
    match c.step op with
    | .error f => .error f
    | .ok (next, report) =>
      match next.run ops with
      | .error f => .error f
      | .ok (last, reports) => .ok (last, report :: reports)

/-- What is told of an operation. -/
def lines (c : Computer) (op : Z80.Op) : List Line :=
  c.timer.playLines (op.work.actions c.processor)

end Computer

end SpectrumTiming
