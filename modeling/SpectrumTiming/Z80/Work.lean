import SpectrumTiming.Timer
import SpectrumTiming.Z80.Registers

/-!
# What the processor does

A piece of work changes registers and memory, may give a value, and does things that others see, in
order: it puts cycles on the bus and reports to the timer. What it computes never depends on
timing, so work is a function of the state alone; the timer is told afterwards, action by action.
-/

namespace SpectrumTiming.Z80

/-- 64K of memory. -/
abbrev Memory := UInt16 → UInt8

namespace Memory

def write (m : Memory) (addr : UInt16) (value : UInt8) : Memory :=
  fun a => if a = addr then value else m a

/-- Writes bytes to successive addresses, round the top of memory to its bottom. -/
def load (m : Memory) (addr : UInt16) : List UInt8 → Memory
  | [] => m
  | b :: bs => load (m.write addr b) (addr + 1) bs

end Memory

/-- The processor with all it can reach. -/
structure State where
  regs : Registers := {}
  memory : Memory := fun _ => 0
  /-- What each port reads as. -/
  ports : UInt16 → UInt8 := fun _ => 0xFF

/-- The four kinds of bus cycle that move a byte. -/
inductive BusKind
  | read
  | write
  | input
  | output
deriving DecidableEq

/-- A cycle that moves a byte. -/
structure BusCycle where
  kind : BusKind
  addr : UInt16
  value : UInt8
  /-- What the cycle is for. -/
  tag : String
deriving DecidableEq

namespace BusCycle

/-- What the timer logs of a cycle. A port is logged before it has been read, so its value is not
known then and is logged as all ones. -/
def access (c : BusCycle) : Access :=
  match c.kind with
  | .read => ⟨c.addr, c.value, .memoryRead, c.tag⟩
  | .write => ⟨c.addr, c.value, .memoryWrite, c.tag⟩
  | .input => ⟨c.addr, 0xFF, .portRead, c.tag⟩
  | .output => ⟨c.addr, c.value, .portWrite, c.tag⟩

end BusCycle

/-- Something others see the processor do. -/
inductive Action
  | bus (cycle : BusCycle)
  | report (op : Timer.Op)
deriving DecidableEq

/-- A piece of work: from a state to a value, the state after it and the actions in order. -/
def Work (α : Type) : Type := State → α × State × List Action

namespace Work

instance : Monad Work where
  pure a := fun s => (a, s, [])
  bind work next := fun s =>
    let (a, s₁, first) := work s
    let (b, s₂, rest) := next a s₁
    (b, s₂, first ++ rest)

instance : LawfulMonad Work :=
  LawfulMonad.mk' Work
    (fun _ => funext fun _ => Prod.ext rfl (Prod.ext rfl (List.append_nil _)))
    (fun _ _ => rfl)
    (fun _ _ _ => funext fun _ => Prod.ext rfl (Prod.ext rfl (List.append_assoc _ _ _)))

def value {α : Type} (w : Work α) (s : State) : α := (w s).1

def state {α : Type} (w : Work α) (s : State) : State := (w s).2.1

/-- What others see of a piece of work. -/
def actions {α : Type} (w : Work α) (s : State) : List Action := (w s).2.2

variable {α β : Type}

theorem value_bind (w : Work α) (next : α → Work β) (s : State) :
    (w >>= next).value s = (next (w.value s)).value (w.state s) := rfl

theorem state_bind (w : Work α) (next : α → Work β) (s : State) :
    (w >>= next).state s = (next (w.value s)).state (w.state s) := rfl

/-- What comes first is seen first. -/
theorem actions_bind (w : Work α) (next : α → Work β) (s : State) :
    (w >>= next).actions s = w.actions s ++ (next (w.value s)).actions (w.state s) := rfl

end Work

def registers : Work Registers := fun s => (s.regs, s, [])

def update (f : Registers → Registers) : Work Unit := fun s => ((), { s with regs := f s.regs }, [])

def report (op : Timer.Op) : Work Unit := fun s => ((), s, [.report op])

/-- Reads memory for the given purpose. -/
def readFor (tag : String) (addr : UInt16) : Work UInt8 := fun s =>
  let value := s.memory addr
  (value, s, [.bus ⟨.read, addr, value, tag⟩])

def read : UInt16 → Work UInt8 := readFor "rm"

def write (addr : UInt16) (value : UInt8) : Work Unit := fun s =>
  ((), { s with memory := s.memory.write addr value }, [.bus ⟨.write, addr, value, "wm"⟩])

def input (port : UInt16) : Work UInt8 := fun s =>
  let value := s.ports port
  (value, s, [.bus ⟨.input, port, value, "in port"⟩])

def output (port : UInt16) (value : UInt8) : Work Unit := fun s =>
  ((), s, [.bus ⟨.output, port, value, "out port"⟩])

end SpectrumTiming.Z80
