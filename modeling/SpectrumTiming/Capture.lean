import SpectrumTiming.Access
import SpectrumTiming.Cost
import SpectrumTiming.Opcode.Recognition

/-!
# The instruction being captured

While an instruction runs, its accesses are logged in bus order. As soon as the opcode bytes among
them tell the script of the instruction, the elements of the script are charged one after the other,
for as long as the accesses they wait for have been logged and, where they are optional, the
optional path is known to be taken. The cursor counts the elements charged so far, so that a walk
taken up again goes on where it stopped and no element is charged twice.

What a walk charges depends on the capture alone and not on the clock. It comes out as a list of
costs, which the clock then pays.

The two sums of an instruction, of the T-states it is documented to take and of those it was charged,
are kept in 32 bits and wrap round. They read as numbers, and numbers are added to them.

The script of the instruction is kept by its number. Logging and walking never look into that
number, so they are the same for numbers of any type; only finding the script is about the standard
ones.
-/

namespace SpectrumTiming

/-- No instruction makes more accesses than this. -/
def logCapacity : Nat := 6

/-- T-states of an index byte that collapses. -/
def indexCycles : Nat := 4

/-- A sum reads as a number. -/
instance coeSum : CoeOut UInt32 Nat := ⟨UInt32.toNat⟩

/-- A number is added to a sum in 32 bits. -/
instance coeNumber : Coe Nat UInt32 := ⟨UInt32.ofNat⟩

/-- Two numbers are added to a sum one after the other or at once. -/
theorem sum_add (sum : UInt32) (m n : Nat) :
    sum + UInt32.ofNat (m + n) = sum + UInt32.ofNat m + UInt32.ofNat n := by
  rw [UInt32.ofNat_add, UInt32.add_assoc]

theorem sum_right_comm (sum : UInt32) (m n : Nat) :
    sum + UInt32.ofNat m + UInt32.ofNat n = sum + UInt32.ofNat n + UInt32.ofNat m := by
  rw [← sum_add, Nat.add_comm, sum_add]

/-- What is known of the instruction that is running, or of the last one, with scripts numbered by
`ι`. -/
structure Capture (ι : Type) where
  /-- Whether accesses are being logged. -/
  active : Bool := false
  log : List Access := []
  /-- The T-state of the frame at which the instruction began. -/
  start : Nat := 0
  /-- The pair BC when it began. -/
  bc : UInt16 := 0
  /-- The pair IR when it began. -/
  ir : UInt16 := 0
  /-- T-states the instruction is documented to take, as far as reported. -/
  predicted : UInt32 := 0
  /-- T-states charged, without any delay. -/
  consumed : UInt32 := 0
  /-- Whether the optional path is taken. -/
  taken : Bool := false
  /-- The number of the script, once it has been found. -/
  script? : Option ι := none
  /-- How many elements of the script have been charged. -/
  cursor : Nat := 0
deriving DecidableEq

namespace Capture

variable {ι : Type}

def begin (tstate : Nat) (bc ir : UInt16) : Capture ι := { active := true, start := tstate, bc, ir }

def isFull (c : Capture ι) : Bool := logCapacity ≤ c.log.length

def push (c : Capture ι) (a : Access) : Capture ι := { c with log := c.log ++ [a] }

def predict (c : Capture ι) (cycles : Nat) : Capture ι :=
  { c with predicted := c.predicted + cycles }

def consume (c : Capture ι) (cycles : Nat) : Capture ι :=
  { c with consumed := c.consumed + cycles }

@[simp] theorem predict_zero (c : Capture ι) : c.predict 0 = c := by
  simp [predict]

@[simp] theorem consume_zero (c : Capture ι) : c.consume 0 = c := by
  simp [consume]

theorem consume_consume (c : Capture ι) (m n : Nat) :
    (c.consume m).consume n = c.consume (m + n) := by
  simp only [consume, sum_add]

/-- Marks the access in a slot as charged and gives it back. -/
def take? (c : Capture ι) (slot : Nat) : Option (Access × Capture ι) :=
  c.log[slot]?.map fun a => (a.charge, { c with log := c.log.modify slot Access.charge })

/-- Drops the access in front and gives it back. -/
def dropFirst? (c : Capture ι) : Option (Access × Capture ι) :=
  match c.log with
  | [] => none
  | a :: rest => some (a, { c with log := rest })

def firstUncharged? (c : Capture ι) : Option Nat := c.log.findIdx? fun a => !a.marks.charged

def sumsAgree (c : Capture ι) : Bool := c.predicted = c.consumed

/-- A register pair as it was when the instruction began. -/
def pair (c : Capture ι) : Pair → UInt16
  | .ir => c.ir
  | .bc => c.bc

def addr (c : Capture ι) (slot : Nat) : UInt16 := (c.log[slot]?.map Access.addr).getD 0

/-! ## Walking the script -/

/-- Whether nothing an element waits for is missing. -/
def unlocks (c : Capture ι) (e : Element) : Bool :=
  e.slot?.all (· < c.log.length) && (!e.optional || c.taken)

/-- The elements from the cursor on that can be charged now. -/
def ready (c : Capture ι) (s : Script) : List Element :=
  (s.elements.drop c.cursor).takeWhile c.unlocks

/-- What an element costs. A port cycle is paid once, whatever the factor. -/
def costs (c : Capture ι) (e : Element) : List Cost :=
  match e.source with
  | .memory slot => List.replicate e.repeats (.memory (c.addr slot) e.cycles)
  | .port slot => [.port (c.addr slot)]
  | .pair p => List.replicate e.repeats (.memory (c.pair p) e.cycles)
  | .idle => List.replicate e.repeats (.idle e.cycles)

/-- Marks the accesses that some of these elements wait for as charged. -/
def mark (c : Capture ι) (es : List Element) : Capture ι :=
  { c with log := c.log.mapIdx fun i a => if es.any (·.slot? = some i) then a.charge else a }

/-- Charges the elements that can be charged now. -/
def walk (c : Capture ι) (s : Script) : Capture ι × List Cost :=
  let es := c.ready s
  let costs := es.flatMap c.costs
  ({ (c.mark es).consume (Cost.total costs) with cursor := c.cursor + es.length }, costs)

/-! ## Finding the script -/

/-- What the logged bytes say of the instruction. -/
def recognize (log : List Access) : Opcode.Finding := Opcode.recognize (log.map Access.value)

/-- Parts the index bytes that collapse from the instruction behind them. -/
def splitCollapsing : List Access → List Access × List Access
  | [] => ([], [])
  | a :: rest =>
    match recognize (a :: rest) with
    | .collapse =>
      let (collapsing, instruction) := splitCollapsing rest
      (a :: collapsing, instruction)
    | _ => ([], a :: rest)

/-- Drops the index bytes in front that collapse; each costs a memory cycle. -/
def collapse (c : Capture ι) : Capture ι × List Cost :=
  let (collapsing, instruction) := splitCollapsing c.log
  ({ c.consume (indexCycles * collapsing.length) with log := instruction },
    collapsing.map fun a => .memory a.addr indexCycles)

def assign (c : Capture ScriptNumber) : Capture ScriptNumber :=
  match recognize c.log with
  | .script id taken => { c with script? := some id, taken := c.taken || taken }
  | _ => c

/-- Finds the script of the instruction, unless it is known already. -/
def resolve (c : Capture ScriptNumber) : Capture ScriptNumber × List Cost :=
  match c.script? with
  | some _ => (c, [])
  | none =>
    let (c, costs) := c.collapse
    (c.assign, costs)

/-- Charges all that the log allows: finds the script and walks it. -/
def settle (v : Variant) (c : Capture ScriptNumber) : Capture ScriptNumber × List Cost :=
  let (c, front) := c.resolve
  match c.script? with
  | none => (c, front)
  | some id =>
    let (c, rest) := c.walk (Standard.script v id)
    (c, front ++ rest)

end Capture

end SpectrumTiming
