import SpectrumTiming.Clock

/-!
# Costs

What an instruction costs is a list of memory cycles, port cycles and idle T-states. A cost falls
into phases, each of which either may be held off by the ULA before it starts or not. How many
T-states the phases of a cost last is the same on every machine (`total_phases`); only which of them
may be held off depends on the machine, the bank paged in and the address.

The clock moves phase by phase, so that the delay in front of each is the one at its own T-state.
-/

namespace SpectrumTiming

/-- Something T-states are spent on. -/
inductive Cost
  /-- T-states in which nothing can be held off. -/
  | idle (cycles : Nat)
  /-- T-states with a memory address on the bus. -/
  | memory (addr : UInt16) (cycles : Nat)
  /-- A port cycle. -/
  | port (addr : UInt16)
deriving DecidableEq

/-- A stretch of T-states that is held off as a whole, if at all. -/
structure Phase where
  /-- Whether the ULA may hold it off. -/
  held : Bool
  cycles : Nat
deriving DecidableEq

/-- T-states without any delay. -/
def Cost.cycles : Cost → Nat
  | .idle n | .memory _ n => n
  | .port _ => 4

/-- T-states of costs one after the other, without any delay. -/
def Cost.total : List Cost → Nat
  | [] => 0
  | x :: xs => x.cycles + total xs

/-- T-states of phases one after the other, without any delay. -/
def Phase.total : List Phase → Nat
  | [] => 0
  | p :: ps => p.cycles + total ps

theorem Cost.total_append (xs ys : List Cost) : total (xs ++ ys) = total xs + total ys := by
  induction xs with
  | nil => simp [total]
  | cons x xs ih => simp only [List.cons_append, total, ih, Nat.add_assoc]

namespace Ula

/-- The phases of a port cycle. The Ferranti ULA contends its own ports, the even ones, and those
whose address lies in the display part of memory; the gate array contends none. -/
def portPhases (u : Ula) (port : UInt16) : List Phase :=
  match u.variant with
  | .amstrad => [⟨false, 4⟩]
  | .none | .sinclair =>
    if inDisplayBank port then
      if port % 2 = 0 then [⟨true, 1⟩, ⟨true, 3⟩] else List.replicate 4 ⟨true, 1⟩
    else
      if port % 2 = 0 then [⟨false, 1⟩, ⟨true, 3⟩] else [⟨false, 4⟩]

/-- The phases of a cost while the given bank is paged in. -/
def phases (u : Ula) (bank : Nat) : Cost → List Phase
  | .idle n => [⟨false, n⟩]
  | .memory addr n => [⟨u.contended bank addr, n⟩]
  | .port addr => u.portPhases addr

theorem total_phases (u : Ula) (bank : Nat) (x : Cost) :
    Phase.total (u.phases bank x) = x.cycles := by
  cases x with
  | idle n => rfl
  | memory addr n => rfl
  | port addr =>
    unfold phases portPhases
    cases u.variant with
    | amstrad => rfl
    | none => simp only; split <;> split <;> rfl
    | sinclair => simp only; split <;> split <;> rfl

end Ula

namespace Clock

/-- Lets a phase pass, with the delay in front of it. -/
def passPhase (u : Ula) (c : Clock) (p : Phase) : Clock :=
  c.advance u ((if p.held then c.delay u else 0) + p.cycles)

/-- Lets the phases of a cost pass. -/
def pay (u : Ula) (c : Clock) (x : Cost) : Clock := (u.phases c.bank x).foldl (passPhase u) c

/-- Lets costs pass, one after the other. -/
def payAll (u : Ula) (c : Clock) (xs : List Cost) : Clock := xs.foldl (pay u) c

theorem payAll_append (u : Ula) (c : Clock) (xs ys : List Cost) :
    c.payAll u (xs ++ ys) = (c.payAll u xs).payAll u ys := List.foldl_append

end Clock

end SpectrumTiming
