/-!
# Timing scripts

A script says how the T-states of an instruction are spread over the bus: a list of elements in bus
order, each naming where its address comes from, how many T-states it lasts and how often it is
repeated. An element may be optional: it is charged only once a branch is known to be taken or a
block instruction to repeat.

A script also carries the T-states of its mandatory and of its optional elements, added up as the
elements come in.
-/

namespace SpectrumTiming

/-- A register pair that an internal cycle leaves on the address bus. -/
inductive Pair
  /-- Interrupt vector and refresh counter. -/
  | ir
  | bc
deriving DecidableEq

/-- The two letters a register pair is written with. -/
def Pair.letters : Pair → Char × Char
  | .ir => ('i', 'r')
  | .bc => ('b', 'c')

/-- Where an element takes its address from. -/
inductive Source
  /-- A memory access of the instruction, by its place in the access log. -/
  | memory (slot : Nat)
  /-- A port access of the instruction, by its place in the access log. -/
  | port (slot : Nat)
  /-- A register pair, as it stood when the instruction began. -/
  | pair (p : Pair)
  /-- Nowhere: the element is never held up. -/
  | idle
deriving DecidableEq

/-- One timing unit of a script. -/
structure Element where
  source : Source
  /-- T-states of one repetition, without any delay. -/
  cycles : Nat
  repeats : Nat
  optional : Bool
deriving DecidableEq

namespace Element

/-- The place in the access log that the element waits for. -/
def slot? (e : Element) : Option Nat :=
  match e.source with
  | .memory slot | .port slot => some slot
  | .pair _ | .idle => none

/-- T-states of all repetitions, without any delay. -/
def total (e : Element) : Nat := e.cycles * e.repeats

end Element

/-- The elements of an instruction with the sums of their T-states. -/
structure Script where
  elements : List Element := []
  /-- T-states of the elements that are always charged. -/
  mandatory : Nat := 0
  /-- T-states of the elements that are charged on the optional path. -/
  optional : Nat := 0
deriving DecidableEq

namespace Script

/-- Appends an element and counts it towards its sum. -/
def add (s : Script) (e : Element) : Script where
  elements := s.elements ++ [e]
  mandatory := if e.optional then s.mandatory else s.mandatory + e.total
  optional := if e.optional then s.optional + e.total else s.optional

def size (s : Script) : Nat := s.elements.length

def isEmpty (s : Script) : Bool := s.elements.isEmpty

/-- T-states of the whole script, the optional path included. -/
def total (s : Script) : Nat := s.mandatory + s.optional

/-- How many accesses have to be logged before every element can be charged. -/
def slots (s : Script) : Nat :=
  s.elements.foldl (fun n e => e.slot?.elim n fun slot => max n (slot + 1)) 0

/-- Either sum takes the element in, so the whole does in any case. -/
theorem total_add (s : Script) (e : Element) : (s.add e).total = s.total + e.total := by
  simp only [add, total]
  split <;> omega

end Script

end SpectrumTiming
