import Mathlib.Algebra.GroupWithZero.Nat
import SpectrumTiming.Capture

/-!
# What the standard scripts have in common

A script has two paths: the elements that are always charged, and these together with the optional
ones. The walk that charges an instruction works because of a few facts about every standard script,
on either chip and either path. They are collected in `Script.Regular` and checked once, for all
seventy-four scripts (`Standard.regular`). The optional elements come last, so a walk that stops in
front of them has charged all others. Every slot up to the highest one of a path belongs to some
element of it, so a walk to the end of the path leaves no access uncharged. The sums a script
carries are those of its elements, and a port cycle counts as the four T-states it takes.

The two chips differ in how the T-states are spread, never in how many there are or in how many
accesses are needed. `Standard.extents` has these numbers, which is all that the durations of the
opcodes have to be compared with.
-/

namespace SpectrumTiming

def Element.isPort (e : Element) : Bool :=
  match e.source with
  | .port _ => true
  | .memory _ | .pair _ | .idle => false

namespace Script

/-- The elements that are charged, according to whether the optional ones are. -/
def path (s : Script) (taken : Bool) : List Element :=
  s.elements.filter fun e => !e.optional || taken

/-- How many accesses a path needs. -/
def slotsOn (s : Script) (taken : Bool) : Nat := slots { s with elements := s.path taken }

/-- T-states of a path, without any delay. -/
def totalOn (s : Script) (taken : Bool) : Nat := s.mandatory + if taken then s.optional else 0

structure Regular (s : Script) : Prop where
  /-- A port cycle is paid once and takes four T-states. -/
  port_total : ∀ e ∈ s.elements, e.isPort = true → e.total = portCycles
  /-- The optional elements come last. -/
  path_first : ∀ taken, s.elements.takeWhile (fun e => !e.optional || taken) = s.path taken
  /-- A path leaves no slot out. -/
  covered : ∀ taken, ∀ i < s.slotsOn taken, ∃ e ∈ s.path taken, e.slot? = some i
  /-- The sums are those of the elements. -/
  sums : ∀ taken, s.totalOn taken = ((s.path taken).map Element.total).sum
  /-- The log has room for every access. -/
  fits : s.slots ≤ logCapacity

instance (s : Script) : Decidable s.Regular :=
  decidable_of_iff
    ((∀ e ∈ s.elements, e.isPort = true → e.total = portCycles) ∧
      (∀ taken, s.elements.takeWhile (fun e => !e.optional || taken) = s.path taken) ∧
      (∀ taken, ∀ i < s.slotsOn taken, ∃ e ∈ s.path taken, e.slot? = some i) ∧
      (∀ taken, s.totalOn taken = ((s.path taken).map Element.total).sum) ∧
      s.slots ≤ logCapacity)
    ⟨fun ⟨h1, h2, h3, h4, h5⟩ => ⟨h1, h2, h3, h4, h5⟩,
      fun ⟨h1, h2, h3, h4, h5⟩ => ⟨h1, h2, h3, h4, h5⟩⟩

theorem mem_path {s : Script} {taken : Bool} {e : Element} :
    e ∈ s.path taken ↔ e ∈ s.elements ∧ (!e.optional || taken) = true :=
  List.mem_filter

@[simp] theorem path_true (s : Script) : s.path true = s.elements := by
  simp [path]

/-- A script needs no more accesses than its elements wait for. -/
theorem slots_le_iff {s : Script} {n : Nat} :
    s.slots ≤ n ↔ ∀ e ∈ s.elements, ∀ slot, e.slot? = some slot → slot < n := by
  -- the maximum found so far is one bound more
  have key : ∀ (es : List Element) (m : Nat),
      es.foldl (fun n e => e.slot?.elim n fun slot => max n (slot + 1)) m ≤ n ↔
        m ≤ n ∧ ∀ e ∈ es, ∀ slot, e.slot? = some slot → slot < n := by
    intro es
    induction es with
    | nil => intro m; simp
    | cons e es ih =>
      intro m
      rw [List.foldl_cons, ih]
      cases hs : e.slot? with
      | none => simp [hs]
      | some slot =>
        simp only [Option.elim_some, List.forall_mem_cons, hs, Option.some.injEq, forall_eq',
          Nat.max_le, Nat.add_one_le_iff, and_assoc]
  unfold slots
  rw [key]
  exact ⟨fun h => h.2, fun h => ⟨Nat.zero_le n, h⟩⟩

theorem slot_lt_slotsOn {s : Script} {taken : Bool} {e : Element} {slot : Nat}
    (he : e ∈ s.path taken) (hs : e.slot? = some slot) : slot < s.slotsOn taken :=
  slots_le_iff.mp (Nat.le_refl (s.slotsOn taken)) e he slot hs

theorem slotsOn_le (s : Script) (taken : Bool) : s.slotsOn taken ≤ s.slots := by
  refine slots_le_iff.mpr ?_
  intro e he slot hs
  exact slots_le_iff.mp (Nat.le_refl s.slots) e (mem_path.mp he).1 slot hs

@[simp] theorem slotsOn_true (s : Script) : s.slotsOn true = s.slots := by
  simp [slotsOn, slots]

/-- The optional elements need no fewer accesses. -/
theorem slotsOn_false_le (s : Script) (taken : Bool) : s.slotsOn false ≤ s.slotsOn taken := by
  cases taken with
  | false => exact Nat.le_refl _
  | true =>
    rw [slotsOn_true]
    exact slotsOn_le s false

end Script

namespace Standard

/-- How long a script is and how much of it is in the log before any optional element. -/
structure Extent where
  mandatory : Nat
  optional : Nat
  /-- Accesses that the mandatory elements need. -/
  slots : Nat
deriving DecidableEq

/-- T-states of a path, without any delay. -/
def Extent.length (x : Extent) (taken : Bool) : Nat := x.mandatory + if taken then x.optional else 0

/-- The extents of the scripts, on either chip. -/
def extents : Vector Extent scriptTotal :=
  #v[⟨4, 0, 1⟩, ⟨8, 0, 2⟩, ⟨9, 0, 2⟩, ⟨6, 0, 1⟩, ⟨11, 0, 1⟩, ⟨15, 0, 2⟩, ⟨7, 0, 2⟩, ⟨7, 0, 2⟩,
    ⟨7, 0, 2⟩, ⟨19, 0, 4⟩, ⟨12, 0, 3⟩, ⟨20, 0, 5⟩, ⟨10, 0, 3⟩, ⟨10, 0, 3⟩, ⟨19, 0, 5⟩, ⟨13, 0, 4⟩,
    ⟨16, 0, 5⟩, ⟨20, 0, 6⟩, ⟨11, 0, 3⟩, ⟨15, 0, 4⟩, ⟨23, 0, 5⟩, ⟨23, 0, 6⟩, ⟨10, 0, 3⟩, ⟨14, 0, 4⟩,
    ⟨5, 6, 1⟩, ⟨11, 0, 3⟩, ⟨10, 7, 3⟩, ⟨7, 5, 2⟩, ⟨8, 5, 2⟩, ⟨18, 0, 4⟩, ⟨11, 0, 3⟩, ⟨12, 0, 3⟩,
    ⟨19, 0, 5⟩, ⟨16, 5, 4⟩, ⟨16, 5, 3⟩, ⟨16, 5, 4⟩, ⟨16, 5, 4⟩]

def extent (id : ScriptNumber) : Extent := extents.get id

/-- The extent a script has. -/
def extentOf (s : Script) : Extent := ⟨s.mandatory, s.optional, s.slotsOn false⟩

theorem checked : ∀ id : ScriptNumber,
    ((script .sinclair id).Regular ∧ extentOf (script .sinclair id) = extent id) ∧
      (script .amstrad id).Regular ∧ extentOf (script .amstrad id) = extent id := by
  decide +kernel

theorem regular (v : Variant) (id : ScriptNumber) : (script v id).Regular := by
  cases v with
  | none => exact (checked id).1.1
  | sinclair => exact (checked id).1.1
  | amstrad => exact (checked id).2.1

theorem extentOf_script (v : Variant) (id : ScriptNumber) :
    extentOf (script v id) = extent id := by
  cases v with
  | none => exact (checked id).1.2
  | sinclair => exact (checked id).1.2
  | amstrad => exact (checked id).2.2

theorem totalOn_script (v : Variant) (id : ScriptNumber) (taken : Bool) :
    (script v id).totalOn taken = (extent id).length taken := by
  rw [← extentOf_script v id]
  rfl

theorem slotsOn_script (v : Variant) (id : ScriptNumber) :
    (script v id).slotsOn false = (extent id).slots := by
  rw [← extentOf_script v id]
  rfl

end Standard

end SpectrumTiming
