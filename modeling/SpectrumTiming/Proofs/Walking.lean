import Mathlib.Logic.Function.Iterate
import Mathlib.Order.Bounds.Basic
import SpectrumTiming.Proofs.Account
import SpectrumTiming.Proofs.Delays
import SpectrumTiming.Proofs.Grammar
import SpectrumTiming.Proofs.Suspension

/-!
# What one walk does

A walk hands the clock a list of costs, which fall into phases. Here it is said without either: where
the walk stops, how the clock moves past each element in front of that place, and what is different
in the capture afterwards (`Walker.walk_passes`).

The clock is moved once for every delay and once for the T-states behind it, and a delay is asked
for as often as there is something to be held off: with every repetition of an element and, on a
port of the Ferranti ULA, with every part of the cycle.
-/

namespace SpectrumTiming

open Capture

/-! ## Moving the clock past an element -/

namespace Clock

variable (u : Ula)

/-- T-states that are held off first, whatever the address. -/
def held (cycles : Nat) (c : Clock) : Clock := (c.advance u (c.delay u)).advance u cycles

/-- T-states with an address on the bus: held off first if it is contended. -/
def heldAt (addr : UInt16) (cycles : Nat) (c : Clock) : Clock :=
  (c.advance u (c.delayAt u addr)).advance u cycles

/-- A port cycle. The gate array never holds one off. For the other chips two things count: whether
the address lies in the display part of memory, and whether it is odd. -/
def passPort (port : UInt16) (c : Clock) : Clock :=
  match u.variant with
  | .amstrad => c.advance u 4
  | .none | .sinclair =>
    match decide (0x4000 ≤ port ∧ port ≤ 0x7FFF), port.toNat.testBit 0 with
    | false, false => (c.advance u 1).held u 3
    | false, true => c.advance u 4
    | true, false => (c.held u 1).held u 3
    | true, true => (((c.held u 1).held u 1).held u 1).held u 1

end Clock

namespace Capture

variable {ι : Type}

/-- Moves the clock past an element. A port cycle is passed once, whatever the factor. -/
def pass (u : Ula) (c : Capture ι) (k : Clock) (e : Element) : Clock :=
  match e.source with
  | .memory slot => (Clock.heldAt u (c.addr slot) e.cycles)^[e.repeats] k
  | .port slot => k.passPort u (c.addr slot)
  | .pair p => (Clock.heldAt u (c.pair p) e.cycles)^[e.repeats] k
  | .idle => (fun k => k.advance u e.cycles)^[e.repeats] k

/-- An element is held up: its access has not been logged, or it is optional and the optional path
has not been confirmed. -/
def HoldsUp (c : Capture ι) (e : Element) : Prop :=
  (∃ slot, e.slot? = some slot ∧ c.log.length ≤ slot) ∨ (e.optional = true ∧ c.taken = false)

end Capture

/-! ## The clock -/

namespace Clock

variable {u : Ula}

theorem passPhase_held (c : Clock) (n : Nat) : c.passPhase u ⟨true, n⟩ = c.held u n := by
  rw [held, advance_advance]
  rfl

theorem passPhase_free (c : Clock) (n : Nat) : c.passPhase u ⟨false, n⟩ = c.advance u n := by
  simp [passPhase]

theorem pay_idle (c : Clock) (n : Nat) : c.pay u (.idle n) = c.advance u n := c.passPhase_free n

theorem pay_heldAt (c : Clock) (addr : UInt16) (n : Nat) :
    c.pay u (.memory addr n) = c.heldAt u addr n := by
  have hpay : c.pay u (.memory addr n) = c.passPhase u ⟨u.contended c.bank addr, n⟩ := rfl
  rw [hpay, heldAt, delayAt, advance_advance]
  rfl

theorem mod_two_eq_zero_iff (port : UInt16) : port % 2 = 0 ↔ port.toNat.testBit 0 = false := by
  rw [← UInt16.toNat_inj, UInt16.toNat_mod, Nat.testBit_zero, decide_eq_false_iff_not]
  show port.toNat % 2 = 0 ↔ _
  omega

theorem pay_port (c : Clock) (port : UInt16) : c.pay u (.port port) = c.passPort u port := by
  have hpay : c.pay u (.port port) = (u.portPhases port).foldl (passPhase u) c := rfl
  have hdisplay : Ula.inDisplayBank port = decide (0x4000 ≤ port ∧ port ≤ 0x7FFF) := by
    rw [Ula.inDisplayBank, Bool.decide_and]
  rw [hpay, Ula.portPhases, passPort, hdisplay]
  simp only [mod_two_eq_zero_iff]
  cases u.variant with
  | amstrad => exact passPhase_free c 4
  | none | sinclair =>
    cases decide (0x4000 ≤ port ∧ port ≤ 0x7FFF) <;> cases port.toNat.testBit 0 <;>
      simp only [Bool.false_eq_true, reduceCtorEq, if_true, if_false, List.replicate,
        List.foldl_cons, List.foldl_nil, passPhase_held, passPhase_free]

theorem payAll_replicate (x : Cost) (n : Nat) (c : Clock) :
    c.payAll u (List.replicate n x) = (fun k => k.pay u x)^[n] c := by
  induction n generalizing c with
  | zero => rfl
  | succ n ih => exact ih (c.pay u x)

end Clock

namespace Capture

variable {ι : Type} {u : Ula}

theorem payAll_costs (c : Capture ι) (e : Element) (k : Clock) :
    k.payAll u (c.costs e) = c.pass u k e := by
  unfold costs pass
  cases e.source with
  | port slot => exact k.pay_port _
  | idle => simp only [Clock.payAll_replicate, Clock.pay_idle]
  | memory slot | pair p => simp only [Clock.payAll_replicate, Clock.pay_heldAt]

theorem payAll_flatMap_costs (c : Capture ι) (es : List Element) (k : Clock) :
    k.payAll u (es.flatMap c.costs) = es.foldl (c.pass u) k := by
  induction es generalizing k with
  | nil => rfl
  | cons e es ih => rw [List.flatMap_cons, Clock.payAll_append, payAll_costs, ih, List.foldl_cons]

/-! ## Where the walk stops -/

theorem unlocks_eq_false_iff {c : Capture ι} {e : Element} :
    c.unlocks e = false ↔ c.HoldsUp e := by
  rw [unlocks, HoldsUp, Bool.and_eq_false_iff, Bool.or_eq_false_iff]
  cases e.slot? with
  | none => simp
  | some slot => simp

theorem ready_eq_extract (c : Capture ι) (s : Script) :
    c.ready s = s.elements.extract c.cursor (c.cursor + (c.ready s).length) := by
  rw [List.extract_eq_take_drop, Nat.add_sub_cancel_left]
  exact List.prefix_iff_eq_take.mp (List.takeWhile_prefix _)

/-- A walk stops at the first place from the cursor on where there is no element or one that is
held up. -/
theorem isLeast_cursor_walk (c : Capture ι) (s : Script) :
    IsLeast {i | c.cursor ≤ i ∧ ∀ e, s.elements[i]? = some e → c.HoldsUp e}
      (c.cursor + (c.ready s).length) := by
  refine ⟨⟨Nat.le_add_right _ _, fun e he => ?_⟩, fun i hi => ?_⟩
  · rw [← List.getElem?_drop] at he
    exact unlocks_eq_false_iff.mp (getElem?_length_takeWhile he)
  · obtain ⟨hcursor, hstop⟩ := hi
    -- an element that is passed is not held up
    by_contra hlt
    have hpassed : i - c.cursor < (c.ready s).length := by omega
    have hget : s.elements[i]? = some (c.ready s)[i - c.cursor] := by
      have hdrop : (s.elements.drop c.cursor)[i - c.cursor]? = s.elements[i]? := by
        rw [List.getElem?_drop, Nat.add_sub_cancel' hcursor]
      rw [← hdrop]
      exact List.prefix_iff_getElem?.mp (List.takeWhile_prefix _) _ hpassed
    have hunlocks := unlocks_of_mem_ready (List.getElem_mem hpassed)
    have hheld := unlocks_eq_false_iff.mpr (hstop _ hget)
    rw [hunlocks] at hheld
    cases hheld

end Capture

namespace Walker

variable {ι : Type}

/--
**What one walk does.** Whatever the script, the machine, the capture and the clock: the walk stops
at the first place from the cursor on that is behind the last element or where an element is held up,
and stays where it is if the cursor is behind the last element already. The clock moves past the
elements in between, one after the other. Each of them counts as charged for its T-states times its
factor, a port cycle for four, added in 32 bits. The accesses in their slots are marked as charged,
and no others; nothing else is changed in an access, in the log, in the capture or in which bank is
paged in.
-/
theorem walk_passes (u : Ula) (s : Script) (w : Walker ι) :
    let stop := (w.walk u s).capture.cursor
    let passed := s.elements.extract w.capture.cursor stop
    IsLeast {i | w.capture.cursor ≤ i ∧ ∀ e, s.elements[i]? = some e → w.capture.HoldsUp e} stop ∧
    (s.size ≤ w.capture.cursor → stop = w.capture.cursor) ∧
    (w.walk u s).clock = passed.foldl (w.capture.pass u) w.clock ∧
    (w.walk u s).capture.consumed = w.capture.consumed +
      UInt32.ofNat (passed.map fun e => if e.isPort then 4 else e.repeats * e.cycles).sum ∧
    (∀ i, (w.walk u s).capture.log[i]? = w.capture.log[i]?.map fun a : Access =>
      { a with marks := { a.marks with
          charged := a.marks.charged || decide (∃ e ∈ passed, e.slot? = some i) } }) ∧
    (w.walk u s).capture.log.length = w.capture.log.length ∧
    (w.walk u s).capture = { w.capture with
      cursor := stop
      consumed := (w.walk u s).capture.consumed
      log := (w.walk u s).capture.log } ∧
    (w.walk u s).clock.bank = w.clock.bank := by
  intro stop passed
  have hstop : stop = w.capture.cursor + (w.capture.ready s).length := rfl
  have hpassed : passed = w.capture.ready s := (w.capture.ready_eq_extract s).symm
  have hleast := w.capture.isLeast_cursor_walk s
  rw [← hstop] at hleast
  refine ⟨hleast, fun hend => ?_, ?_, ?_, fun i => ?_, ?_, rfl, ?_⟩
  · refine Nat.le_antisymm (hleast.2 ⟨Nat.le_refl _, fun e he => ?_⟩) hleast.1.1
    rw [List.getElem?_eq_none hend] at he
    cases he
  · rw [hpassed]
    exact payAll_flatMap_costs w.capture _ w.clock
  · have hcharge : (fun e : Element => if e.isPort then 4 else e.repeats * e.cycles) =
        Element.charge := by
      funext e
      rw [Element.charge, Element.total, Nat.mul_comm]
      rfl
    rw [hpassed, hcharge, ← total_flatMap_costs_eq_charge w.capture]
    rfl
  · rw [hpassed]
    refine (mark_log_getElem? w.capture (w.capture.ready s) i).trans ?_
    congr 1
    funext a
    by_cases h : ∃ e ∈ w.capture.ready s, e.slot? = some i
    · have hany : (w.capture.ready s).any (·.slot? = some i) = true := by simpa using h
      rw [if_pos hany, decide_eq_true h, Bool.or_true]
      rfl
    · have hany : ¬ (w.capture.ready s).any (·.slot? = some i) = true := by simpa using h
      rw [if_neg hany, decide_eq_false h, Bool.or_false]
  · exact length_mark w.capture _
  · show (w.clock.payAll u _).bank = _
    exact Clock.bank_payAll _ _

/-- The pair IR is asked about with each of five repetitions, and the walk stops where an access is
missing. -/
theorem walk_passes_pair :
    let w : Walker ScriptNumber :=
      ⟨{ ir := 0x4000, log := [⟨0x8000, 0x57, .memoryRead, ""⟩] }, { counter := 14331 }⟩
    let s : Script := .ofElements
      [⟨.memory 0, 4, 1, false⟩, ⟨.pair .ir, 1, 5, false⟩, ⟨.memory 1, 3, 1, false⟩]
    (w.walk .spectrum48k s).capture.cursor = 2 ∧
      (w.walk .spectrum48k s).clock = { counter := 14358, elapsed := 27 } ∧
      (w.walk .spectrum48k s).capture.consumed = 9 := by
  intro w s
  obtain ⟨-, -, hclock, hconsumed, -⟩ := walk_passes .spectrum48k s w
  exact ⟨by decide, hclock.trans (by decide), hconsumed.trans (by decide)⟩

end Walker

end SpectrumTiming
