import SpectrumTiming.Proofs.Bounds
import SpectrumTiming.Proofs.Checked

/-!
# Where a timer can stop

A timer stops in two places, and says so: where an access of a captured instruction is to be logged
and six are there already, and where a captured instruction ends with accesses or T-states that do
not add up (`GivesUp`). Nothing else stops it, whatever machine it is for and whatever it is asked
for, in whatever order (`stops_only_to_give_up`).

That the log has six accesses when it is full, and never more, takes the bounds that every reachable
timer keeps. That there is nothing else to stop it is what the checked timer comes to.
-/

namespace SpectrumTiming

namespace Timer

/-- The two places where a timer gives up. -/
inductive GivesUp (t : Timer) : Op → Fault → Prop
  | logFull (a : Access) (hactive : t.capture.active = true) (hfull : t.capture.log.length = 6) :
      GivesUp t (.record a) .logFull
  | unreconciled (hactive : t.capture.active = true) (hsums : t.reconciles = false) :
      GivesUp t .finish .unreconciled

theorem finish_eq_error_iff {t : Timer} {f : Fault} :
    t.finish = .error f ↔ GivesUp t .finish f := by
  constructor
  · intro hs
    unfold finish at hs
    split at hs
    · simp at hs
    · rename_i hactive
      split at hs
      · simp at hs
      · rename_i hsums
        cases hs
        exact .unreconciled (by simpa using hactive) (by simpa using hsums)
  · rintro ⟨⟩
    rename_i hactive hsums
    simp [finish, hactive, hsums]

theorem record_eq_error_iff {t : Timer} (h : t.capture.log.length ≤ logCapacity) {a : Access}
    {f : Fault} : t.record a = .error f ↔ GivesUp t (.record a) f := by
  have hsix : logCapacity = 6 := rfl
  constructor
  · intro hs
    unfold record at hs
    split at hs
    · simp at hs
    · rename_i hactive
      split at hs
      · rename_i hfull
        cases hs
        refine .logFull a (by simpa using hactive) ?_
        have hlen : logCapacity ≤ t.capture.log.length := by simpa [Capture.isFull] using hfull
        omega
      · simp at hs
  · rintro ⟨⟩
    rename_i hactive hfull
    exact record_of_full hactive (by simp [Capture.isFull, hfull, hsix]) a

/-- **One operation**: within its bounds, a timer faults exactly where it gives up. -/
theorem InBounds.step_eq_error_iff {t : Timer} (h : t.InBounds) {op : Op} {f : Fault} :
    t.step op = .error f ↔ t.GivesUp op f := by
  cases op with
  | finish => exact finish_eq_error_iff
  | record a => exact record_eq_error_iff h.fits
  | _ => exact iff_of_false nofun nofun

/-- A run faults at its first operation that does. -/
theorem run_eq_error_iff {ops : List Op} {t : Timer} {f : Fault} :
    t.run ops = .error f ↔ ∃ front op rest before, ops = front ++ op :: rest ∧
      t.run front = .ok before ∧ before.step op = .error f := by
  induction ops generalizing t with
  | nil =>
    refine ⟨nofun, ?_⟩
    rintro ⟨front, op, rest, before, hops, -⟩
    simp at hops
  | cons op ops ih =>
    constructor
    · intro hrun
      rw [run_cons] at hrun
      cases hs : t.step op with
      | error g =>
        rw [hs] at hrun
        cases hrun
        exact ⟨[], op, ops, t, rfl, rfl, hs⟩
      | ok next =>
        rw [hs] at hrun
        obtain ⟨front, op', rest, before, rfl, hfront, hstop⟩ := ih.mp hrun
        exact ⟨op :: front, op', rest, before, rfl, run_cons_eq_ok.mpr ⟨next, hs, hfront⟩, hstop⟩
    · rintro ⟨front, op', rest, before, hops, hfront, hstop⟩
      rw [hops, run_append, hfront]
      show before.run (op' :: rest) = _
      rw [run_cons, hstop]
      rfl

end Timer

namespace Checked

/-- The checked timer gets through exactly when the other one does. -/
theorem run_eq_ok_iff {t after : Timer} {ops : List Timer.Op} :
    run t ops = .ok after ↔ t.run ops = .ok after := by
  rw [run_eq]
  cases t.run ops <;> simp [Except.mapError]

/-- Only faults come up, and they do where the other one faults. -/
theorem run_eq_error_iff {t : Timer} {ops : List Timer.Op} {hazard : Hazard} :
    run t ops = .error hazard ↔ ∃ f, hazard = .fault f ∧ t.run ops = .error f := by
  rw [run_eq]
  cases t.run ops with
  | error f => simp [Except.mapError, eq_comm]
  | ok after => simp [Except.mapError]

end Checked

namespace Timer

/--
**A timer stops only to give up.** Take any machine that passes, with or without a display. Its timer
can be built, and however it is used after that, with every divisor, every index and every byte class
checked on the way and every loop on a budget: a run stops if and only if it comes to an operation
where the timer gives up, with one of two messages. It gives up an access of a captured instruction
if six are in the log, and the end of a captured instruction that does not reconcile. Whenever it has
not stopped it is within its bounds, and the clock can be asked for anything. Whatever is in a log can
be dispatched.
-/
theorem stops_only_to_give_up {m : Machine} (hm : m.check = .ok ()) (display : Bool) :
    ∃ t, ofMachine m display = .ok t ∧
      (∀ ops, Checked.run t ops = (t.run ops).mapError Hazard.fault) ∧
      (∀ ops hazard, Checked.run t ops = .error hazard ↔
        ∃ f front op rest before, hazard = .fault f ∧ ops = front ++ op :: rest ∧
          Checked.run t front = .ok before ∧ before.GivesUp op f) ∧
      Fault.logFull.message = "Opcode history list is full" ∧
      Fault.unreconciled.message = "Failed to process opcode history" ∧
      (∀ ops after, Checked.run t ops = .ok after → after.InBounds ∧
        Checked.beam? after.ula after.clock.counter = .ok (after.clock.beam? after.ula) ∧
        Checked.delay after.ula after.clock.counter = .ok (after.clock.delay after.ula) ∧
        ∀ addr, Checked.delayAt after.ula after.clock addr =
          .ok (after.clock.delayAt after.ula addr)) ∧
      ∀ log, Checked.dispatch log = .ok (Capture.recognize log) := by
  obtain ⟨u, hu, -⟩ := exists_of_map_eq_ok hm
  have ht : ofMachine m display = .ok { ula := u, display } := by
    rw [ofMachine, hu]
    rfl
  have hnew : InBounds { ula := u, display } := inBounds_new u display
  refine ⟨_, ht, fun ops => Checked.run_eq _ ops, ?_, rfl, rfl, ?_, Checked.dispatch_eq⟩
  · intro ops hazard
    rw [Checked.run_eq_error_iff]
    constructor
    · rintro ⟨f, rfl, hrun⟩
      obtain ⟨front, op, rest, before, rfl, hfront, hstop⟩ := run_eq_error_iff.mp hrun
      exact ⟨f, front, op, rest, before, rfl, rfl, Checked.run_eq_ok_iff.mpr hfront,
        (hnew.run hfront).step_eq_error_iff.mp hstop⟩
    · rintro ⟨f, front, op, rest, before, rfl, hops, hfront, hgives⟩
      have hfront' := Checked.run_eq_ok_iff.mp hfront
      have hstop := (hnew.run hfront').step_eq_error_iff.mpr hgives
      exact ⟨f, rfl, run_eq_error_iff.mpr ⟨front, op, rest, before, hops, hfront', hstop⟩⟩
  · intro ops after hrun
    exact ⟨hnew.run (Checked.run_eq_ok_iff.mp hrun), Checked.beam?_eq _ _, Checked.delay_eq _ _,
      Checked.delayAt_eq _ _⟩

/-- A machine whose lines and frames last one T-state, and which is nothing but delay. -/
theorem stops_only_to_give_up_tiny :
    Machine.check ⟨.sinclair, "99999999", 0, 1, 1, "05"⟩ = .ok () ∧
      ∃ t, ofMachine ⟨.sinclair, "99999999", 0, 1, 1, "05"⟩ true = .ok t ∧
        ∀ ops, Checked.run t ops = (t.run ops).mapError Hazard.fault := by
  have hm : Machine.check ⟨.sinclair, "99999999", 0, 1, 1, "05"⟩ = .ok () := by rfl
  obtain ⟨t, ht, hrun, -⟩ := stops_only_to_give_up hm true
  exact ⟨hm, t, ht, hrun⟩

end Timer

end SpectrumTiming
