import SpectrumTiming.Proofs.Frames
import SpectrumTiming.Proofs.Schedule

/-!
# Bounds that every reachable timer keeps

The clock of a timer stays within its frame, it never counts more frames than T-states, and the log
never outgrows its capacity. A new timer is within these bounds, and every operation that does not
fault keeps them (`InBounds.step`). The two totals are only ever compared with each other, so this
also says that the frames need no counter wider than the T-states do.
-/

namespace SpectrumTiming

namespace Clock

/-- A clock that shows a T-state of the frame, and no more frames than T-states. -/
structure InBounds (u : Ula) (c : Clock) : Prop where
  counter_lt : c.counter < u.frame
  frames_le : c.frames ≤ c.elapsed

theorem inBounds_new (u : Ula) : InBounds u {} := ⟨u.frame_pos, Nat.le_refl 0⟩

variable {u : Ula} {c : Clock}

/-- From within the frame, no more ends of frames can be passed than T-states. -/
theorem InBounds.advance (h : c.InBounds u) (cycles : Nat) : (c.advance u cycles).InBounds u where
  counter_lt := counter_advance_lt u c cycles
  frames_le := by
    have hpassed : (c.counter + cycles) / u.frame ≤ cycles := by
      refine Nat.lt_succ_iff.mp ((Nat.div_lt_iff_lt_mul u.frame_pos).mpr ?_)
      have hmul : cycles ≤ cycles * u.frame := Nat.le_mul_of_pos_right _ u.frame_pos
      have hcounter := h.counter_lt
      rw [Nat.succ_mul]
      omega
    exact Nat.add_le_add h.frames_le hpassed

theorem InBounds.setCounter (h : c.InBounds u) (tstate : Nat) :
    (c.setCounter u tstate).InBounds u where
  counter_lt := Nat.mod_lt _ u.frame_pos
  frames_le := h.frames_le

theorem InBounds.payAll (h : c.InBounds u) (xs : List Cost) : (c.payAll u xs).InBounds u :=
  payAll_induction (fun _ n hc => hc.advance n) h xs

end Clock

namespace Timer

/-- A timer whose clock is within its bounds and whose log is within its capacity. -/
structure InBounds (t : Timer) : Prop where
  clock : t.clock.InBounds t.ula
  fits : t.capture.log.length ≤ logCapacity

/-- The timer of a described machine. -/
theorem ofMachine_eq_ok {m : Machine} {display : Bool} {t : Timer}
    (h : ofMachine m display = .ok t) : ∃ u, m.ula = .ok u ∧ t = { ula := u, display } := by
  obtain ⟨u, hu, rfl⟩ := exists_of_map_eq_ok h
  exact ⟨u, hu, rfl⟩

theorem inBounds_new (u : Ula) (display : Bool) : InBounds { ula := u, display } :=
  ⟨Clock.inBounds_new u, Nat.zero_le _⟩

variable {t after : Timer}

/-- An access is passed over while nothing is captured; else there must be room for it. -/
theorem record_eq_ok {a : Access} :
    t.record a = .ok after ↔ (t.capture.active = false ∧ t = after) ∨
      (t.capture.active = true ∧ t.capture.log.length < logCapacity ∧
        Timer.settle { t with capture := t.capture.push a } = after) := by
  cases hactive : t.capture.active with
  | false => simp [record_of_idle hactive]
  | true =>
    cases hfull : t.capture.isFull with
    | true =>
      have hlen : ¬ t.capture.log.length < logCapacity := by
        simpa [Capture.isFull] using hfull
      simp [record_of_full hactive hfull, hlen]
    | false =>
      have hlen : t.capture.log.length < logCapacity := by simpa [Capture.isFull] using hfull
      simp [record_of_room hactive hfull, hlen]

/-- The end of an instruction only ends the capturing. -/
theorem eq_of_finish (hs : t.finish = .ok after) :
    after = { t with capture := { t.capture with active := false } } := by
  unfold finish at hs
  split at hs
  · rename_i hidle
    cases hs
    have hsame : { t.capture with active := false } = t.capture := by
      rw [← (by simpa using hidle : t.capture.active = false)]
    rw [hsame]
  · split at hs
    · exact (Except.ok.inj hs).symm
    · simp at hs

/-- T-states pass or they do not, and the capture may count them. -/
theorem elapse_cases (t : Timer) (kind : TimeKind) (cycles : Nat) :
    ∃ capture, capture.active = t.capture.active ∧ capture.log = t.capture.log ∧
      capture.start = t.capture.start ∧
      (t.elapse kind cycles = { t with capture } ∨
        t.elapse kind cycles = { t.advance cycles with capture }) := by
  cases kind with
  | documented =>
    by_cases hactive : t.capture.active = true
    · exact ⟨t.capture.predict cycles, rfl, rfl, rfl, .inl (if_pos hactive)⟩
    · exact ⟨t.capture, rfl, rfl, rfl, .inr (if_neg hactive)⟩
  | base =>
    by_cases hactive : t.capture.active = true
    · exact ⟨t.capture.consume cycles, rfl, rfl, rfl, .inr (if_pos hactive)⟩
    · exact ⟨t.capture, rfl, rfl, rfl, .inr (if_neg hactive)⟩
  | interrupt => exact ⟨t.capture, rfl, rfl, rfl, .inr rfl⟩
  | delay => exact ⟨t.capture, rfl, rfl, rfl, .inr rfl⟩

/-- A taken path is noted, and what it allows is charged while something is captured. -/
theorem confirm_cases (t : Timer) :
    t.confirm = { t with capture := { t.capture with taken := true } } ∨
      t.confirm = settle { t with capture := { t.capture with taken := true } } := by
  cases hactive : t.capture.active with
  | false => exact .inl (confirm_of_idle hactive)
  | true => exact .inr (confirm_of_active hactive)

/-- No operation touches the machine or the display. -/
theorem step_machine {op : Op} (hs : t.step op = .ok after) :
    after.ula = t.ula ∧ after.display = t.display := by
  cases op with
  | begin bc ir =>
    cases hs
    unfold begin
    split <;> exact ⟨rfl, rfl⟩
  | finish =>
    rw [eq_of_finish hs]
    exact ⟨rfl, rfl⟩
  | elapse kind cycles =>
    cases hs
    obtain ⟨capture, -, -, -, helapse | helapse⟩ := t.elapse_cases kind cycles
    · rw [helapse]
      exact ⟨rfl, rfl⟩
    · rw [helapse]
      exact ⟨rfl, rfl⟩
  | record a =>
    rcases record_eq_ok.mp hs with ⟨-, rfl⟩ | ⟨-, -, rfl⟩
    · exact ⟨rfl, rfl⟩
    · exact ⟨rfl, rfl⟩
  | confirm =>
    cases hs
    rcases t.confirm_cases with hconfirm | hconfirm
    · rw [hconfirm]
      exact ⟨rfl, rfl⟩
    · rw [hconfirm]
      exact ⟨rfl, rfl⟩
  | advance cycles => cases hs; exact ⟨rfl, rfl⟩
  | setCounter tstate => cases hs; exact ⟨rfl, rfl⟩
  | setBank bank => cases hs; exact ⟨rfl, rfl⟩
  | reset => cases hs; exact ⟨rfl, rfl⟩

theorem ula_run {ops : List Op} (hrun : t.run ops = .ok after) : after.ula = t.ula := by
  induction ops generalizing t with
  | nil =>
    cases hrun
    rfl
  | cons op ops ih =>
    obtain ⟨next, hs, hnext⟩ := run_cons_eq_ok.mp hrun
    exact (ih hnext).trans (step_machine hs).1

theorem InBounds.settle (h : t.InBounds) : t.settle.InBounds where
  clock := h.clock.payAll _
  fits := Nat.le_trans (Capture.settle_length_le t.ula.variant t.capture) h.fits

theorem InBounds.elapse (h : t.InBounds) (kind : TimeKind) (cycles : Nat) :
    (t.elapse kind cycles).InBounds := by
  obtain ⟨capture, -, hlog, -, helapse⟩ := t.elapse_cases kind cycles
  have hfits : capture.log.length ≤ logCapacity := by
    rw [hlog]
    exact h.fits
  rcases helapse with helapse | helapse
  · rw [helapse]
    exact ⟨h.clock, hfits⟩
  · rw [helapse]
    exact ⟨h.clock.advance cycles, hfits⟩

theorem InBounds.record (h : t.InBounds) {a : Access} (hs : t.record a = .ok after) :
    after.InBounds := by
  rcases record_eq_ok.mp hs with ⟨-, rfl⟩ | ⟨-, hroom, rfl⟩
  · exact h
  · have hpush : InBounds { t with capture := t.capture.push a } := by
      refine ⟨h.clock, ?_⟩
      show (t.capture.log ++ [a]).length ≤ logCapacity
      rw [List.length_append]
      exact hroom
    exact hpush.settle

/-- **Every operation keeps the bounds.** -/
theorem InBounds.step (h : t.InBounds) {op : Op} (hs : t.step op = .ok after) :
    after.InBounds := by
  cases op with
  | begin bc ir =>
    cases hs
    unfold Timer.begin
    split
    · exact ⟨h.clock, Nat.zero_le _⟩
    · exact ⟨h.clock, h.fits⟩
  | finish =>
    rw [eq_of_finish hs]
    exact ⟨h.clock, h.fits⟩
  | elapse kind cycles =>
    cases hs
    exact h.elapse kind cycles
  | record a => exact h.record hs
  | confirm =>
    cases hs
    have htaken : InBounds { t with capture := { t.capture with taken := true } } :=
      ⟨h.clock, h.fits⟩
    rcases t.confirm_cases with hconfirm | hconfirm
    · rw [hconfirm]
      exact htaken
    · rw [hconfirm]
      exact htaken.settle
  | advance cycles => cases hs; exact ⟨h.clock.advance cycles, h.fits⟩
  | setCounter tstate => cases hs; exact ⟨h.clock.setCounter tstate, h.fits⟩
  | setBank bank => cases hs; exact ⟨⟨h.clock.counter_lt, h.clock.frames_le⟩, h.fits⟩
  | reset => cases hs; exact ⟨Clock.inBounds_new t.ula, h.fits⟩

theorem InBounds.run (h : t.InBounds) {ops : List Op} (hrun : t.run ops = .ok after) :
    after.InBounds := by
  induction ops generalizing t with
  | nil =>
    cases hrun
    exact h
  | cons op ops ih =>
    obtain ⟨next, hs, hnext⟩ := run_cons_eq_ok.mp hrun
    exact ih (h.step hs) hnext

end Timer

end SpectrumTiming
