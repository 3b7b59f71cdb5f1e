import SpectrumTiming.Proofs.Schedule

/-!
# A machine without delays

If all eight delays of the pattern are zero, then nothing is ever held off, whatever the chip and the
address. Paying for costs is then letting their T-states pass (`payAll_of_undelayed`), and what a
timer charges when it settles is to be seen in its clock.
-/

namespace SpectrumTiming

namespace Ula

def Undelayed (u : Ula) : Prop := u.pattern = .replicate 8 0

/-- The ZX Spectrum 48K, had it no delays. -/
def undelayed48k : Ula := { spectrum48k with pattern := .replicate 8 0 }

theorem Undelayed.delay_eq_zero {u : Ula} (h : u.Undelayed) (counter : Nat) :
    u.delay counter = 0 := by
  have hpattern : u.pattern = .replicate 8 0 := h
  unfold delay
  split
  · split
    · rw [hpattern, Vector.getElem_replicate]
    · rfl
  · rfl

end Ula

namespace Clock

variable {u : Ula}

theorem foldl_passPhase_of_undelayed (h : u.Undelayed) : ∀ (ps : List Phase) {c : Clock},
    c.counter < u.frame → ps.foldl (passPhase u) c = c.advance u (Phase.total ps) := by
  intro ps
  induction ps with
  | nil => intro c hc; exact (advance_zero hc).symm
  | cons p ps ih =>
    intro c hc
    have hp : c.passPhase u p = c.advance u p.cycles := by
      simp [passPhase, delay, h.delay_eq_zero]
    rw [List.foldl_cons, hp, ih (counter_advance_lt u c _), advance_advance]
    rfl

theorem payAll_of_undelayed (h : u.Undelayed) : ∀ (xs : List Cost) {c : Clock},
    c.counter < u.frame → c.payAll u xs = c.advance u (Cost.total xs) := by
  intro xs
  induction xs with
  | nil => intro c hc; exact (advance_zero hc).symm
  | cons x xs ih =>
    intro c hc
    have hx : c.pay u x = c.advance u x.cycles := by
      unfold pay
      rw [foldl_passPhase_of_undelayed h _ hc, Ula.total_phases]
    have hcons : c.payAll u (x :: xs) = (c.pay u x).payAll u xs := rfl
    rw [hcons, hx, ih (counter_advance_lt u c _), advance_advance]
    rfl

end Clock

namespace Timer

/-- Without delays the clock moves by what is charged. -/
theorem clock_settle_of_undelayed {t : Timer} (h : t.ula.Undelayed)
    (hcounter : t.clock.counter < t.ula.frame) :
    t.settle.clock =
      t.clock.advance t.ula (Cost.total (Capture.settle t.ula.variant t.capture).2) :=
  Clock.payAll_of_undelayed h _ hcounter

end Timer

end SpectrumTiming
