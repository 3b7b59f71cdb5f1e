import Mathlib.Algebra.BigOperators.Fin
import SpectrumTiming.Proofs.Delays

/-!
# The delays of a whole frame

From the first contended T-state on, the beam is at one place at a time, and comes to no place twice
(`beam?_eq_some_iff`). Anything is held off only while the beam is at a place the display is fetched
from (`delay_eq_zero`). So the delays of all T-states of a frame are those of the fetched places,
each counted once, unless the frame ends before the last of them. Added up, they come to one line of
the pattern for each of the 192 lines (`sum_delay_eq`).
-/

namespace SpectrumTiming

namespace Ula

open Finset

variable {u : Ula} {t : Nat} {place : Nat × Nat}

/-! ## The fetched places -/

/-- The places the display is fetched from. A short line is fetched as far as it goes. Irreducible,
since there are too many of them to be listed. -/
@[irreducible]
def fetched (u : Ula) : Finset (Nat × Nat) :=
  range fetchedLines ×ˢ range (min fetchedColumns u.line)

/-- The T-state at which the beam comes to a place. -/
def moment (u : Ula) (place : Nat × Nat) : Nat := u.start + (u.line * place.1 + place.2)

theorem mem_fetched : place ∈ u.fetched ↔
    place.1 < fetchedLines ∧ place.2 < fetchedColumns ∧ place.2 < u.line := by
  unfold fetched
  rw [mem_product, mem_range, mem_range, Nat.lt_min]

theorem beam?_moment (hplace : place ∈ u.fetched) : u.beam? (u.moment place) = some place :=
  beam?_eq_some_iff.mpr ⟨rfl, (mem_fetched.mp hplace).2.2⟩

theorem beam?_eq_none_iff : u.beam? t = none ↔ t < u.start := by
  simp [beam?]

/-- The beam comes to no two of them at once. -/
theorem injOn_moment (u : Ula) : Set.InjOn u.moment u.fetched := by
  intro a ha b hb hab
  refine Option.some.inj ?_
  rw [← beam?_moment ha, ← beam?_moment hb, hab]

theorem delay_moment (hplace : place ∈ u.fetched) :
    u.delay (u.moment place) = u.pattern.get (.ofNat 8 place.2) := by
  obtain ⟨hline, hcolumn, -⟩ := mem_fetched.mp hplace
  exact delay_of_beam (beam?_moment hplace) hline hcolumn

/-- Where nothing is fetched, nothing is held off. -/
theorem delay_eq_zero (h : ∀ place ∈ u.fetched, u.moment place ≠ t) : u.delay t = 0 := by
  obtain hnone | ⟨line, column, hbeam, hline, hcolumn⟩ := u.delay_cases t
  · exact hnone
  · obtain ⟨rfl, hwithin⟩ := beam?_eq_some_iff.mp hbeam
    exact absurd rfl (h (line, column) (mem_fetched.mpr ⟨hline, hcolumn, hwithin⟩))

/-! ## Adding up -/

/-- The last fetched place of all is passed within the frame, and the others before it. -/
theorem moment_lt_frame
    (hframe : u.start + (fetchedLines - 1) * u.line + min fetchedColumns u.line ≤ u.frame)
    (hplace : place ∈ u.fetched) : u.moment place < u.frame := by
  obtain ⟨hline, hcolumn, hwithin⟩ := mem_fetched.mp hplace
  have hlines : place.1 * u.line ≤ (fetchedLines - 1) * u.line :=
    Nat.mul_le_mul_right _ (Nat.le_sub_one_of_lt hline)
  unfold moment
  rw [Nat.mul_comm u.line]
  omega

/-- **The delays of a frame are those of one line for each line.** -/
theorem sum_delay_eq
    (hframe : u.start + (fetchedLines - 1) * u.line + min fetchedColumns u.line ≤ u.frame) :
    ∑ t ∈ range u.frame, u.delay t =
      fetchedLines *
        ∑ column ∈ range (min fetchedColumns u.line), u.pattern.get (.ofNat 8 column) := by
  have hplaces : ∑ place ∈ u.fetched, u.pattern.get (.ofNat 8 place.2) =
      ∑ t ∈ range u.frame, u.delay t := by
    -- every fetched place has a T-state of its own, and the other T-states add nothing
    refine sum_of_injOn u.moment u.injOn_moment (fun place hplace => ?_) (fun t _ hnever => ?_)
      fun place hplace => (delay_moment hplace).symm
    · exact mem_coe.mpr (mem_range.mpr (moment_lt_frame hframe hplace))
    · exact delay_eq_zero fun place hplace hat => hnever ⟨place, hplace, hat⟩
  have hlines : ∑ place ∈ u.fetched, u.pattern.get (.ofNat 8 place.2) =
      ∑ _ ∈ range fetchedLines, ∑ column ∈ range (min fetchedColumns u.line),
        u.pattern.get (.ofNat 8 column) := by
    unfold fetched
    exact sum_product ..
  rw [← hplaces, hlines, sum_const, card_range, smul_eq_mul]

/-- The pattern comes round every eight T-states. -/
theorem sum_pattern (u : Ula) (rounds : Nat) :
    ∑ column ∈ range (rounds * 8), u.pattern.get (.ofNat 8 column) =
      rounds * ∑ i, u.pattern.get i := by
  induction rounds with
  | zero => simp
  | succ rounds ih =>
    have hround (i : Fin 8) : Fin.ofNat 8 (rounds * 8 + i) = i :=
      Fin.ext (Nat.mul_add_mod_of_lt i.isLt)
    rw [Nat.succ_mul, sum_range_add, ih, Nat.succ_mul, sum_range]
    simp only [hround]

/--
**The delays of a whole frame.** On any machine, the beam is nowhere before the first contended
T-state and then at one place at each T-state, line by line. If the last display line is fetched
within the frame, the delays of all T-states of the frame come to the pattern along the fetched part
of a line, once for each of the 192 lines. Where the lines are long enough for all of that part,
they come to 3072 times the pattern. Outside the fetched parts of these lines there is no delay.
-/
theorem delays_of_frame (u : Ula) :
    (∀ t, (u.beam? t = none ↔ t < u.start) ∧
      ∀ line column, u.beam? t = some (line, column) ↔
        column < u.line ∧ u.start + line * u.line + column = t) ∧
    (u.start + (fetchedLines - 1) * u.line + min fetchedColumns u.line ≤ u.frame →
      ∑ t ∈ range u.frame, u.delay t =
        fetchedLines *
          ∑ column ∈ range (min fetchedColumns u.line), u.pattern.get (.ofNat 8 column) ∧
      (fetchedColumns ≤ u.line →
        ∑ t ∈ range u.frame, u.delay t = 3072 * ∑ i, u.pattern.get i)) ∧
    ∀ t, (∀ line < fetchedLines, ∀ column < min fetchedColumns u.line,
      u.start + line * u.line + column ≠ t) → u.delay t = 0 := by
  refine ⟨fun t => ⟨beam?_eq_none_iff, fun line column => ?_⟩,
    fun hframe => ⟨sum_delay_eq hframe, fun hwidth => ?_⟩, fun t houtside => ?_⟩
  · rw [beam?_eq_some_iff, Nat.mul_comm line]
    constructor
    · rintro ⟨rfl, hcolumn⟩
      exact ⟨hcolumn, Nat.add_assoc ..⟩
    · rintro ⟨hcolumn, rfl⟩
      exact ⟨Nat.add_assoc .., hcolumn⟩
  · rw [sum_delay_eq hframe, Nat.min_eq_left hwidth]
    have hline := u.sum_pattern 16
    show 192 * ∑ column ∈ range (16 * 8), _ = _
    rw [hline, ← Nat.mul_assoc]
  · refine delay_eq_zero fun place hplace hat => ?_
    obtain ⟨hline, hcolumn, hwithin⟩ := mem_fetched.mp hplace
    refine houtside place.1 hline place.2 (Nat.lt_min.mpr ⟨hcolumn, hwithin⟩) ?_
    rw [← hat, moment, Nat.mul_comm u.line, Nat.add_assoc]

/-- The ZX Spectrum 48K, and the first T-state behind the fetched part of its first line. -/
theorem delays_of_frame_spectrum48k :
    (∑ t ∈ range 69888, spectrum48k.delay t = 64512) ∧ spectrum48k.delay 14463 = 0 := by
  obtain ⟨-, htotal, houtside⟩ := delays_of_frame spectrum48k
  have hpattern : ∑ i, spectrum48k.pattern.get i = 21 := by decide
  refine ⟨?_, houtside 14463 fun line hline column hcolumn => ?_⟩
  · have hsum := (htotal (by decide)).2 (by decide)
    rwa [hpattern] at hsum
  · have hwidth : column < 128 := (Nat.lt_min.mp hcolumn).1
    show 14335 + line * 224 + column ≠ 14463
    omega

end Ula

end SpectrumTiming
