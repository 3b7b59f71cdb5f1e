import Mathlib.Order.Monotone.Basic
import SpectrumTiming.Proofs.ContentionClass
import SpectrumTiming.Proofs.Frames
import SpectrumTiming.Proofs.PairIndependence

/-!
# Starting later is not finishing earlier

The longer an access has to wait for the ULA, the earlier it came: on the Ferranti machines the
delays fall by one from T-state to T-state and are down to nothing before they rise again, so an
access that comes a T-state later is served at the same time or later (`Ula.KeepsOrder`). That holds
inside a line, where the line ends and where the display or the frame does (`Falling.keepsOrder`).

Of two clocks that go through the same phases the one behind then stays behind, or they meet
(`lasting_trails`). Which accesses are charged does not depend on the clock, so a whole run that
starts later in the frame cannot finish earlier (`run_startingAt`). The gate array is still holding
accesses off when the fetched part of a line ends, and there it does let a later access overtake an
earlier one (`not_keepsOrder_spectrumPlus3`).
-/

namespace SpectrumTiming

/-! ## The delays in their order -/

namespace Ula

/-- The ZX Spectrum 128K, read. It has the lines and frames of the +3 and the pattern of the 48K. -/
def spectrum128k : Ula :=
  { spectrumPlus3 with
    variant := .sinclair, pattern := spectrum48k.pattern, start := 14361, banks := [1, 3, 5, 7] }

/-- An access that comes later is served no earlier. Times go on over the ends of frames. -/
def KeepsOrder (u : Ula) : Prop := Monotone fun time => time + u.delay (time % u.frame)

/-- No delay of the pattern is longer by more than one than what comes after it, in the pattern or
behind its end, and all display lines are within the frame. -/
structure Falling (u : Ula) : Prop where
  falls (i : Fin 7) : u.pattern[i.val] ≤ u.pattern[i.val + 1] + 1
  ends : u.pattern[7] ≤ 1
  width : fetchedColumns ≤ u.line
  height : u.start + fetchedLines * u.line ≤ u.frame

variable {u : Ula}

theorem Falling.delay_le (h : u.Falling) (counter : Nat) :
    u.delay counter ≤ u.delay (counter + 1) + 1 := by
  obtain hnone | ⟨line, column, hbeam, hline, hcolumn⟩ := u.delay_cases counter
  · omega
  have hdelay := delay_of_beam hbeam hline hcolumn
  by_cases hlast : column % 8 = 7
  · -- the pattern may start again, or the line may end
    have hends := h.ends
    simp only [hdelay, hlast]
    omega
  · obtain ⟨hcounter, -⟩ := beam?_eq_some_iff.mp hbeam
    have hwidth := h.width
    have hnext : column + 1 < fetchedColumns := by
      unfold fetchedColumns at hcolumn ⊢
      omega
    have hbeam' : u.beam? (counter + 1) = some (line, column + 1) :=
      beam?_eq_some_iff.mpr ⟨by omega, by omega⟩
    have hstep : (column + 1) % 8 = column % 8 + 1 := by omega
    have hfalls := h.falls ⟨column % 8, by omega⟩
    rw [hdelay, delay_of_beam hbeam' hline hnext]
    simp only [hstep]
    exact hfalls

theorem Falling.delay_last (h : u.Falling) {counter : Nat} (hlast : counter + 1 = u.frame) :
    u.delay counter ≤ 1 := by
  obtain hnone | ⟨line, column, hbeam, hline, hcolumn⟩ := u.delay_cases counter
  · omega
  · -- only the last fetched T-state of the last line can be the last of the frame
    have hdelay := delay_of_beam hbeam hline hcolumn
    obtain ⟨hcounter, -⟩ := beam?_eq_some_iff.mp hbeam
    have hheight := h.height
    have hwidth := h.width
    have hends := h.ends
    unfold fetchedLines at hheight hline
    unfold fetchedColumns at hwidth hcolumn
    have hlines : u.line * line ≤ u.line * 191 := Nat.mul_le_mul_left _ (by omega)
    have hcolumn' : column % 8 = 7 := by omega
    simp only [hdelay, hcolumn']
    exact hends

theorem Falling.keepsOrder (h : u.Falling) : u.KeepsOrder := by
  refine monotone_nat_of_le_succ fun time => ?_
  have hmod : (time + 1) % u.frame = (time % u.frame + 1) % u.frame := (Nat.mod_add_mod ..).symm
  have hlt : time % u.frame + 1 ≤ u.frame := Nat.mod_lt time u.frame_pos
  show time + u.delay (time % u.frame) ≤ time + 1 + u.delay ((time + 1) % u.frame)
  rcases Nat.lt_or_eq_of_le hlt with hwithin | hover
  · have hdelay := h.delay_le (time % u.frame)
    rw [hmod, Nat.mod_eq_of_lt hwithin]
    omega
  · have hdelay := h.delay_last hover
    omega

theorem falling_spectrum48k : Falling .spectrum48k where
  falls := by decide
  ends := by decide
  width := by decide
  height := by decide

theorem falling_spectrum128k : Falling .spectrum128k where
  falls := by decide
  ends := by decide
  width := by decide
  height := by decide

/-- In the last fetched T-state of a line the gate array still holds accesses off for two. -/
theorem not_keepsOrder_spectrumPlus3 : ¬ KeepsOrder .spectrumPlus3 := by
  intro h
  exact absurd (h (Nat.le_succ 14487)) (by decide)

end Ula

theorem Machine.ula_spectrum128k : spectrum128k.ula = .ok .spectrum128k := by
  rfl

/-! ## One clock behind the other -/

namespace Clock

variable {u : Ula} {c₀ d₀ c d : Clock}

/-- Of two clocks that were started in a frame, the first has come no further than the second. -/
structure Trails (u : Ula) (c₀ d₀ c d : Clock) : Prop where
  bank : d.bank = c.bank
  moved : ∃ m n, MovedBy u c₀ c m ∧ MovedBy u d₀ d n ∧ c₀.counter + m ≤ d₀.counter + n

theorem lasting_trails (hu : u.KeepsOrder) (c₀ d₀ : Clock) : Lasting u (Trails u c₀ d₀) where
  bank h := h.bank
  pass := by
    rintro c d ⟨hbank, m, n, hm, hn, hbehind⟩ p
    refine ⟨hbank, _, _, hm.advance _, hn.advance _, ?_⟩
    have hserved : c₀.counter + m + u.delay ((c₀.counter + m) % u.frame) ≤
        d₀.counter + n + u.delay ((d₀.counter + n) % u.frame) := hu hbehind
    simp only [delay, hm.counter, hn.counter]
    split <;> omega

end Clock

/-! ## Two runs -/

namespace Timer

/-- Whether an operation moves the clock otherwise than by letting T-states pass. -/
def Op.relocates : Op → Bool
  | .setCounter _ | .reset => true
  | _ => false

theorem Op.keeps_trails {u : Ula} (c₀ d₀ : Clock) {op : Op} (h : op.relocates = false) :
    op.Keeps u (Clock.Trails u c₀ d₀) := by
  cases op with
  | setCounter tstate => cases h
  | reset => cases h
  | setBank bank =>
    rintro c d ⟨-, m, n, hm, hn, hbehind⟩
    exact ⟨rfl, m, n, ⟨hm.elapsed, hm.counter⟩, ⟨hn.elapsed, hn.counter⟩, hbehind⟩
  | _ => exact trivial

/-- The timer with its clock at another T-state of the frame. -/
def startingAt (t : Timer) (tstate : Nat) : Timer :=
  { t with clock := { t.clock with counter := tstate } }

/-- **A run that starts later is behind all the way.** -/
theorem trails_startingAt {t : Timer} (hu : t.ula.KeepsOrder) {a b : Nat} (hab : a ≤ b)
    (hb : b < t.ula.frame) {ops : List Op} (hops : ∀ op ∈ ops, op.relocates = false) :
    SameOutcome (fun r s => Clock.Trails t.ula (t.startingAt a).clock (t.startingAt b).clock
      r.clock s.clock) ((t.startingAt a).run ops) ((t.startingAt b).run ops) := by
  have hstart : Similar t.ula (Clock.Trails t.ula (t.startingAt a).clock (t.startingAt b).clock)
      (t.banksOf ops) (t.startingAt a) (t.startingAt b) := by
    refine ⟨rfl, rfl, ⟨rfl, 0, 0, ⟨rfl, ?_⟩, ⟨rfl, ?_⟩, hab⟩, List.mem_cons_self, .refl ..⟩
    · exact (Nat.mod_eq_of_lt (Nat.lt_of_le_of_lt hab hb)).symm
    · exact (Nat.mod_eq_of_lt hb).symm
  rcases Similar.run (.refl ..) hstart (Clock.lasting_trails hu _ _)
      (fun op hop => Op.keeps_trails _ _ (hops op hop)) (fun _ hop _ => t.mem_banksOf hop) with
    hfault | ⟨r, s, hr, hs, hsame⟩
  · exact .inl hfault
  · exact .inr ⟨r, s, hr, hs, hsame.clock⟩

/--
**Starting later is not finishing earlier.** Take a ZX Spectrum 48K or 128K in any state, and start
it at two T-states of the frame. Do the same things with both, whatever they are as long as the
counter is not set and the clock not reset. At any moment both have met the same fault, or neither
has met any and the one that started later is still behind, or they are level.
-/
theorem run_startingAt {m : Machine} (hm : m = .spectrum48k ∨ m = .spectrum128k) {t : Timer}
    (hu : m.ula = .ok t.ula) {a b : Nat} (hab : a ≤ b) (hb : b < t.ula.frame) {ops : List Op}
    (hops : ∀ op ∈ ops, op.relocates = false) (n : Nat) :
    (∃ f, (t.startingAt a).run (ops.take n) = .error f ∧
      (t.startingAt b).run (ops.take n) = .error f) ∨
    ∃ r s x y, (t.startingAt a).run (ops.take n) = .ok r ∧
      (t.startingAt b).run (ops.take n) = .ok s ∧ r.clock.elapsed = t.clock.elapsed + x ∧
      s.clock.elapsed = t.clock.elapsed + y ∧ a + x ≤ b + y := by
  have horder : t.ula.KeepsOrder := by
    rcases hm with rfl | rfl
    · rw [← Except.ok.inj (Machine.ula_spectrum48k.symm.trans hu)]
      exact Ula.falling_spectrum48k.keepsOrder
    · rw [← Except.ok.inj (Machine.ula_spectrum128k.symm.trans hu)]
      exact Ula.falling_spectrum128k.keepsOrder
  rcases trails_startingAt horder hab hb (fun op hop => hops op (List.mem_of_mem_take hop)) with
    hfault | ⟨r, s, hr, hs, -, x, y, hx, hy, hbehind⟩
  · exact .inl hfault
  · exact .inr ⟨r, s, x, y, hr, hs, hx.elapsed, hy.elapsed, hbehind⟩

/-- `LD A,(nn)` in bank 5 of the 128K, begun just before the first contended T-state and at it. -/
theorem run_startingAt_load :
    let load : List Op := [.setBank 5, .begin 0 0, .record ⟨0xC000, 0x3A, .memoryRead, ""⟩,
      .record ⟨0xC001, 0x00, .memoryRead, ""⟩, .record ⟨0xC002, 0x50, .memoryRead, ""⟩,
      .record ⟨0x5000, 0x12, .memoryRead, ""⟩, .elapse .documented 13, .finish]
    ∃ r s, (startingAt { ula := .spectrum128k } 14360).run load = .ok r ∧
      (startingAt { ula := .spectrum128k } 14361).run load = .ok s ∧
      14360 + r.clock.elapsed ≤ 14361 + s.clock.elapsed := by
  intro load
  have hstay : ∀ op ∈ load, op.relocates = false := by decide
  rcases run_startingAt (.inr rfl) (t := { ula := .spectrum128k }) Machine.ula_spectrum128k
      (show 14360 ≤ 14361 by decide) (by decide) hstay 8 with
    ⟨f, hfault, -⟩ | ⟨r, s, x, y, hr, hs, hx, hy, hbehind⟩
  · exact absurd hfault (ne_error_of_isOk (by decide +kernel))
  · refine ⟨r, s, hr, hs, ?_⟩
    rw [hx, hy]
    show 14360 + (0 + x) ≤ 14361 + (0 + y)
    rwa [Nat.zero_add, Nat.zero_add]

end Timer

end SpectrumTiming
