import Mathlib.Data.Nat.ModEq
import SpectrumTiming.Proofs.BusTrace
import SpectrumTiming.Proofs.Overtaking

/-!
# How long an instruction takes

When an instruction begins, the timer notes the T-state of the frame. How long the instruction has
been running is not counted but worked out from the T-state of the frame it is now. In between, the
clock has been moved along many ways: by the costs of a script with the delays in front of them, by
index bytes that are taken off the log, by T-states that are not captured. All of them let T-states
pass and leave the note alone (`BegunAt.step`), so the two T-states of the frame are apart by what
has passed, less whole frames (`sinceStart_run`).
-/

namespace SpectrumTiming

namespace Timer

variable {t after : Timer} {c₀ : Clock}

/-- The last instruction began when the clock stood there, and since then T-states have passed. -/
structure BegunAt (c₀ : Clock) (t : Timer) : Prop where
  start : t.capture.start = c₀.counter
  moved : ∃ n, c₀.MovedBy t.ula t.clock n

/-! ## What keeps the note -/

/-- Beginning an instruction makes the note, with or without contention. -/
theorem begunAt_begin (hcounter : t.clock.counter < t.ula.frame) (bc ir : UInt16) :
    (t.begin bc ir).BegunAt t.clock := by
  have hstill : t.clock.MovedBy t.ula t.clock 0 := ⟨rfl, (Nat.mod_eq_of_lt hcounter).symm⟩
  unfold Timer.begin
  split
  · exact ⟨rfl, 0, hstill⟩
  · exact ⟨rfl, 0, hstill⟩

theorem BegunAt.advance (h : t.BegunAt c₀) (cycles : Nat) : (t.advance cycles).BegunAt c₀ := by
  obtain ⟨n, hn⟩ := h.moved
  exact ⟨h.start, n + cycles, hn.advance cycles⟩

theorem BegunAt.settle (h : t.BegunAt c₀) : t.settle.BegunAt c₀ where
  start := by
    obtain ⟨-, hstart, -⟩ := Capture.settle_frame t.ula.variant t.capture
    exact hstart.trans h.start
  moved :=
    Clock.payAll_induction (P := fun c => ∃ n, c₀.MovedBy t.ula c n)
      (fun _ k ⟨n, hn⟩ => ⟨n + k, hn.advance k⟩) h.moved _

/-- The capture may be anything that keeps the note. -/
theorem BegunAt.withCapture (h : t.BegunAt c₀) {capture : Capture ScriptNumber}
    (hstart : capture.start = t.capture.start) : BegunAt c₀ { t with capture } :=
  ⟨hstart.trans h.start, h.moved⟩

theorem BegunAt.elapse (h : t.BegunAt c₀) (kind : TimeKind) (cycles : Nat) :
    (t.elapse kind cycles).BegunAt c₀ := by
  obtain ⟨capture, -, -, hstart, helapse⟩ := t.elapse_cases kind cycles
  rcases helapse with helapse | helapse
  · rw [helapse]
    exact h.withCapture hstart
  · rw [helapse]
    exact (h.advance cycles).withCapture hstart

/-- **Whatever lets T-states pass keeps the note.** -/
theorem BegunAt.step (h : t.BegunAt c₀) {op : Op} (hbegins : op.begins = false)
    (hrelocates : op.relocates = false) (hs : t.step op = .ok after) : after.BegunAt c₀ := by
  cases op with
  | begin bc ir => cases hbegins
  | finish =>
    rw [eq_of_finish hs]
    exact h.withCapture rfl
  | elapse kind cycles =>
    cases hs
    exact h.elapse kind cycles
  | record a =>
    rcases record_eq_ok.mp hs with ⟨-, rfl⟩ | ⟨-, -, rfl⟩
    · exact h
    · have hpush : BegunAt c₀ { t with capture := t.capture.push a } := h.withCapture rfl
      exact hpush.settle
  | confirm =>
    cases hs
    have htaken : BegunAt c₀ { t with capture := { t.capture with taken := true } } :=
      h.withCapture rfl
    rcases t.confirm_cases with hconfirm | hconfirm
    · rw [hconfirm]
      exact htaken
    · rw [hconfirm]
      exact htaken.settle
  | advance cycles =>
    cases hs
    exact h.advance cycles
  | setCounter tstate => cases hrelocates
  | setBank bank =>
    cases hs
    obtain ⟨n, hn⟩ := h.moved
    exact ⟨h.start, n, hn.elapsed, hn.counter⟩
  | reset => cases hrelocates

theorem BegunAt.run (h : t.BegunAt c₀) {ops : List Op}
    (hops : ∀ op ∈ ops, op.begins = false ∧ op.relocates = false) (hrun : t.run ops = .ok after) :
    after.BegunAt c₀ := by
  induction ops generalizing t with
  | nil =>
    cases hrun
    exact h
  | cons op ops ih =>
    obtain ⟨⟨hbegins, hrelocates⟩, hrest⟩ := List.forall_mem_cons.mp hops
    obtain ⟨next, hs, hnext⟩ := run_cons_eq_ok.mp hrun
    exact ih (h.step hbegins hrelocates hs) hrest hnext

/-! ## What the note is for -/

/-- The difference is taken round the frame. -/
theorem BegunAt.sinceStart_eq (h : t.BegunAt c₀) (hcounter : c₀.counter < t.ula.frame) :
    c₀.elapsed ≤ t.clock.elapsed ∧
      t.sinceStart = (t.clock.elapsed - c₀.elapsed) % t.ula.frame := by
  obtain ⟨n, hn⟩ := h.moved
  have hpassed : t.clock.elapsed - c₀.elapsed = n := by
    rw [hn.elapsed, Nat.add_sub_cancel_left]
  have hle : c₀.counter ≤ t.clock.counter + t.ula.frame := by omega
  have hround : t.clock.counter + t.ula.frame - c₀.counter ≡ n [MOD t.ula.frame] := by
    refine Nat.ModEq.add_right_cancel' c₀.counter ?_
    calc t.clock.counter + t.ula.frame - c₀.counter + c₀.counter
        = t.clock.counter + t.ula.frame := Nat.sub_add_cancel hle
      _ ≡ t.clock.counter [MOD t.ula.frame] := Nat.add_modEq_right
      _ = (c₀.counter + n) % t.ula.frame := hn.counter
      _ ≡ c₀.counter + n [MOD t.ula.frame] := Nat.mod_modEq ..
      _ = n + c₀.counter := Nat.add_comm ..
  refine ⟨by rw [hn.elapsed]; exact Nat.le_add_right .., ?_⟩
  unfold sinceStart
  rw [hpassed, h.start]
  exact hround

/-- The same length as it is worked out in words of 32 bits. -/
def sinceStartWord (t : Timer) : UInt32 :=
  (.ofNat t.clock.counter + .ofNat t.ula.frame - .ofNat t.capture.start) % .ofNat t.ula.frame

/-- Nothing is lost in words as long as the sum fits. -/
theorem toNat_sinceStartWord (hstart : t.capture.start ≤ t.clock.counter + t.ula.frame)
    (hfits : t.clock.counter + t.ula.frame < 2 ^ 32) : t.sinceStartWord.toNat = t.sinceStart := by
  have hword {n : Nat} (h : n ≤ t.clock.counter + t.ula.frame) : (UInt32.ofNat n).toNat = n :=
    UInt32.toNat_ofNat_of_lt' (Nat.lt_of_le_of_lt h hfits)
  have hframe : (UInt32.ofNat t.ula.frame).toNat = t.ula.frame := hword (Nat.le_add_left ..)
  have hsum : (UInt32.ofNat t.clock.counter + UInt32.ofNat t.ula.frame).toNat =
      t.clock.counter + t.ula.frame := by
    rw [UInt32.toNat_add, hword (Nat.le_add_right ..), hframe, Nat.mod_eq_of_lt hfits]
  unfold sinceStartWord sinceStart
  rw [UInt32.toNat_mod, UInt32.toNat_sub_of_le _ _ ?_, hsum, hword hstart, hframe]
  rw [UInt32.le_iff_toNat_le, hsum, hword hstart]
  exact hstart

/--
**The length of an instruction is the time since it began, less whole frames.** Let a machine of any
kind come into any state, begin an instruction, and go on with anything, however the T-states are
charged, as long as no other instruction is begun, the counter not set and the clock not reset. The
length is then what has been added to the T-states in all, however often the frame has ended in
between. If that is less than a frame it is exact. In words of 32 bits it comes out the same unless
the sum of the counter and the frame is too large for them.
-/
theorem sinceStart_run {m : Machine} {display : Bool} {t₀ : Timer}
    (hm : ofMachine m display = .ok t₀) {before : List Op} (hbefore : t₀.run before = .ok t)
    {bc ir : UInt16} {ops : List Op} (hops : ∀ op ∈ ops, op.begins = false ∧ op.relocates = false)
    (hrun : t.run (.begin bc ir :: ops) = .ok after) :
    t.clock.elapsed ≤ after.clock.elapsed ∧
    after.sinceStart = (after.clock.elapsed - t.clock.elapsed) % t.ula.frame ∧
    (after.clock.elapsed - t.clock.elapsed < t.ula.frame →
      after.sinceStart = after.clock.elapsed - t.clock.elapsed) ∧
    (after.clock.counter + t.ula.frame < 2 ^ 32 →
      after.sinceStartWord.toNat = after.sinceStart) := by
  obtain ⟨u, -, rfl⟩ := ofMachine_eq_ok hm
  have hcounter : t.clock.counter < t.ula.frame :=
    ((inBounds_new u display).run hbefore).clock.counter_lt
  have hula : after.ula = t.ula := ula_run hrun
  obtain ⟨begun, hbegin, hnext⟩ := run_cons_eq_ok.mp hrun
  cases hbegin
  have hafter : after.BegunAt t.clock := (begunAt_begin hcounter bc ir).run hops hnext
  rw [← hula] at hcounter ⊢
  obtain ⟨hle, hlength⟩ := hafter.sinceStart_eq hcounter
  refine ⟨hle, hlength, fun hwithin => ?_, toNat_sinceStartWord ?_⟩
  · rw [hlength, Nat.mod_eq_of_lt hwithin]
  · have hstart := hafter.start
    omega

/-- `LD A,(nn)` at the end of a frame, and three T-states more than two frames behind it. -/
theorem sinceStart_run_load :
    ∃ after, run { ula := .spectrum48k, clock := { counter := 69880 } }
        [.begin 0 0, .record ⟨0x8000, 0x3A, .memoryRead, ""⟩,
          .record ⟨0x8001, 0x00, .memoryRead, ""⟩, .record ⟨0x8002, 0x50, .memoryRead, ""⟩,
          .record ⟨0x5000, 0x12, .memoryRead, ""⟩, .elapse .documented 13, .finish,
          .advance 139779] = .ok after ∧
      after.clock.elapsed = 139792 ∧ after.sinceStart = 16 ∧ after.sinceStartWord.toNat = 16 := by
  have hmachine : ofMachine .spectrum48k false = .ok { ula := .spectrum48k } := by
    simp only [ofMachine, Machine.ula_spectrum48k, Except.map]
  have hset : run { ula := .spectrum48k } [.setCounter 69880] =
      .ok { ula := .spectrum48k, clock := { counter := 69880 } } := by rfl
  have hclock : (run { ula := .spectrum48k, clock := { counter := 69880 } }
      [.begin 0 0, .record ⟨0x8000, 0x3A, .memoryRead, ""⟩,
        .record ⟨0x8001, 0x00, .memoryRead, ""⟩, .record ⟨0x8002, 0x50, .memoryRead, ""⟩,
        .record ⟨0x5000, 0x12, .memoryRead, ""⟩, .elapse .documented 13, .finish,
        .advance 139779]).map (fun t => (t.clock.elapsed, t.clock.counter)) =
      .ok (139792, 8) := by
    decide +kernel
  obtain ⟨after, hrun, hafter⟩ := exists_of_map_eq_ok hclock
  obtain ⟨helapsed, hcounter⟩ := Prod.mk.inj hafter
  obtain ⟨-, hlength, -, hword⟩ := sinceStart_run hmachine hset (by decide) hrun
  rw [helapsed] at hlength
  rw [hcounter] at hword
  exact ⟨after, hrun, helapsed, hlength, (hword (by decide)).trans hlength⟩

end Timer

end SpectrumTiming
