import SpectrumTiming.Proofs.Overflow
import SpectrumTiming.Proofs.Undelayed

/-!
# A machine without contention

A machine without contention captures nothing: its timer lets the documented T-states of an
instruction pass as they are reported. A machine with contention adds them up and lets pass what its
script costs, access by access. Without delays the two clocks differ only while an instruction is
running, by what has been documented but not yet charged, and `finish` does not let an instruction
end before the two sums agree. So the clocks meet at the end of every instruction
(`run_uncontended`).

What carries this through an instruction is the clock at its beginning. Either clock is that one,
moved on by what was waited and by one of the two sums (`Within`). For this the sums must not have
wrapped round, so the machine with contention is followed along runs of its strict timer.
-/

namespace SpectrumTiming

open Capture

/-- Nothing is being captured and nothing ever was. -/
structure Capture.Blank (c : Capture ScriptNumber) : Prop where
  active : c.active = false
  log : c.log = []
  script? : c.script? = none
  cursor : c.cursor = 0
  predicted : c.predicted = 0
  consumed : c.consumed = 0

namespace Timer

/-! ## A timer that captures nothing -/

/-- What an operation does to the clock while nothing is captured. -/
def Op.tick (u : Ula) (c : Clock) : Op → Clock
  | .elapse _ cycles | .advance cycles => c.advance u cycles
  | .setCounter tstate => c.setCounter u tstate
  | .setBank bank => c.setBank bank
  | .reset => {}
  | .begin _ _ | .finish | .record _ | .confirm => c

/-- Ticks know the frame and nothing else of the machine. -/
theorem Op.tick_congr {u v : Ula} (h : u.frame = v.frame) (c : Clock) (op : Op) :
    op.tick u c = op.tick v c := by
  cases op <;> simp only [tick, Clock.advance, Clock.setCounter, h]

theorem Op.counter_tick_lt (u : Ula) {c : Clock} (h : c.counter < u.frame) (op : Op) :
    (op.tick u c).counter < u.frame := by
  cases op with
  | elapse kind cycles => exact Clock.counter_advance_lt u c cycles
  | advance cycles => exact Clock.counter_advance_lt u c cycles
  | setCounter tstate => exact Nat.mod_lt _ u.frame_pos
  | reset => exact u.frame_pos
  | _ => exact h

/-- A timer that captures nothing ticks, and goes on capturing nothing unless an instruction begins
on a machine with contention. -/
theorem step_of_idle {t : Timer} (h : t.capture.active = false) (op : Op)
    (hop : t.ula.variant.contends = false ∨ ∀ bc ir, op ≠ .begin bc ir) :
    ∃ after, t.step op = .ok after ∧ after.ula = t.ula ∧ after.capture.active = false ∧
      after.clock = op.tick t.ula t.clock ∧ (t.capture.Blank → after.capture.Blank) := by
  cases op with
  | begin bc ir =>
    have hv : t.ula.variant.contends = false := hop.resolve_right fun hne => hne bc ir rfl
    have hbegin : t.begin bc ir =
        { t with capture := { t.capture with start := t.clock.counter } } := by
      simp [begin, hv]
    refine ⟨_, congrArg Except.ok hbegin, rfl, h, rfl, fun hb => ?_⟩
    exact ⟨hb.active, hb.log, hb.script?, hb.cursor, hb.predicted, hb.consumed⟩
  | finish => exact ⟨t, by simp [step, finish, h], rfl, h, rfl, id⟩
  | elapse kind cycles =>
    have helapse : t.elapse kind cycles = t.advance cycles := by
      cases kind <;> simp [elapse, h]
    exact ⟨_, congrArg Except.ok helapse, rfl, h, rfl, id⟩
  | record a => exact ⟨t, record_of_idle h a, rfl, h, rfl, id⟩
  | confirm =>
    refine ⟨_, congrArg Except.ok (confirm_of_idle h), rfl, h, rfl, fun hb => ?_⟩
    exact ⟨hb.active, hb.log, hb.script?, hb.cursor, hb.predicted, hb.consumed⟩
  | advance cycles => exact ⟨_, rfl, rfl, h, rfl, id⟩
  | setCounter tstate => exact ⟨_, rfl, rfl, h, rfl, id⟩
  | setBank bank => exact ⟨_, rfl, rfl, h, rfl, id⟩
  | reset => exact ⟨_, rfl, rfl, h, rfl, id⟩

/-- A timer that captures nothing faults at nothing, as long as it goes on capturing nothing. -/
theorem run_of_idle : ∀ (ops : List Op) {t : Timer}, t.capture.active = false →
    (t.ula.variant.contends = false ∨ ∀ op ∈ ops, ∀ bc ir, op ≠ .begin bc ir) →
    ∃ after, t.run ops = .ok after ∧ after.ula = t.ula ∧ after.capture.active = false ∧
      after.clock = ops.foldl (Op.tick t.ula) t.clock ∧
      (t.capture.Blank → after.capture.Blank) := by
  intro ops
  induction ops with
  | nil => intro t h _; exact ⟨t, rfl, rfl, h, rfl, id⟩
  | cons op ops ih =>
    intro t h hops
    obtain ⟨next, hs, hula, hidle, hclock, hblank⟩ :=
      step_of_idle h op (hops.imp_right fun hne => hne op List.mem_cons_self)
    obtain ⟨after, hrun, hafter, hstill, hticks, hkept⟩ := ih hidle (by
      rw [hula]
      exact hops.imp_right fun hne op' hop' => hne op' (List.mem_cons_of_mem op hop'))
    refine ⟨after, run_cons_eq_ok.mpr ⟨next, hs, hrun⟩, hafter.trans hula, hstill, ?_,
      hkept ∘ hblank⟩
    rw [hticks, hula, hclock]
    rfl

/-- Of what a capture would be told, a clock that ticks counts the documented T-states. -/
theorem elapsed_foldl_tick (u : Ula) {ops : List Op} (hops : ∀ op ∈ ops, op.informs = true)
    (c : Clock) :
    (ops.foldl (Op.tick u) c).elapsed = c.elapsed + (Evidence.ofOps ops).documented := by
  induction ops generalizing c with
  | nil => rfl
  | cons op ops ih =>
    obtain ⟨hop, hrest⟩ := List.forall_mem_cons.mp hops
    have htick : (op.tick u c).elapsed = c.elapsed + op.documented := by
      cases op with
      | record a => rfl
      | confirm => rfl
      | elapse kind cycles =>
        cases kind with
        | documented => rfl
        | _ => exact absurd hop Bool.false_ne_true
      | _ => exact absurd hop Bool.false_ne_true
    rw [List.foldl_cons, ih hrest, htick, Nat.add_assoc]
    rfl

/-- A machine without contention has nothing to add up. -/
theorem Strict.run_of_plain (ops : List Timer.Op) {t : Timer}
    (hv : t.ula.variant.contends = false) (h : t.capture.active = false) :
    Strict.run t ops = (t.run ops).mapError .fault := by
  induction ops generalizing t with
  | nil => rfl
  | cons op ops ih =>
    obtain ⟨next, hs, hula, hidle, -⟩ := step_of_idle h op (.inl hv)
    rw [Strict.run, List.foldlM_cons, Strict.step_of_idle h, hs, run_cons, hs]
    exact ih (by rw [hula]; exact hv) hidle

/-- **A machine without contention never faults and never captures anything.** -/
theorem run_of_blank (ops : List Op) {t : Timer} (hv : t.ula.variant.contends = false)
    (h : t.capture.Blank) : ∃ after, t.run ops = .ok after ∧ after.capture.Blank := by
  obtain ⟨after, hrun, -, -, -, hblank⟩ := run_of_idle ops h.active (.inl hv)
  exact ⟨after, hrun, hblank h⟩

/-! ## Between instructions -/

/-- A machine with contention and one without, the former without delays. -/
structure Paired (s n : Timer) : Prop where
  contends : s.ula.variant.contends = true
  undelayed : s.ula.Undelayed
  plain : n.ula.variant.contends = false
  frame : n.ula.frame = s.ula.frame
  silent : n.capture.active = false

/-- Both stand between two instructions, at the same time. -/
structure Level (s n : Timer) : Prop extends Paired s n where
  idle : s.capture.active = false
  counter_lt : s.clock.counter < s.ula.frame
  clock : n.clock = s.clock

variable {s n : Timer}

/-- Neither clock runs ahead while nothing is captured. -/
theorem Level.step_between (h : Level s n) {op : Op} (hop : ∀ bc ir, op ≠ .begin bc ir) :
    ∃ s' n', s.step op = .ok s' ∧ n.step op = .ok n' ∧ Level s' n' := by
  obtain ⟨s', hs, hsu, hsa, hsc, -⟩ := step_of_idle h.idle op (Or.inr hop)
  obtain ⟨n', hn, hnu, hna, hnc, -⟩ := step_of_idle h.silent op (Or.inl h.plain)
  refine ⟨s', n', hs, hn, ⟨⟨?_, ?_, ?_, ?_, hna⟩, hsa, ?_, ?_⟩⟩
  · rw [hsu]; exact h.contends
  · rw [hsu]; exact h.undelayed
  · rw [hnu]; exact h.plain
  · rw [hsu, hnu]; exact h.frame
  · rw [hsc, hsu]; exact op.counter_tick_lt s.ula h.counter_lt
  · rw [hnc, hsc, h.clock]; exact op.tick_congr h.frame s.clock

/-! ## Within an instruction -/

/-- An instruction that began at `base` is running. Up to now `waited` T-states have passed outside
of the two sums; for the rest the one clock has been moved by what was charged and the other one by
what was documented. -/
structure Within (base : Clock) (waited : Nat) (s n : Timer) : Prop extends Paired s n where
  active : s.capture.active = true
  charged : s.clock = base.advance s.ula (waited + s.capture.consumed.toNat)
  documented : n.clock = base.advance s.ula (waited + s.capture.predicted.toNat)

theorem Level.begin (h : Level s n) (bc ir : UInt16) :
    ∃ n', n.step (.begin bc ir) = .ok n' ∧ Within s.clock 0 (s.begin bc ir) n' := by
  obtain ⟨n', hn, hnu, hna, hnc, -⟩ := step_of_idle h.silent (.begin bc ir) (Or.inl h.plain)
  have hs : s.begin bc ir = { s with capture := .begin s.clock.counter bc ir } := if_pos h.contends
  have hzero : s.clock.advance s.ula 0 = s.clock := Clock.advance_zero h.counter_lt
  refine ⟨n', hn, ?_⟩
  rw [hs]
  refine ⟨⟨h.contends, h.undelayed, ?_, ?_, hna⟩, rfl, hzero.symm, ?_⟩
  · rw [hnu]; exact h.plain
  · rw [hnu]; exact h.frame
  · rw [hnc]; exact h.clock.trans hzero.symm

variable {base : Clock} {waited : Nat}

theorem Within.counter_lt (h : Within base waited s n) : s.clock.counter < s.ula.frame := by
  rw [h.charged]
  exact Clock.counter_advance_lt _ _ _

/-- What is charged moves the one clock; the other has moved, or will move, when it is documented. -/
theorem Within.charge (h : Within base waited s n) {s' : Timer} {cycles : Nat}
    (hula : s'.ula = s.ula) (hactive : s'.capture.active = true)
    (hclock : s'.clock = s.clock.advance s.ula cycles)
    (hpredicted : s'.capture.predicted.toNat = s.capture.predicted.toNat)
    (hconsumed : s'.capture.consumed.toNat = s.capture.consumed.toNat + cycles) :
    Within base waited s' n := by
  refine ⟨⟨?_, ?_, h.plain, ?_, h.silent⟩, hactive, ?_, ?_⟩
  · rw [hula]; exact h.contends
  · rw [hula]; exact h.undelayed
  · rw [hula]; exact h.frame
  · rw [hclock, h.charged, Clock.advance_advance, hula, hconsumed, Nat.add_assoc]
  · rw [hula, hpredicted]; exact h.documented

/-- What an executor may report while an instruction is running. T-states that count as charged
already are no part of it: no script would account for them. -/
def Op.withinInstruction : Op → Bool
  | .record _ | .confirm => true
  | .elapse kind _ => kind ≠ .base
  | _ => false

/-- **An instruction goes on on either machine**, unless the one with contention gives up. -/
theorem Within.step (h : Within base waited s n) {op : Op} (hop : op.withinInstruction = true)
    {s' : Timer} (hs : Strict.step s op = .ok s') :
    ∃ n' waited', n.step op = .ok n' ∧ Within base waited' s' n' := by
  have hbegins : ∀ bc ir, op ≠ .begin bc ir := by
    rintro bc ir rfl
    exact Bool.false_ne_true hop
  obtain ⟨hpredicted, hconsumed⟩ := Strict.sums_step hbegins hs
  obtain ⟨hstep, -, -⟩ := Strict.step_eq_ok_iff.mp hs
  have hula := (step_machine hstep).1
  obtain ⟨n', hn, hnu, hna, hnc, -⟩ := step_of_idle h.silent op (Or.inl h.plain)
  have hpaired : Paired s n' :=
    ⟨h.contends, h.undelayed, by rw [hnu]; exact h.plain, by rw [hnu]; exact h.frame, hna⟩
  have hadvance (cycles : Nat) :
      n.clock.advance n.ula cycles =
        base.advance s.ula (waited + s.capture.predicted.toNat + cycles) := by
    rw [← Clock.advance_advance, ← h.documented]
    simp only [Clock.advance, h.frame]
  cases op with
  | record a =>
    have hsame : Within base waited s n' := ⟨hpaired, h.active, h.charged, hnc.trans h.documented⟩
    obtain ⟨hidle, -⟩ | ⟨-, hroom, rfl⟩ := record_eq_ok.mp hstep
    · exact absurd (hidle.symm.trans h.active) Bool.false_ne_true
    have hfull : s.capture.isFull = false := by simpa [Capture.isFull] using hroom
    rw [charged_record h.active hfull] at hconsumed
    refine ⟨n', waited, hn, hsame.charge hula ?_ ?_ hpredicted hconsumed⟩
    · exact (Capture.settle_frame s.ula.variant (s.capture.push a)).1.trans h.active
    · exact clock_settle_of_undelayed (t := { s with capture := s.capture.push a }) h.undelayed
        h.counter_lt
  | confirm =>
    have hsame : Within base waited s n' := ⟨hpaired, h.active, h.charged, hnc.trans h.documented⟩
    obtain rfl : _ = s' := (confirm_of_active h.active).symm.trans (Except.ok.inj hstep)
    rw [charged_confirm h.active] at hconsumed
    refine ⟨n', waited, hn, hsame.charge hula ?_ ?_ hpredicted hconsumed⟩
    · exact (Capture.settle_frame s.ula.variant { s.capture with taken := true }).1.trans h.active
    · exact clock_settle_of_undelayed (t := { s with capture := { s.capture with taken := true } })
        h.undelayed h.counter_lt
  | elapse kind cycles =>
    -- T-states outside of the sums are waited on either machine
    have hwait : s.elapse kind cycles = s.advance cycles →
        ∃ n' waited', n.step (.elapse kind cycles) = .ok n' ∧ Within base waited' s' n' := by
      intro helapse
      obtain rfl : s.advance cycles = s' := helapse.symm.trans (Except.ok.inj hstep)
      refine ⟨n', waited + cycles, hn, ⟨⟨hpaired.contends, hpaired.undelayed, hpaired.plain,
        hpaired.frame, hna⟩, h.active, ?_, ?_⟩⟩
      · show s.clock.advance s.ula cycles =
          base.advance s.ula (waited + cycles + s.capture.consumed.toNat)
        rw [h.charged, Clock.advance_advance, Nat.add_right_comm]
      · show n'.clock = base.advance s.ula (waited + cycles + s.capture.predicted.toNat)
        rw [hnc, Nat.add_right_comm]
        exact hadvance cycles
    cases kind with
    | documented =>
      obtain rfl : { s with capture := s.capture.predict cycles } = s' := by
        rw [← Except.ok.inj hstep]
        simp [elapse, h.active]
      have hdocumented : s.documents (.elapse .documented cycles) = [cycles] := if_pos h.active
      rw [hdocumented, List.sum_singleton] at hpredicted
      refine ⟨n', waited, hn, ⟨⟨hpaired.contends, hpaired.undelayed, hpaired.plain,
        hpaired.frame, hna⟩, h.active, h.charged, ?_⟩⟩
      rw [hpredicted, ← Nat.add_assoc, hnc]
      exact hadvance cycles
    | interrupt => exact hwait rfl
    | delay => exact hwait rfl
    | base => simp [Op.withinInstruction] at hop
  | _ => simp [Op.withinInstruction] at hop

theorem Within.run : ∀ (ops : List Op) {waited : Nat} {s n s' : Timer},
    Within base waited s n → (∀ op ∈ ops, op.withinInstruction = true) →
    Strict.run s ops = .ok s' → ∃ n' waited', n.run ops = .ok n' ∧ Within base waited' s' n' := by
  intro ops
  induction ops with
  | nil =>
    intro waited s n s' h _ hs
    cases hs
    exact ⟨n, waited, rfl, h⟩
  | cons op ops ih =>
    intro waited s n s' h hops hs
    obtain ⟨hop, hrest⟩ := List.forall_mem_cons.mp hops
    obtain ⟨s₁, hs₁, hs'⟩ := Strict.run_cons_eq_ok.mp hs
    obtain ⟨n₁, waited₁, hn₁, h₁⟩ := h.step hop hs₁
    obtain ⟨n', waited', hn', h'⟩ := ih h₁ hrest hs'
    exact ⟨n', waited', run_cons_eq_ok.mpr ⟨n₁, hn₁, hn'⟩, h'⟩

/-- **The clocks meet**: an instruction only ends when the two sums agree. -/
theorem Within.finish (h : Within base waited s n) {s' : Timer} (hs : s.finish = .ok s') :
    ∃ n', n.finish = .ok n' ∧ Level s' n' := by
  have hn : n.finish = .ok n := by simp [Timer.finish, h.silent]
  simp only [Timer.finish, h.active, Bool.not_true, Bool.false_eq_true, if_false] at hs
  split at hs
  · rename_i hreconciles
    cases hs
    have hsums : s.capture.predicted = s.capture.consumed := by
      simp only [reconciles, sumsAgree, Bool.and_eq_true, decide_eq_true_eq] at hreconciles
      exact hreconciles.1
    refine ⟨n, hn, ⟨⟨h.contends, h.undelayed, h.plain, h.frame, h.silent⟩, rfl, h.counter_lt, ?_⟩⟩
    show n.clock = s.clock
    rw [h.documented, h.charged, hsums]
  · exact absurd hs (by simp)

/-! ## Whole runs -/

/-- What an executor does that brackets its instructions. -/
inductive Piece
  /-- An instruction, from its beginning to its end. -/
  | instruction (bc ir : UInt16) (reports : List Op)
      (within : ∀ op ∈ reports, op.withinInstruction = true)
  /-- Anything that does not begin an instruction. -/
  | between (op : Op) (begins : ∀ bc ir, op ≠ .begin bc ir)

def Piece.ops : Piece → List Op
  | .instruction bc ir reports _ => .begin bc ir :: reports ++ [.finish]
  | .between op _ => [op]

theorem Level.piece (h : Level s n) (p : Piece) {s' : Timer} (hs : Strict.run s p.ops = .ok s') :
    ∃ n', n.run p.ops = .ok n' ∧ Level s' n' := by
  cases p with
  | between op begins =>
    obtain ⟨s₁, n₁, hs₁, hn₁, h₁⟩ := h.step_between begins
    have hs' : s.step op = .ok s' := (run_singleton s op).symm.trans (Strict.run_eq_ok hs)
    rw [hs₁] at hs'
    cases hs'
    exact ⟨n₁, (run_singleton n op).trans hn₁, h₁⟩
  | instruction bc ir reports within =>
    obtain ⟨n₁, hn₁, h₁⟩ := h.begin bc ir
    obtain ⟨s₁, hs₁, hrest⟩ := Strict.run_cons_eq_ok.mp hs
    cases (Strict.step_eq_ok_iff.mp hs₁).1
    obtain ⟨s₂, hs₂, hlast⟩ := Strict.run_append_eq_ok.mp hrest
    obtain ⟨n₂, waited, hn₂, h₂⟩ := h₁.run reports within hs₂
    obtain ⟨n', hn', h'⟩ :=
      h₂.finish ((run_singleton s₂ .finish).symm.trans (Strict.run_eq_ok hlast))
    have hn : n₂.run [.finish] = .ok n' := (run_singleton n₂ .finish).trans hn'
    exact ⟨n', run_cons_eq_ok.mpr ⟨n₁, hn₁, run_append_eq_ok.mpr ⟨n₂, hn₂, hn⟩⟩, h'⟩

theorem Level.run : ∀ (ps : List Piece) {s n s' : Timer}, Level s n →
    Strict.run s (ps.flatMap Piece.ops) = .ok s' →
    ∃ n', n.run (ps.flatMap Piece.ops) = .ok n' ∧ Level s' n' := by
  intro ps
  induction ps with
  | nil =>
    intro s n s' h hs
    cases hs
    exact ⟨n, rfl, h⟩
  | cons p ps ih =>
    intro s n s' h hs
    rw [List.flatMap_cons] at hs ⊢
    obtain ⟨s₁, hs₁, hs'⟩ := Strict.run_append_eq_ok.mp hs
    obtain ⟨n₁, hn₁, h₁⟩ := h.piece p hs₁
    obtain ⟨n', hn', h'⟩ := ih h₁ hs'
    exact ⟨n', run_append_eq_ok.mpr ⟨n₁, hn₁, hn'⟩, h'⟩

/--
**A machine without contention keeps the time of one without delays.** Take a new timer of either
kind, with frames of one length, and let them check their sums. As long as the one with contention
does not stop, the clocks are the same after any number of pieces: at the end of each instruction,
and after anything that is asked for between two instructions. Whatever is asked for, in whatever
order, the timer of the machine without contention does not stop, and its capture stays as it was.

Timers whose sums wrap round do the same, except that the clocks need not meet any more once a sum
of the machine with contention has wrapped.
-/
theorem run_uncontended (u v : Ula) (hu : u.variant.contends = true)
    (hzero : u.pattern = .replicate 8 0) (hv : v.variant = .none) (hframe : v.frame = u.frame)
    (display display' : Bool) :
    (∀ (ps : List Piece) (s : Timer),
      Strict.run { ula := u, display } (ps.flatMap Piece.ops) = .ok s →
      ∃ n, Strict.run { ula := v, display := display' } (ps.flatMap Piece.ops) = .ok n ∧
        n.clock = s.clock) ∧
    (∀ ops : List Op,
      ∃ n, Strict.run { ula := v, display := display' } ops = .ok n ∧ n.capture.Blank) ∧
    (∀ (ps : List Piece) (s : Timer), run { ula := u, display } (ps.flatMap Piece.ops) = .ok s →
      Strict.run { ula := u, display } (ps.flatMap Piece.ops) ≠ .error .overflow →
      ∃ n, run { ula := v, display := display' } (ps.flatMap Piece.ops) = .ok n ∧
        n.clock = s.clock) ∧
    ∀ ops : List Op, ∃ n, run { ula := v, display := display' } ops = .ok n ∧ n.capture.Blank := by
  have hplain : v.variant.contends = false := by rw [hv]; rfl
  have hblank (ops : List Op) :
      ∃ n, run { ula := v, display := display' } ops = .ok n ∧ n.capture.Blank :=
    run_of_blank ops (t := { ula := v, display := display' }) hplain
      ⟨rfl, rfl, rfl, rfl, rfl, rfl⟩
  have hstrict {ops : List Op} {n : Timer}
      (hn : run { ula := v, display := display' } ops = .ok n) :
      Strict.run { ula := v, display := display' } ops = .ok n := by
    rw [Strict.run_of_plain ops hplain rfl, hn]
    rfl
  have hmeet (ps : List Piece) (s : Timer)
      (hs : Strict.run { ula := u, display } (ps.flatMap Piece.ops) = .ok s) :
      ∃ n, run { ula := v, display := display' } (ps.flatMap Piece.ops) = .ok n ∧
        n.clock = s.clock := by
    have hlevel : Level { ula := u, display } { ula := v, display := display' } :=
      ⟨⟨hu, hzero, hplain, hframe, rfl⟩, rfl, u.frame_pos, rfl⟩
    obtain ⟨n, hn, h⟩ := hlevel.run ps hs
    exact ⟨n, hn, h.clock⟩
  refine ⟨fun ps s hs => ?_, fun ops => ?_, fun ps s hs hfits => ?_, hblank⟩
  · obtain ⟨n, hn, hclock⟩ := hmeet ps s hs
    exact ⟨n, hstrict hn, hclock⟩
  · obtain ⟨n, hn, h⟩ := hblank ops
    exact ⟨n, hstrict hn, h⟩
  · refine hmeet ps s (((Strict.run_cases _ _).resolve_left hfits).trans ?_)
    rw [hs]
    rfl

/-- `JR` that is taken, behind a page switch and the acceptance of an interrupt. -/
theorem run_uncontended_jump :
    ∃ s n, Strict.run { ula := .undelayed48k } ([.between (.setBank 5) (by simp),
        .between (.elapse .interrupt 19) (by simp),
        .instruction 0 0x3F00 [.record ⟨0x4000, 0x18, .memoryRead, ""⟩, .elapse .documented 12,
          .elapse .delay 3, .record ⟨0x4001, 0xFE, .memoryRead, ""⟩] (by decide)].flatMap
            Piece.ops) = .ok s ∧
      Strict.run { ula := { Ula.undelayed48k with variant := .none } } ([
        .between (.setBank 5) (by simp),
        .between (.elapse .interrupt 19) (by simp),
        .instruction 0 0x3F00 [.record ⟨0x4000, 0x18, .memoryRead, ""⟩, .elapse .documented 12,
          .elapse .delay 3, .record ⟨0x4001, 0xFE, .memoryRead, ""⟩] (by decide)].flatMap
            Piece.ops) = .ok n ∧
      n.clock = s.clock := by
  have hok : (Strict.run { ula := .undelayed48k } [.setBank 5, .elapse .interrupt 19, .begin 0 0x3F00,
      .record ⟨0x4000, 0x18, .memoryRead, ""⟩, .elapse .documented 12, .elapse .delay 3,
      .record ⟨0x4001, 0xFE, .memoryRead, ""⟩, .finish]).isOk = true := by
    decide +kernel
  obtain ⟨s, hs⟩ := exists_of_isOk hok
  obtain ⟨n, hn, hclock⟩ := (run_uncontended .undelayed48k
    { Ula.undelayed48k with variant := .none } rfl rfl rfl rfl false false).1
    [.between (.setBank 5) (by simp), .between (.elapse .interrupt 19) (by simp),
      .instruction 0 0x3F00 [.record ⟨0x4000, 0x18, .memoryRead, ""⟩, .elapse .documented 12,
        .elapse .delay 3, .record ⟨0x4001, 0xFE, .memoryRead, ""⟩] (by decide)] s hs
  exact ⟨s, n, hs, hn, hclock⟩

/-- A sum that has wrapped round: the instruction ends, though the strict timer has stopped. One
clock has moved by four T-states and the other one by 2 ^ 32 more. -/
example :
    (Strict.run { ula := .undelayed48k } [.begin 0 0, .record ⟨0x8000, 0x00, .memoryRead, ""⟩,
        .elapse .documented 0xFFFFFFFF, .elapse .documented 5, .finish]).map (·.clock.elapsed) =
      .error .overflow ∧
    (run { ula := .undelayed48k } [.begin 0 0, .record ⟨0x8000, 0x00, .memoryRead, ""⟩,
        .elapse .documented 0xFFFFFFFF, .elapse .documented 5, .finish]).map (·.clock.elapsed) =
      .ok 4 ∧
    (run { ula := { Ula.undelayed48k with variant := .none } } [.begin 0 0,
        .record ⟨0x8000, 0x00, .memoryRead, ""⟩, .elapse .documented 0xFFFFFFFF,
        .elapse .documented 5, .finish]).map (·.clock.elapsed) = .ok (2 ^ 32 + 4) := by
  decide +kernel

end Timer

end SpectrumTiming
