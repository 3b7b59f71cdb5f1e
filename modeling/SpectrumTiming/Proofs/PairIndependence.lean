import SpectrumTiming.Proofs.Account
import SpectrumTiming.Proofs.Schedule

/-!
# What a register pair can delay

During an internal cycle a register pair is left on the address bus. The Ferranti ULA holds such a
cycle off if the pair points into contended memory. The gate array contends only while memory is
requested, and its scripts count internal cycles as part of the access before them, so that no
register pair matters. Only the script of `PUSH` and `RST` was not rewritten for it: there IR still
counts (`Standard.source_amstrad`).

Two runs of a gate array that differ in the register pairs alone therefore keep the same time,
unless one of these two instructions meets an IR that is contended in one run and not in the other
(`run_withoutPairs`). Such a run does exist (`exists_clock_ne_of_ir`).
-/

namespace SpectrumTiming

open Capture

/-- The ZX Spectrum +3, read. -/
def Ula.spectrumPlus3 : Ula where
  variant := .amstrad
  pattern := #v[1, 0, 7, 6, 5, 4, 3, 2]
  start := 14360
  line := 228
  frame := 70908
  banks := [4, 5, 6, 7]
  line_pos := by decide
  frame_pos := by decide

/-- The script of `PUSH` and `RST`. -/
def Standard.pushScript : ScriptNumber := 25

/-- On the gate array only `PUSH` and `RST` put a register pair on the bus, and that is IR. -/
theorem Standard.source_amstrad : ∀ id : ScriptNumber, ∀ e ∈ (script .amstrad id).elements,
    e.source ≠ .pair .bc ∧ (e.source = .pair .ir → id = pushScript) := by
  decide +kernel

/-- Costs that fall into the same phases take the same time, whatever bank is paged in. -/
theorem Clock.payAll_congr {u : Ula} {xs ys : List Cost}
    (h : ∀ bank, xs.map (u.phases bank) = ys.map (u.phases bank)) (c : Clock) :
    c.payAll u xs = c.payAll u ys := by
  induction xs generalizing ys c with
  | nil =>
    have hnil : ys = [] := List.map_eq_nil_iff.mp (h 0).symm
    rw [hnil]
  | cons x xs ih =>
    obtain ⟨y, ys, rfl⟩ : ∃ y rest, ys = y :: rest := by
      obtain ⟨y, rest, hys, _⟩ := List.map_eq_cons_iff.mp (h 0).symm
      exact ⟨y, rest, hys⟩
    have hhead : u.phases c.bank x = u.phases c.bank y := (List.cons.inj (h c.bank)).1
    have hpay : c.pay u x = c.pay u y := by
      unfold pay
      rw [hhead]
    show (c.pay u x).payAll u xs = (c.pay u y).payAll u ys
    rw [hpay]
    exact ih (fun bank => (List.cons.inj (h bank)).2) (c.pay u y)

namespace Capture

section

variable {ι : Type}

/-- The same capture of an instruction that began at another time, with other register pairs. -/
def withOrigin (c : Capture ι) (start : Nat) (bc ir : UInt16) : Capture ι :=
  { c with start, bc, ir }

/-- A pair changes which cycles are held off and not how many there are. -/
theorem total_costs_withOrigin (c : Capture ι) (start : Nat) (bc ir : UInt16) (e : Element) :
    Cost.total ((c.withOrigin start bc ir).costs e) = Cost.total (c.costs e) := by
  unfold costs
  cases e.source with
  | memory slot => rfl
  | port slot => rfl
  | pair p => simp only [total_replicate, Cost.cycles]
  | idle => rfl

theorem walk_withOrigin (c : Capture ι) (start : Nat) (bc ir : UInt16) (s : Script) :
    ((c.withOrigin start bc ir).walk s).1 = (c.walk s).1.withOrigin start bc ir := by
  have htotal (es : List Element) : Cost.total (es.flatMap (c.withOrigin start bc ir).costs) =
      Cost.total (es.flatMap c.costs) := by
    induction es with
    | nil => rfl
    | cons e es ih =>
      rw [List.flatMap_cons, List.flatMap_cons, Cost.total_append, Cost.total_append, ih,
        total_costs_withOrigin]
  show ({ (c.walk s).1 with
    start, bc, ir
    consumed := c.consumed + Cost.total ((c.ready s).flatMap (c.withOrigin start bc ir).costs) } :
      Capture ι) = _
  rw [htotal]
  rfl

/-- The phases of what is charged are the same, where the pairs that count are contended alike. -/
theorem phases_walk_withOrigin {u : Ula} {c : Capture ι} {start : Nat} {bc ir : UInt16} {s : Script}
    (h : ∀ e ∈ s.elements, ∀ p, e.source = .pair p → ∀ bank,
      u.contended bank ((c.withOrigin start bc ir).pair p) = u.contended bank (c.pair p))
    (bank : Nat) :
    ((c.withOrigin start bc ir).walk s).2.map (u.phases bank) =
      (c.walk s).2.map (u.phases bank) := by
  show (((c.ready s).flatMap (c.withOrigin start bc ir).costs).map (u.phases bank)) =
    ((c.ready s).flatMap c.costs).map (u.phases bank)
  rw [List.map_flatMap, List.map_flatMap]
  refine List.flatMap_congr fun e he => ?_
  have hmem : e ∈ s.elements := List.drop_subset _ _ ((List.takeWhile_sublist _).subset he)
  have hpair := h e hmem
  unfold costs
  cases hs : e.source with
  | memory slot => rfl
  | port slot => rfl
  | pair p =>
    have hphases : u.phases bank (.memory ((c.withOrigin start bc ir).pair p) e.cycles) =
        u.phases bank (.memory (c.pair p) e.cycles) := by
      simp only [Ula.phases, hpair p hs bank]
    simp only [List.map_replicate, hphases]
  | idle => rfl

end

theorem resolve_withOrigin (c : Capture ScriptNumber) (start : Nat) (bc ir : UInt16) :
    (c.withOrigin start bc ir).resolve = (c.resolve.1.withOrigin start bc ir, c.resolve.2) := by
  cases hs : c.script? with
  | some id => rw [resolve_of_some hs, resolve_of_some (c := c.withOrigin start bc ir) hs]
  | none =>
    rw [resolve_of_none hs, resolve_of_none (c := c.withOrigin start bc ir) hs]
    refine Prod.ext ?_ rfl
    show (c.collapse.1.withOrigin start bc ir).assign =
      c.collapse.1.assign.withOrigin start bc ir
    unfold assign
    have hlog : recognize (c.collapse.1.withOrigin start bc ir).log =
        recognize c.collapse.1.log := rfl
    rw [hlog]
    cases recognize c.collapse.1.log <;> rfl

theorem script_settle (v : Variant) (c : Capture ScriptNumber) :
    (settle v c).1.script? = c.resolve.1.script? := by
  cases hs : c.resolve.1.script? with
  | none =>
    rw [settle_of_none v hs]
    exact hs
  | some id =>
    rw [settle_of_some v hs]
    exact hs

/-- **What is charged does not depend on the register pairs.** -/
theorem settle_withOrigin (v : Variant) (c : Capture ScriptNumber) (start : Nat) (bc ir : UInt16) :
    (settle v (c.withOrigin start bc ir)).1 = (settle v c).1.withOrigin start bc ir := by
  have hres := resolve_withOrigin c start bc ir
  cases hs : c.resolve.1.script? with
  | none =>
    rw [settle_of_none v hs, settle_of_none v (by rw [hres]; exact hs), hres]
  | some id =>
    have hs' : (c.withOrigin start bc ir).resolve.1.script? = some id := by rw [hres]; exact hs
    rw [settle_of_some v hs, settle_of_some v hs', hres]
    exact walk_withOrigin ..

/-- On the gate array the time of it depends on IR, and only for `PUSH` and `RST`. -/
theorem phases_settle_withOrigin {u : Ula} {c : Capture ScriptNumber} {start : Nat} {bc ir : UInt16}
    (h : (settle .amstrad c).1.script? = some Standard.pushScript →
      ∀ bank, u.contended bank ir = u.contended bank c.ir) (bank : Nat) :
    (settle .amstrad (c.withOrigin start bc ir)).2.map (u.phases bank) =
      (settle .amstrad c).2.map (u.phases bank) := by
  have hres := resolve_withOrigin c start bc ir
  cases hs : c.resolve.1.script? with
  | none =>
    rw [settle_of_none _ hs, settle_of_none _ (by rw [hres]; exact hs), hres]
  | some id =>
    rw [script_settle, hs] at h
    have hir : c.resolve.1.ir = c.ir := by
      have hframe := settle_frame .amstrad c
      rw [settle_of_some _ hs] at hframe
      exact hframe.2.2.2.1
    have hpairs : ∀ e ∈ (Standard.script .amstrad id).elements, ∀ p, e.source = .pair p → ∀ bank,
        u.contended bank ((c.resolve.1.withOrigin start bc ir).pair p) =
          u.contended bank (c.resolve.1.pair p) := by
      intro e he p hp bank
      obtain ⟨hbc, hpush⟩ := Standard.source_amstrad id e he
      cases p with
      | bc => exact absurd hp hbc
      | ir =>
        show u.contended bank ir = u.contended bank c.resolve.1.ir
        rw [hir]
        exact h (congrArg some (hpush hp)) bank
    have hs' : (c.withOrigin start bc ir).resolve.1.script? = some id := by rw [hres]; exact hs
    rw [settle_of_some _ hs, settle_of_some _ hs', hres, List.map_append, List.map_append,
      phases_walk_withOrigin hpairs bank]

end Capture

namespace Timer

/-- An operation without the register pairs it reports. -/
def Op.withoutPairs : Op → Op
  | .begin _ _ => .begin 0 0
  | op => op

theorem Op.eq_or_begin_of_withoutPairs {x y : Op} (h : x.withoutPairs = y.withoutPairs) :
    x = y ∨ ∃ bc ir bc' ir', x = .begin bc ir ∧ y = .begin bc' ir' := by
  cases x <;> cases y <;> simp_all [withoutPairs]

/-- Two timers that have been told the same but for the register pairs. Their clocks need not
agree. -/
structure Parallel (t s : Timer) : Prop where
  ula : s.ula = t.ula
  capture : s.capture = t.capture.withOrigin s.capture.start s.capture.bc s.capture.ir

/-- The clocks agree, now and when the instruction began. -/
structure InStep (t s : Timer) : Prop where
  clock : s.clock = t.clock
  start : s.capture.start = t.capture.start

/-- An IR that a `PUSH` or `RST` may find on its bus is contended in both or in neither. -/
def PushesAlike (t s : Timer) : Prop :=
  t.capture.script? = some Standard.pushScript →
    ∀ bank, t.ula.contended bank t.capture.ir = t.ula.contended bank s.capture.ir

variable {t s : Timer}

theorem Parallel.active (h : Parallel t s) : s.capture.active = t.capture.active := by
  rw [h.capture]
  rfl

theorem Parallel.settle (h : Parallel t s) (hv : t.ula.variant = .amstrad) :
    Parallel t.settle s.settle ∧
      (InStep t s → PushesAlike t.settle s.settle → InStep t.settle s.settle) := by
  obtain ⟨u, display, clock, d⟩ := s
  obtain ⟨rfl, hcapture⟩ : u = t.ula ∧
      d = t.capture.withOrigin d.start d.bc d.ir := ⟨h.ula, h.capture⟩
  obtain ⟨_, hstart, _, hir, _⟩ := settle_frame t.ula.variant t.capture
  have hsame : (Capture.settle t.ula.variant d).1 =
      (Capture.settle t.ula.variant t.capture).1.withOrigin d.start d.bc d.ir := by
    rw [hcapture]
    exact settle_withOrigin ..
  obtain ⟨_, hstart', hbc', hir', _⟩ := settle_frame t.ula.variant d
  refine ⟨⟨rfl, ?_⟩, fun hstep hpush => ⟨?_, ?_⟩⟩
  · show (Capture.settle t.ula.variant d).1 = (Capture.settle t.ula.variant t.capture).1.withOrigin
      (Capture.settle t.ula.variant d).1.start (Capture.settle t.ula.variant d).1.bc
      (Capture.settle t.ula.variant d).1.ir
    rw [hstart', hbc', hir', hsame]
  · have halike : (Capture.settle .amstrad t.capture).1.script? = some Standard.pushScript →
        ∀ bank, t.ula.contended bank d.ir = t.ula.contended bank t.capture.ir := by
      intro hscript bank
      have hknown : t.settle.capture.script? = some Standard.pushScript := by
        show (Capture.settle t.ula.variant t.capture).1.script? = _
        rw [hv]
        exact hscript
      calc t.ula.contended bank d.ir
          = t.ula.contended bank (Capture.settle t.ula.variant d).1.ir := by rw [hir']
        _ = t.ula.contended bank (Capture.settle t.ula.variant t.capture).1.ir :=
          (hpush hknown bank).symm
        _ = t.ula.contended bank t.capture.ir := by rw [hir]
    have hclock : clock = t.clock := hstep.clock
    show clock.payAll t.ula (Capture.settle t.ula.variant d).2 =
      t.clock.payAll t.ula (Capture.settle t.ula.variant t.capture).2
    rw [hclock, hcapture, hv]
    exact Clock.payAll_congr (phases_settle_withOrigin halike) t.clock
  · exact hstart'.trans (hstep.start.trans hstart.symm)

/-- What two timers are led to: the same fault, or timers that are alike again. -/
def LedAlike (t s : Timer) (x y : Except Fault Timer) : Prop :=
  (∃ f, x = .error f ∧ y = .error f) ∨
    ∃ t' s', x = .ok t' ∧ y = .ok s' ∧ t'.ula = t.ula ∧ Parallel t' s' ∧
      (InStep t s → PushesAlike t' s' → InStep t' s')

theorem Parallel.stay (h : Parallel t s) : LedAlike t s (.ok t) (.ok s) :=
  .inr ⟨t, s, rfl, rfl, rfl, h, fun hstep _ => hstep⟩

theorem Parallel.record (h : Parallel t s) (hv : t.ula.variant = .amstrad) (a : Access) :
    LedAlike t s (t.record a) (s.record a) := by
  have hfull : s.capture.isFull = t.capture.isFull := by rw [h.capture]; rfl
  cases ht : t.capture.active with
  | false =>
    rw [record_of_idle ht, record_of_idle (h.active.trans ht)]
    exact h.stay
  | true =>
    cases hroom : t.capture.isFull with
    | true =>
      rw [record_of_full ht hroom, record_of_full (h.active.trans ht) (hfull.trans hroom)]
      exact .inl ⟨.logFull, rfl, rfl⟩
    | false =>
      have hpush : Parallel { t with capture := t.capture.push a }
          { s with capture := s.capture.push a } :=
        ⟨h.ula, by rw [h.capture]; rfl⟩
      obtain ⟨hp, hin⟩ := hpush.settle hv
      rw [record_of_room ht hroom, record_of_room (h.active.trans ht) (hfull.trans hroom)]
      exact .inr ⟨_, _, rfl, rfl, rfl, hp, fun hstep => hin ⟨hstep.clock, hstep.start⟩⟩

theorem Parallel.confirm (h : Parallel t s) (hv : t.ula.variant = .amstrad) :
    LedAlike t s (.ok t.confirm) (.ok s.confirm) := by
  have htaken : Parallel { t with capture := { t.capture with taken := true } }
      { s with capture := { s.capture with taken := true } } :=
    ⟨h.ula, by rw [h.capture]; rfl⟩
  cases ht : t.capture.active with
  | false =>
    rw [confirm_of_idle ht, confirm_of_idle (h.active.trans ht)]
    exact .inr ⟨_, _, rfl, rfl, rfl, htaken, fun hstep _ => ⟨hstep.clock, hstep.start⟩⟩
  | true =>
    obtain ⟨hp, hin⟩ := htaken.settle hv
    rw [confirm_of_active ht, confirm_of_active (h.active.trans ht)]
    exact .inr ⟨_, _, rfl, rfl, rfl, hp, fun hstep => hin ⟨hstep.clock, hstep.start⟩⟩

theorem Parallel.finish (h : Parallel t s) : LedAlike t s t.finish s.finish := by
  have hreconciles : s.reconciles = t.reconciles := by
    unfold reconciles
    rw [h.capture]
    rfl
  unfold Timer.finish
  rw [h.active, hreconciles]
  cases t.capture.active with
  | false => exact h.stay
  | true =>
    cases t.reconciles with
    | false => exact .inl ⟨.unreconciled, rfl, rfl⟩
    | true =>
      exact .inr ⟨_, _, rfl, rfl, rfl, ⟨h.ula, by rw [h.capture]; rfl⟩,
        fun hstep _ => ⟨hstep.clock, hstep.start⟩⟩

/-- Moving the clock in the same way keeps the clocks in step. -/
theorem Parallel.tick (h : Parallel t s) (f : Ula → Clock → Clock) :
    LedAlike t s (.ok { t with clock := f t.ula t.clock })
      (.ok { s with clock := f s.ula s.clock }) :=
  .inr ⟨_, _, rfl, rfl, rfl, ⟨h.ula, h.capture⟩,
    fun hstep _ => ⟨congrArg₂ f h.ula hstep.clock, hstep.start⟩⟩

theorem Parallel.elapse (h : Parallel t s) (kind : TimeKind) (cycles : Nat) :
    LedAlike t s (.ok (t.elapse kind cycles)) (.ok (s.elapse kind cycles)) := by
  have hadvance : LedAlike t s (.ok (t.advance cycles)) (.ok (s.advance cycles)) :=
    h.tick fun u c => c.advance u cycles
  cases kind with
  | interrupt => exact hadvance
  | delay => exact hadvance
  | documented =>
    unfold Timer.elapse
    rw [h.active]
    cases t.capture.active with
    | false => exact hadvance
    | true =>
      exact .inr ⟨_, _, rfl, rfl, rfl, ⟨h.ula, by rw [h.capture]; rfl⟩,
        fun hstep _ => ⟨hstep.clock, hstep.start⟩⟩
  | base =>
    unfold Timer.elapse
    rw [h.active]
    cases t.capture.active with
    | false => exact hadvance
    | true =>
      refine .inr ⟨_, _, rfl, rfl, rfl, ⟨h.ula, by rw [h.capture]; rfl⟩, fun hstep _ => ⟨?_, ?_⟩⟩
      · show s.clock.advance s.ula cycles = t.clock.advance t.ula cycles
        rw [h.ula, hstep.clock]
      · exact hstep.start

theorem Parallel.begin (h : Parallel t s) (hv : t.ula.variant = .amstrad) (bc ir bc' ir' : UInt16) :
    LedAlike t s (.ok (t.begin bc ir)) (.ok (s.begin bc' ir')) := by
  have ht : t.begin bc ir = { t with capture := .begin t.clock.counter bc ir } :=
    if_pos (by rw [hv]; rfl)
  have hs : s.begin bc' ir' = { s with capture := .begin s.clock.counter bc' ir' } :=
    if_pos (by rw [h.ula, hv]; rfl)
  rw [ht, hs]
  exact .inr ⟨_, _, rfl, rfl, rfl, ⟨h.ula, rfl⟩,
    fun hstep _ => ⟨hstep.clock, congrArg Clock.counter hstep.clock⟩⟩

/-- **One operation.** -/
theorem Parallel.step (h : Parallel t s) (hv : t.ula.variant = .amstrad) {x y : Op}
    (hxy : x.withoutPairs = y.withoutPairs) : LedAlike t s (t.step x) (s.step y) := by
  obtain rfl | ⟨bc, ir, bc', ir', rfl, rfl⟩ := Op.eq_or_begin_of_withoutPairs hxy
  · cases x with
    | begin bc ir => exact h.begin hv bc ir bc ir
    | finish => exact h.finish
    | elapse kind cycles => exact h.elapse kind cycles
    | record a => exact h.record hv a
    | confirm => exact h.confirm hv
    | advance cycles => exact h.elapse .delay cycles
    | setCounter tstate => exact h.tick fun u c => c.setCounter u tstate
    | setBank bank => exact h.tick fun _ c => c.setBank bank
    | reset => exact h.tick fun _ _ => {}
  · exact h.begin hv bc ir bc' ir'

/-- One operation, if there is one. -/
theorem Parallel.step? (h : Parallel t s) (hv : t.ula.variant = .amstrad) {x? y? : Option Op}
    (hxy : x?.map Op.withoutPairs = y?.map Op.withoutPairs) :
    LedAlike t s (x?.elim (.ok t) t.step) (y?.elim (.ok s) s.step) := by
  cases x? with
  | none =>
    rw [Option.map_eq_none_iff.mp hxy.symm]
    exact h.stay
  | some x =>
    obtain ⟨y, hy, hyx⟩ := Option.map_eq_some_iff.mp hxy.symm
    rw [hy]
    exact h.step hv hyx.symm

/-- One operation more of a run, if there is one. -/
theorem run_take_add_one (t : Timer) (ops : List Op) (n : Nat) :
    t.run (ops.take (n + 1)) = (t.run (ops.take n)).bind fun r => ops[n]?.elim (.ok r) r.step := by
  rw [List.take_add_one, run_append]
  congr 1
  funext r
  cases ops[n]? with
  | none => rfl
  | some op => exact run_singleton r op

/-- After any number of operations. -/
theorem run_parallel {t : Timer} (hv : t.ula.variant = .amstrad) {xs ys : List Op}
    (h : xs.map Op.withoutPairs = ys.map Op.withoutPairs) (n : Nat) :
    (∃ f, t.run (xs.take n) = .error f ∧ t.run (ys.take n) = .error f) ∨
    ∃ r s, t.run (xs.take n) = .ok r ∧ t.run (ys.take n) = .ok s ∧ r.ula = t.ula ∧ Parallel r s ∧
      ((∀ m ≤ n, ∀ r s, t.run (xs.take m) = .ok r → t.run (ys.take m) = .ok s →
        PushesAlike r s) → InStep r s) := by
  induction n with
  | zero => exact .inr ⟨t, t, rfl, rfl, rfl, ⟨rfl, rfl⟩, fun _ => ⟨rfl, rfl⟩⟩
  | succ n ih =>
    have hget : xs[n]?.map Op.withoutPairs = ys[n]?.map Op.withoutPairs := by
      rw [← List.getElem?_map, h, List.getElem?_map]
    rcases ih with ⟨f, hx, hy⟩ | ⟨r, s, hx, hy, hula, hp, hin⟩
    · refine .inl ⟨f, ?_, ?_⟩
      · rw [run_take_add_one, hx]
        rfl
      · rw [run_take_add_one, hy]
        rfl
    · have hx' : t.run (xs.take (n + 1)) = xs[n]?.elim (.ok r) r.step := by
        rw [run_take_add_one, hx]
        rfl
      have hy' : t.run (ys.take (n + 1)) = ys[n]?.elim (.ok s) s.step := by
        rw [run_take_add_one, hy]
        rfl
      have hled := hp.step? (by rw [hula, hv]) hget
      rw [← hx', ← hy'] at hled
      rcases hled with ⟨f, hxf, hyf⟩ | ⟨r', s', hxr, hys, hula', hp', hin'⟩
      · exact .inl ⟨f, hxf, hyf⟩
      · refine .inr ⟨r', s', hxr, hys, hula'.trans hula, hp', fun hall => ?_⟩
        have hbefore := hin fun m hm => hall m (Nat.le_succ_of_le hm)
        exact hin' hbefore (hall (n + 1) (Nat.le_refl _) r' s' hxr hys)

/--
**On the gate array the register pairs hardly matter.** Take two runs of the same timer that differ
in the register pairs alone. At any moment both have met the same fault, or neither has met any.
Then the captures are the same, in the log and the marks on it, the script, the cursor and the sums,
but for the register pairs and the T-state at which the instruction began. And the clocks are the
same, so far as every `PUSH` and `RST` has found an IR that is contended in both runs or in neither;
BC has no influence at all, nor IR on any other instruction.
-/
theorem run_withoutPairs (t : Timer) (hv : t.ula.variant = .amstrad) {xs ys : List Op}
    (h : xs.map Op.withoutPairs = ys.map Op.withoutPairs) (n : Nat) :
    (∃ f, t.run (xs.take n) = .error f ∧ t.run (ys.take n) = .error f) ∨
    ∃ r s, t.run (xs.take n) = .ok r ∧ t.run (ys.take n) = .ok s ∧ Parallel r s ∧
      ((∀ m ≤ n, ∀ r s, t.run (xs.take m) = .ok r → t.run (ys.take m) = .ok s →
        PushesAlike r s) → InStep r s) := by
  rcases run_parallel hv h n with hfault | ⟨r, s, hx, hy, _, hp, hin⟩
  · exact .inl hfault
  · exact .inr ⟨r, s, hx, hy, hp, hin⟩

/-- `OTIR` that repeats, in contended memory. -/
def otir (bc ir : UInt16) : List Op :=
  [.begin bc ir, .record ⟨0x4000, 0xED, .memoryRead, ""⟩, .record ⟨0x4001, 0xB3, .memoryRead, ""⟩,
    .elapse .documented 21, .record ⟨0x5000, 0x12, .memoryRead, ""⟩,
    .record ⟨0x01FE, 0x12, .portWrite, ""⟩, .confirm, .finish]

/-- `OTIR` keeps its time with both pairs at the screen and with neither. -/
theorem run_withoutPairs_otir :
    ∃ r s, run { ula := .spectrumPlus3, clock := { counter := 14361 } } (otir 0x0200 0) = .ok r ∧
      run { ula := .spectrumPlus3, clock := { counter := 14361 } } (otir 0x4000 0x4000) = .ok s ∧
      InStep r s := by
  have hsame : (otir 0x0200 0).map Op.withoutPairs = (otir 0x4000 0x4000).map Op.withoutPairs := rfl
  rcases run_withoutPairs { ula := .spectrumPlus3, clock := { counter := 14361 } } rfl hsame 8 with
    ⟨f, hfault, _⟩ | ⟨r, s, hr, hs, _, hin⟩
  · have hok : (run { ula := .spectrumPlus3, clock := { counter := 14361 } }
        ((otir 0x0200 0).take 8)).isOk = true := by
      decide +kernel
    rw [hfault] at hok
    exact absurd hok (by simp [Except.isOk, Except.toBool])
  · refine ⟨r, s, hr, hs, hin fun m hm r s hr _ hpush => ?_⟩
    -- the script is another one
    have hother : ∀ m ≤ 8, (run { ula := .spectrumPlus3, clock := { counter := 14361 } }
        ((otir 0x0200 0).take m)).toOption.bind (·.capture.script?) ≠ some Standard.pushScript := by
      decide +kernel
    have hnot := hother m hm
    rw [hr] at hnot
    exact absurd hpush hnot

/-- `PUSH BC` on the +3, once with IR at the screen and once not. -/
theorem exists_clock_ne_of_ir :
    ¬ ∀ (t : Timer), t.ula.variant = .amstrad → ∀ xs ys : List Op,
      xs.map Op.withoutPairs = ys.map Op.withoutPairs → ∀ r s,
        t.run xs = .ok r → t.run ys = .ok s → s.clock = r.clock := by
  intro hall
  have hoff : (run { ula := .spectrumPlus3 } [.setCounter 14361, .begin 0 0,
      .record ⟨0x8000, 0xC5, .memoryRead, ""⟩]).map (·.clock.elapsed) = .ok 5 := by
    decide +kernel
  have hon : (run { ula := .spectrumPlus3 } [.setCounter 14361, .begin 0 0x4000,
      .record ⟨0x8000, 0xC5, .memoryRead, ""⟩]).map (·.clock.elapsed) = .ok 9 := by
    decide +kernel
  obtain ⟨r, hr, hr5⟩ := exists_of_map_eq_ok hoff
  obtain ⟨s, hs, hs9⟩ := exists_of_map_eq_ok hon
  have hclock := hall { ula := .spectrumPlus3 } rfl _ _ (by decide) r s hr hs
  rw [hclock, hr5] at hs9
  exact absurd hs9 (by decide)

end Timer

end SpectrumTiming
