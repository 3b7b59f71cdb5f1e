import SpectrumTiming.Proofs.Account
import SpectrumTiming.Proofs.Schedule
import SpectrumTiming.Proofs.Undelayed

/-!
# The gate array only redistributes

The scripts of the two chips spread the T-states of an instruction in different ways, so that the
cursors of two timers which are told the same do not agree. Everything else does, at any moment and
not only when an instruction ends: whatever has been logged and confirmed so far, the elements either
chip can charge for it last equally long and mark the same accesses (`Standard.progress`). Without
delays the clocks agree as well (`run_redistributed`).

Two captures that are told the same are two ways of settling one capture in which nothing has been
charged, because it does not matter when a capture settles. So what they have in common does not
have to be followed through suspended walks: it is read off the capture they stem from.
-/

namespace SpectrumTiming

open Capture

namespace Script

/-- The elements that `n` accesses allow to be charged. -/
def within (s : Script) (n : Nat) (taken : Bool) : List Element :=
  s.elements.takeWhile fun e => e.slot?.all (· < n) && (!e.optional || taken)

/-- Whatever has been logged, either script charges as much for it and for the same accesses. -/
structure SameProgress (s a : Script) : Prop where
  total : ∀ n ≤ logCapacity, ∀ taken,
    ((s.within n taken).map Element.total).sum = ((a.within n taken).map Element.total).sum
  slots : ∀ n ≤ logCapacity, ∀ taken, ∀ i < n,
    (s.within n taken).any (·.slot? = some i) = (a.within n taken).any (·.slot? = some i)

instance (s a : Script) : Decidable (s.SameProgress a) :=
  decidable_of_iff
    ((∀ n ≤ logCapacity, ∀ taken,
      ((s.within n taken).map Element.total).sum = ((a.within n taken).map Element.total).sum) ∧
    ∀ n ≤ logCapacity, ∀ taken, ∀ i < n,
      (s.within n taken).any (·.slot? = some i) = (a.within n taken).any (·.slot? = some i))
    ⟨fun ⟨h1, h2⟩ => ⟨h1, h2⟩, fun ⟨h1, h2⟩ => ⟨h1, h2⟩⟩

end Script

theorem Standard.progress : ∀ id : ScriptNumber,
    (script .sinclair id).SameProgress (script .amstrad id) := by
  decide +kernel

namespace Capture

/-- Two captures that differ in the cursor at most. -/
def SameButCursor (s a : Capture ScriptNumber) : Prop :=
  { s with cursor := 0 } = { a with cursor := 0 }

theorem ready_of_cursor {c : Capture ScriptNumber} (h : c.cursor = 0) (s : Script) :
    c.ready s = s.within c.log.length c.taken := by
  unfold ready Script.within
  rw [h, List.drop_zero]
  rfl

theorem total_ready {c : Capture ScriptNumber} (h : c.cursor = 0) {s : Script} (hs : s.Regular) :
    Cost.total ((c.ready s).flatMap c.costs) =
      ((s.within c.log.length c.taken).map Element.total).sum := by
  rw [← ready_of_cursor h]
  refine total_flatMap_costs c fun e he => ?_
  exact hs.port_total e (List.drop_subset _ _ ((List.takeWhile_sublist _).subset he))

theorem total_walk_eq {c : Capture ScriptNumber} (h : c.cursor = 0)
    (hlen : c.log.length ≤ logCapacity) {s a : Script} (hs : s.Regular) (ha : a.Regular)
    (hprogress : s.SameProgress a) : Cost.total (c.walk s).2 = Cost.total (c.walk a).2 := by
  show Cost.total ((c.ready s).flatMap c.costs) = Cost.total ((c.ready a).flatMap c.costs)
  rw [total_ready h hs, total_ready h ha, hprogress.total _ hlen]

theorem walk_sameButCursor {c : Capture ScriptNumber} (h : c.cursor = 0)
    (hlen : c.log.length ≤ logCapacity) {s a : Script} (hs : s.Regular) (ha : a.Regular)
    (hprogress : s.SameProgress a) : (c.walk s).1.SameButCursor (c.walk a).1 := by
  have hcosts : Cost.total ((c.ready a).flatMap c.costs) =
      Cost.total ((c.ready s).flatMap c.costs) := (total_walk_eq h hlen hs ha hprogress).symm
  have hlog : (c.mark (c.ready a)).log = (c.mark (c.ready s)).log := by
    rw [ready_of_cursor h, ready_of_cursor h]
    apply List.ext_getElem?
    intro i
    rw [mark_log_getElem?, mark_log_getElem?]
    rcases Nat.lt_or_ge i c.log.length with hi | hi
    · rw [hprogress.slots _ hlen _ i hi]
    · rw [List.getElem?_eq_none hi]
      rfl
  unfold SameButCursor
  simp only [walk, mark, consume] at hlog ⊢
  rw [hcosts, hlog]

theorem cursor_resolve (c : Capture ScriptNumber) : c.resolve.1.cursor = c.cursor := by
  cases h : c.script? with
  | some id => rw [resolve_of_some h]
  | none => rcases resolve_cases h with ⟨_, hres⟩ | ⟨id, taken, _, hres⟩ <;> rw [hres] <;> rfl

theorem length_settle (v : Variant) (c : Capture ScriptNumber) :
    (settle v c).1.log.length = c.resolve.1.log.length := by
  cases h : c.resolve.1.script? with
  | none => rw [settle_of_none v h]
  | some id =>
    rw [settle_of_some v h]
    exact length_walk _ _

/-- **Either chip makes the same of a capture in which nothing has been charged.** -/
theorem settle_sameButCursor {c : Capture ScriptNumber} (h : c.cursor = 0)
    (hlen : c.resolve.1.log.length ≤ logCapacity) :
    (settle .sinclair c).1.SameButCursor (settle .amstrad c).1 := by
  cases hs : c.resolve.1.script? with
  | none =>
    rw [settle_of_none _ hs, settle_of_none _ hs]
    rfl
  | some id =>
    rw [settle_of_some _ hs, settle_of_some _ hs]
    exact walk_sameButCursor ((cursor_resolve c).trans h) hlen (Standard.regular .sinclair id)
      (Standard.regular .amstrad id) (Standard.progress id)

/-- Either chip charges as much for it. -/
theorem total_settle_eq {c : Capture ScriptNumber} (h : c.cursor = 0)
    (hlen : c.resolve.1.log.length ≤ logCapacity) :
    Cost.total (settle .sinclair c).2 = Cost.total (settle .amstrad c).2 := by
  cases hs : c.resolve.1.script? with
  | none => rw [settle_of_none _ hs, settle_of_none _ hs]
  | some id =>
    rw [settle_of_some _ hs, settle_of_some _ hs, Cost.total_append, Cost.total_append,
      total_walk_eq ((cursor_resolve c).trans h) hlen (Standard.regular .sinclair id)
        (Standard.regular .amstrad id) (Standard.progress id)]

/-- The captures of two chips that have been told the same. -/
structure Alike (s a : Capture ScriptNumber) : Prop where
  sameButCursor : s.SameButCursor a
  /-- While an instruction is running both stem from one capture. -/
  stem : s.active = true → s.log.length ≤ logCapacity ∧
    ∃ c : Capture ScriptNumber, c.cursor = 0 ∧ s = (settle .sinclair c).1 ∧
      a = (settle .amstrad c).1

theorem alike_idle {s a : Capture ScriptNumber} (h : s.SameButCursor a) (hidle : s.active = false) :
    Alike s a where
  sameButCursor := h
  stem := fun hactive => absurd (hidle.symm.trans hactive) (by simp)

theorem alike_begin (tstate : Nat) (bc ir : UInt16) :
    Alike (begin tstate bc ir) (begin tstate bc ir) where
  sameButCursor := rfl
  stem := fun _ => ⟨Nat.zero_le _, begin tstate bc ir, rfl, rfl, rfl⟩

theorem Alike.predict {s a : Capture ScriptNumber} (h : Alike s a) (cycles : Nat) :
    Alike (s.predict cycles) (a.predict cycles) where
  sameButCursor := congrArg (Capture.predict · cycles) h.sameButCursor
  stem := by
    intro hactive
    obtain ⟨hlen, c, hcursor, hs, ha⟩ := h.stem hactive
    refine ⟨hlen, c.predict cycles, hcursor, ?_, ?_⟩
    · rw [settle_predict, hs]
    · rw [settle_predict, ha]

theorem Alike.consume {s a : Capture ScriptNumber} (h : Alike s a) (cycles : Nat) :
    Alike (s.consume cycles) (a.consume cycles) where
  sameButCursor := congrArg (Capture.consume · cycles) h.sameButCursor
  stem := by
    intro hactive
    obtain ⟨hlen, c, hcursor, hs, ha⟩ := h.stem hactive
    refine ⟨hlen, c.consume cycles, hcursor, ?_, ?_⟩
    · rw [settle_consume, hs]
    · rw [settle_consume, ha]

/-- **Whatever the two are told, they make the same of it**, and charge as much for it. -/
theorem Alike.settle {s a : Capture ScriptNumber} (h : Alike s a) (hactive : s.active = true)
    (ev : Evidence) (hlen : s.log.length + ev.accesses.length ≤ logCapacity) :
    Alike (settle .sinclair (s.learn ev)).1 (settle .amstrad (a.learn ev)).1 ∧
      Cost.total (Capture.settle .sinclair (s.learn ev)).2 =
        Cost.total (Capture.settle .amstrad (a.learn ev)).2 := by
  obtain ⟨hbefore, c, hcursor, rfl, rfl⟩ := h.stem hactive
  have hstem (v : Variant) : (Capture.settle v ((Capture.settle v c).1.learn ev)).1 =
      (Capture.settle v (c.learn ev)).1 := by
    rw [settle_learn v c ev]
  have htotal (v : Variant) : Cost.total (Capture.settle v (c.learn ev)).2 =
      Cost.total (Capture.settle v c).2 +
        Cost.total (Capture.settle v ((Capture.settle v c).1.learn ev)).2 := by
    rw [settle_learn v c ev, Cost.total_append]
  have hfits : (Capture.settle .sinclair (c.learn ev)).1.log.length ≤ logCapacity := by
    rw [← hstem]
    exact Nat.le_trans (settle_length_le _ _) (by simpa [learn] using hlen)
  have hroom : (c.learn ev).resolve.1.log.length ≤ logCapacity := by
    rw [← length_settle .sinclair]
    exact hfits
  refine ⟨⟨?_, fun _ => ⟨?_, c.learn ev, hcursor, hstem _, hstem _⟩⟩, ?_⟩
  · rw [hstem, hstem]
    exact settle_sameButCursor hcursor hroom
  · rw [hstem]
    exact hfits
  · have hfront := total_settle_eq hcursor (by rw [← length_settle .sinclair]; exact hbefore)
    have hall := total_settle_eq (c := c.learn ev) hcursor hroom
    rw [htotal, htotal, hfront] at hall
    exact Nat.add_left_cancel hall

end Capture

namespace Timer

/-- A Ferranti timer and a gate array timer that have been told the same. -/
structure Alike (s a : Timer) : Prop where
  variant : s.ula.variant = .sinclair
  ula : a.ula = { s.ula with variant := .amstrad }
  undelayed : s.ula.Undelayed
  counter_lt : s.clock.counter < s.ula.frame
  display : a.display = s.display
  clock : a.clock = s.clock
  capture : Capture.Alike s.capture a.capture

theorem alike_fresh {u : Ula} (h : u.Undelayed) (display : Bool) :
    Alike { ula := { u with variant := .sinclair }, display }
      { ula := { u with variant := .amstrad }, display } where
  variant := rfl
  ula := rfl
  undelayed := h
  counter_lt := u.frame_pos
  display := rfl
  clock := rfl
  capture := alike_idle rfl rfl

variable {s a : Timer}

theorem Alike.withClock (h : Alike s a) {clock : Clock} (hcounter : clock.counter < s.ula.frame) :
    Alike { s with clock } { a with clock } where
  variant := h.variant
  ula := h.ula
  undelayed := h.undelayed
  counter_lt := hcounter
  display := h.display
  clock := rfl
  capture := h.capture

theorem Alike.withCapture (h : Alike s a) {c d : Capture ScriptNumber} (hcd : Capture.Alike c d) :
    Alike { s with capture := c } { a with capture := d } where
  variant := h.variant
  ula := h.ula
  undelayed := h.undelayed
  counter_lt := h.counter_lt
  display := h.display
  clock := h.clock
  capture := hcd

theorem Alike.advance_eq (h : Alike s a) (cycles : Nat) :
    a.clock.advance a.ula cycles = s.clock.advance s.ula cycles := by
  rw [h.clock, h.ula]
  rfl

theorem Alike.advance (h : Alike s a) (cycles : Nat) : Alike (s.advance cycles) (a.advance cycles) := by
  unfold Timer.advance
  rw [h.advance_eq]
  exact h.withClock (Clock.counter_advance_lt _ _ _)

theorem Alike.active_eq (h : Alike s a) : s.capture.active = a.capture.active :=
  (congrArg Capture.active h.capture.sameButCursor :)

theorem Alike.isFull_eq (h : Alike s a) : s.capture.isFull = a.capture.isFull :=
  (congrArg Capture.isFull h.capture.sameButCursor :)

theorem Alike.reconciles_eq (h : Alike s a) : s.reconciles = a.reconciles :=
  (congrArg (fun c => c.sumsAgree && c.firstUncharged?.isNone) h.capture.sameButCursor :)

/-- **Alike timers that are told the same are alike.** -/
theorem Alike.settle (h : Alike s a) (hactive : s.capture.active = true) (ev : Evidence)
    (hlen : s.capture.log.length + ev.accesses.length ≤ logCapacity) :
    Alike (s.learn ev).settle (a.learn ev).settle := by
  have hundelayed : a.ula.Undelayed := by
    rw [h.ula]
    exact h.undelayed
  have hcounter : a.clock.counter < a.ula.frame := by
    rw [h.clock, h.ula]
    exact h.counter_lt
  have hs := clock_settle_of_undelayed (t := s.learn ev) h.undelayed h.counter_lt
  have ha := clock_settle_of_undelayed (t := a.learn ev) hundelayed hcounter
  obtain ⟨hcapture, htotal⟩ : Capture.Alike (s.learn ev).settle.capture
      (a.learn ev).settle.capture ∧
      Cost.total (Capture.settle s.ula.variant (s.capture.learn ev)).2 =
        Cost.total (Capture.settle a.ula.variant (a.capture.learn ev)).2 := by
    have hva : a.ula.variant = .amstrad := by rw [h.ula]
    simp only [Timer.settle, learn, h.variant, hva]
    exact h.capture.settle hactive ev hlen
  refine ⟨h.variant, h.ula, h.undelayed, ?_, h.display, ?_, hcapture⟩
  · rw [hs]
    exact Clock.counter_advance_lt _ _ _
  · rw [hs, ha]
    refine (h.advance_eq _).trans ?_
    simp only [learn, htotal]

/-- What can be seen of a step is the same. -/
theorem Alike.notice?_eq {s' a' : Timer} (h : Alike s a) (h' : Alike s' a') (op : Op) :
    s.notice? op s' = a.notice? op a' := by
  have hshows : s.shows op = a.shows op := by
    cases op with
    | record x => simp only [shows, h.active_eq, h.clock]
    | _ => rfl
  simp only [notice?, hshows, h.display, h'.clock]

theorem Alike.begin (h : Alike s a) (bc ir : UInt16) : Alike (s.begin bc ir) (a.begin bc ir) := by
  have hva : a.ula.variant = .amstrad := by rw [h.ula]
  have hs : s.ula.variant.contends = true := by rw [h.variant]; rfl
  have ha : a.ula.variant.contends = true := by rw [hva]; rfl
  have hstart : a.clock.counter = s.clock.counter := by rw [h.clock]
  unfold Timer.begin
  rw [if_pos hs, if_pos ha, hstart]
  exact h.withCapture (alike_begin _ _ _)

theorem Alike.elapse (h : Alike s a) (kind : TimeKind) (cycles : Nat) :
    Alike (s.elapse kind cycles) (a.elapse kind cycles) := by
  have hadvance := h.advance cycles
  have ha := h.active_eq
  cases hs : s.capture.active with
  | false =>
    rw [hs] at ha
    cases kind <;> simp only [Timer.elapse, hs, ← ha, Bool.false_eq_true, if_false] <;>
      exact hadvance
  | true =>
    rw [hs] at ha
    cases kind with
    | documented =>
      simp only [Timer.elapse, hs, ← ha, if_true]
      exact h.withCapture (h.capture.predict cycles)
    | base =>
      simp only [Timer.elapse, hs, ← ha, if_true]
      exact hadvance.withCapture (h.capture.consume cycles)
    | interrupt => exact hadvance
    | delay => exact hadvance

theorem Alike.confirm (h : Alike s a) : Alike s.confirm a.confirm := by
  have ha := h.active_eq
  cases hs : s.capture.active with
  | false =>
    rw [hs] at ha
    have hsame : SameButCursor { s.capture with taken := true } { a.capture with taken := true } :=
      (congrArg (fun c : Capture ScriptNumber => { c with taken := true })
        h.capture.sameButCursor :)
    rw [confirm_of_idle hs, confirm_of_idle ha.symm]
    exact h.withCapture (alike_idle hsame hs)
  | true =>
    rw [hs] at ha
    rw [confirm_of_active hs, confirm_of_active ha.symm, ← learn_taken, ← learn_taken]
    exact h.settle hs { taken := true } (h.capture.stem hs).1

theorem Alike.finish (h : Alike s a) :
    (∃ f, s.finish = .error f ∧ a.finish = .error f) ∨
      ∃ s' a', s.finish = .ok s' ∧ a.finish = .ok a' ∧ Alike s' a' := by
  have hsame : SameButCursor { s.capture with active := false } { a.capture with active := false } :=
    (congrArg (fun c : Capture ScriptNumber => { c with active := false })
      h.capture.sameButCursor :)
  unfold Timer.finish
  rw [← h.active_eq, ← h.reconciles_eq]
  cases s.capture.active with
  | false => exact Or.inr ⟨_, _, rfl, rfl, h⟩
  | true =>
    cases s.reconciles with
    | false => exact Or.inl ⟨_, rfl, rfl⟩
    | true => exact Or.inr ⟨_, _, rfl, rfl, h.withCapture (alike_idle hsame rfl)⟩

theorem Alike.record (h : Alike s a) (x : Access) :
    (∃ f, s.record x = .error f ∧ a.record x = .error f) ∨
      ∃ s' a', s.record x = .ok s' ∧ a.record x = .ok a' ∧ Alike s' a' := by
  have ha := h.active_eq
  have hfa := h.isFull_eq
  cases hs : s.capture.active with
  | false =>
    rw [hs] at ha
    exact Or.inr ⟨_, _, record_of_idle hs x, record_of_idle ha.symm x, h⟩
  | true =>
    rw [hs] at ha
    cases hfs : s.capture.isFull with
    | true =>
      rw [hfs] at hfa
      exact Or.inl ⟨_, record_of_full hs hfs x, record_of_full ha.symm hfa.symm x⟩
    | false =>
      rw [hfs] at hfa
      have hroom : s.capture.log.length < logCapacity := by simpa [isFull] using hfs
      have hsettle := h.settle hs { accesses := [x] } hroom
      rw [learn_access, learn_access] at hsettle
      exact Or.inr ⟨_, _, record_of_room hs hfs x, record_of_room ha.symm hfa.symm x, hsettle⟩

/-- **Alike timers stay alike**, or give up together. -/
theorem Alike.step (h : Alike s a) (op : Op) :
    (∃ f, s.step op = .error f ∧ a.step op = .error f) ∨
      ∃ s' a', s.step op = .ok s' ∧ a.step op = .ok a' ∧ Alike s' a' := by
  cases op with
  | begin bc ir => exact Or.inr ⟨_, _, rfl, rfl, h.begin bc ir⟩
  | finish => exact h.finish
  | elapse kind cycles => exact Or.inr ⟨_, _, rfl, rfl, h.elapse kind cycles⟩
  | record x => exact h.record x
  | confirm => exact Or.inr ⟨_, _, rfl, rfl, h.confirm⟩
  | advance cycles => exact Or.inr ⟨_, _, rfl, rfl, h.advance cycles⟩
  | setCounter tstate =>
    have hset : a.clock.setCounter a.ula tstate = s.clock.setCounter s.ula tstate := by
      rw [h.clock, h.ula]
      rfl
    refine Or.inr ⟨_, _, rfl, rfl, ?_⟩
    rw [hset]
    exact h.withClock (Nat.mod_lt _ s.ula.frame_pos)
  | setBank bank =>
    refine Or.inr ⟨_, _, rfl, rfl, ?_⟩
    rw [h.clock]
    exact h.withClock h.counter_lt
  | reset => exact Or.inr ⟨_, _, rfl, rfl, h.withClock s.ula.frame_pos⟩

/-- What the display is told, operation by operation, up to the first fault. -/
def notices (t : Timer) : List Op → List (Option Nat)
  | [] => []
  | op :: ops =>
    match t.step op with
    | .error _ => []
    | .ok after => t.notice? op after :: after.notices ops

theorem Alike.run : ∀ (ops : List Op) {s a : Timer}, Alike s a →
    s.notices ops = a.notices ops ∧
      ((∃ f, s.run ops = .error f ∧ a.run ops = .error f) ∨
        ∃ s' a', s.run ops = .ok s' ∧ a.run ops = .ok a' ∧ Alike s' a') := by
  intro ops
  induction ops with
  | nil => intro s a h; exact ⟨rfl, Or.inr ⟨s, a, rfl, rfl, h⟩⟩
  | cons op ops ih =>
    intro s a h
    rw [run_cons, run_cons]
    rcases h.step op with ⟨f, hs, ha⟩ | ⟨s', a', hs, ha, h'⟩
    · simp only [notices, hs, ha]
      exact ⟨trivial, Or.inl ⟨f, rfl, rfl⟩⟩
    · obtain ⟨hnotices, hrun⟩ := ih h'
      simp only [notices, hs, ha, hnotices, h.notice?_eq h' op]
      exact ⟨trivial, hrun⟩

/--
**The gate array only redistributes.** Two new timers for machines without delays that differ in the
chip, one with the Ferranti ULA and one with the gate array, are asked for the same. After any number
of operations either both have given up, for the same reason, or they agree on the clock and on all
of the capture but the cursor; and the display has been notified at the same operations, at the same
T-states.
-/
theorem run_redistributed (u : Ula) (hzero : u.pattern = .replicate 8 0) (display : Bool)
    (ops : List Op) :
    notices { ula := { u with variant := .sinclair }, display } ops =
      notices { ula := { u with variant := .amstrad }, display } ops ∧
    ((∃ f, run { ula := { u with variant := .sinclair }, display } ops = .error f ∧
        run { ula := { u with variant := .amstrad }, display } ops = .error f) ∨
      ∃ s a, run { ula := { u with variant := .sinclair }, display } ops = .ok s ∧
        run { ula := { u with variant := .amstrad }, display } ops = .ok a ∧
        s.clock = a.clock ∧ { s.capture with cursor := 0 } = { a.capture with cursor := 0 }) := by
  obtain ⟨hnotices, hrun⟩ := Alike.run ops (alike_fresh hzero display)
  refine ⟨hnotices, ?_⟩
  rcases hrun with hfault | ⟨s, a, hs, ha, h⟩
  · exact Or.inl hfault
  · exact Or.inr ⟨s, a, hs, ha, h.clock.symm, h.capture.sameButCursor⟩

/-- `LDIR` that repeats, before it has written. -/
theorem run_redistributed_ldir :
    ∃ s a, run { ula := { Ula.undelayed48k with variant := .sinclair } }
        [.begin 2 0x4000, .record ⟨0x4000, 0xED, .memoryRead, ""⟩,
          .record ⟨0x4001, 0xB0, .memoryRead, ""⟩, .elapse .documented 21, .confirm,
          .record ⟨0x4002, 0x12, .memoryRead, ""⟩] = .ok s ∧
      run { ula := { Ula.undelayed48k with variant := .amstrad } }
        [.begin 2 0x4000, .record ⟨0x4000, 0xED, .memoryRead, ""⟩,
          .record ⟨0x4001, 0xB0, .memoryRead, ""⟩, .elapse .documented 21, .confirm,
          .record ⟨0x4002, 0x12, .memoryRead, ""⟩] = .ok a ∧
      s.clock = a.clock := by
  have hok : (run { ula := { Ula.undelayed48k with variant := .sinclair } }
      [.begin 2 0x4000, .record ⟨0x4000, 0xED, .memoryRead, ""⟩,
        .record ⟨0x4001, 0xB0, .memoryRead, ""⟩, .elapse .documented 21, .confirm,
        .record ⟨0x4002, 0x12, .memoryRead, ""⟩]).isOk = true := by
    decide +kernel
  obtain ⟨after, hafter⟩ := exists_of_isOk hok
  have h := run_redistributed Ula.undelayed48k rfl false
    [.begin 2 0x4000, .record ⟨0x4000, 0xED, .memoryRead, ""⟩,
      .record ⟨0x4001, 0xB0, .memoryRead, ""⟩, .elapse .documented 21, .confirm,
      .record ⟨0x4002, 0x12, .memoryRead, ""⟩]
  rcases h.2 with ⟨f, hs, -⟩ | ⟨s, a, hs, ha, hclock, -⟩
  · exact absurd (hs.symm.trans hafter) (by simp)
  · exact ⟨s, a, hs, ha, hclock⟩

end Timer

end SpectrumTiming
