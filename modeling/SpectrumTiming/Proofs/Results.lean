import SpectrumTiming.Proofs.Instructions

/-!
# What a program can tell

A program sees its registers, its memory, what operations give back and the bytes that move over the
bus. All of this is a function of the state of the processor (`Op.results`), and what any run that
ends well comes to agrees with it (`run_eq_results`).

The reason is that the timer is told of the actions of the processor and answers none of them. What
it adds to the events are notices for the display; without them the events of any run are those of
the processor alone (`filter_events_play`).
-/

namespace SpectrumTiming

/-- Whether a byte moved. -/
def Event.isBus : Event → Bool
  | .bus _ _ _ => true
  | .display _ => false

namespace Z80

namespace Action

/-- What an action moves over the bus. -/
def traffic : Action → List Event
  | .bus cycle => [cycle.event]
  | .report _ => []

/-- A read shows before the display is notified, every other cycle behind it. -/
theorem events_bus (cycle : BusCycle) (before after : Timer) :
    (bus cycle).events before after =
      if cycle.kind = .read then
        cycle.event :: ((before.notice? (bus cycle).op after).map Event.display).toList
      else ((before.notice? (bus cycle).op after).map Event.display).toList ++ [cycle.event] := by
  obtain ⟨kind, addr, value, tag⟩ := cycle
  cases kind <;> rfl

/-- Without the notices, an action shows what it moves over the bus. -/
theorem filter_events (x : Action) (before after : Timer) :
    (x.events before after).filter Event.isBus = x.traffic := by
  have hnotice : ((before.notice? x.op after).map Event.display).toList.filter Event.isBus = [] := by
    cases before.notice? x.op after <;> rfl
  cases x with
  | report op => exact hnotice
  | bus cycle =>
    rw [events_bus]
    split
    · rw [List.filter_cons_of_pos (by rfl), hnotice]
      rfl
    · rw [List.filter_append, hnotice]
      rfl

end Action

/-- What operations give back and move over the bus, one after the other. -/
def Op.results (s : State) : List Op → List (Option UInt16 × List Event)
  | [] => []
  | op :: ops =>
    (op.work.value s, (op.work.actions s).flatMap Action.traffic) :: results (op.work.state s) ops

end Z80

namespace Timer

/-- The first action and the rest. -/
theorem play_cons_eq_ok {t last : Timer} {x : Z80.Action} {xs : List Z80.Action}
    {events : List Event} :
    t.play (x :: xs) = .ok (last, events) ↔
      ∃ after rest, t.step x.op = .ok after ∧ after.play xs = .ok (last, rest) ∧
        x.events t after ++ rest = events := by
  rw [play]
  cases t.step x.op with
  | error f => simp
  | ok after =>
    cases hplay : after.play xs with
    | error f => simp [hplay]
    | ok played => simp [hplay, Prod.ext_iff, and_assoc]

/-- **Actions that are played in a row.** -/
theorem play_append (t : Timer) (xs ys : List Z80.Action) :
    t.play (xs ++ ys) = (t.play xs).bind fun played =>
      (played.1.play ys).map fun last => (last.1, played.2 ++ last.2) := by
  induction xs generalizing t with
  | nil =>
    show t.play ys = (t.play ys).map fun last => (last.1, last.2)
    cases t.play ys <;> rfl
  | cons x xs ih =>
    rw [List.cons_append, play, play]
    cases t.step x.op with
    | error f => rfl
    | ok after =>
      simp only [ih]
      cases after.play xs with
      | error f => rfl
      | ok played =>
        simp only [Except.bind]
        cases played.1.play ys with
        | error f => rfl
        | ok last => simp [Except.map]

theorem play_append_eq_ok {xs ys : List Z80.Action} {t last : Timer} {events : List Event} :
    t.play (xs ++ ys) = .ok (last, events) ↔
      ∃ next first rest, t.play xs = .ok (next, first) ∧ next.play ys = .ok (last, rest) ∧
        first ++ rest = events := by
  rw [play_append]
  cases t.play xs with
  | error f => simp [Except.bind]
  | ok played =>
    cases hrest : played.1.play ys with
    | error f => simp [Except.bind, Except.map, hrest, Prod.ext_iff]
    | ok ended => simp [Except.bind, Except.map, hrest, Prod.ext_iff, and_assoc]

/-- Without the notices, the events are those of the processor. -/
theorem filter_events_play {xs : List Z80.Action} {t last : Timer} {events : List Event}
    (h : t.play xs = .ok (last, events)) :
    events.filter Event.isBus = xs.flatMap Z80.Action.traffic := by
  induction xs generalizing t events with
  | nil =>
    cases h
    rfl
  | cons x xs ih =>
    obtain ⟨after, rest, -, hplay, rfl⟩ := play_cons_eq_ok.mp h
    rw [List.filter_append, x.filter_events, ih hplay, List.flatMap_cons]

end Timer

namespace Computer

/-- What a report says, the time apart. -/
def Report.timeless (r : Report) : Option UInt16 × List Event :=
  (r.value?, r.events.filter Event.isBus)

/-- The first operation and the rest. -/
theorem run_cons_eq_ok {c last : Computer} {op : Z80.Op} {ops : List Z80.Op}
    {reports : List Report} :
    c.run (op :: ops) = .ok (last, reports) ↔
      ∃ timer events rest,
        c.timer.play (op.work.actions c.processor) = .ok (timer, events) ∧
        run { processor := op.work.state c.processor, timer } ops = .ok (last, rest) ∧
        { value? := op.work.value c.processor, events } :: rest = reports := by
  rw [run, step_eq]
  cases c.timer.play (op.work.actions c.processor) with
  | error f => simp [Except.map]
  | ok played =>
    cases hrun : run { processor := op.work.state c.processor, timer := played.1 } ops with
    | error f => simp [Except.map, hrun, Prod.ext_iff]
    | ok ran => simp [Except.map, hrun, Prod.ext_iff, and_assoc]

theorem run_append_eq_ok {xs ys : List Z80.Op} {c last : Computer} {reports : List Report} :
    c.run (xs ++ ys) = .ok (last, reports) ↔
      ∃ next first rest, c.run xs = .ok (next, first) ∧ next.run ys = .ok (last, rest) ∧
        first ++ rest = reports := by
  induction xs generalizing c reports with
  | nil => simp [run]
  | cons x xs ih =>
    rw [List.cons_append, run_cons_eq_ok]
    constructor
    · rintro ⟨timer, events, tail, hplay, hrun, rfl⟩
      obtain ⟨next, first, rest, hxs, hys, rfl⟩ := ih.mp hrun
      exact ⟨next, _, rest, run_cons_eq_ok.mpr ⟨timer, events, first, hplay, hxs, rfl⟩, hys, rfl⟩
    · rintro ⟨next, first, rest, hcons, hys, rfl⟩
      obtain ⟨timer, events, head, hplay, hxs, rfl⟩ := run_cons_eq_ok.mp hcons
      exact ⟨timer, events, _, hplay, ih.mpr ⟨next, head, rest, hxs, hys, rfl⟩, rfl⟩

/-- The timer plays what others see of the processor. -/
theorem play_of_run {ops : List Z80.Op} {c after : Computer} {reports : List Report}
    (h : c.run ops = .ok (after, reports)) :
    c.timer.play (Z80.Op.seen c.processor ops) =
      .ok (after.timer, reports.flatMap Report.events) := by
  induction ops generalizing c reports with
  | nil =>
    cases h
    rfl
  | cons op ops ih =>
    obtain ⟨timer, events, rest, hplay, hrun, rfl⟩ := run_cons_eq_ok.mp h
    exact Timer.play_append_eq_ok.mpr ⟨timer, events, _, hplay, ih hrun, rfl⟩

/-- **What a run comes to is up to the processor.** -/
theorem run_eq_results {ops : List Z80.Op} {c after : Computer} {reports : List Report}
    (h : c.run ops = .ok (after, reports)) :
    after.processor = Z80.Op.after c.processor ops ∧
      reports.map Report.timeless = Z80.Op.results c.processor ops := by
  induction ops generalizing c reports with
  | nil =>
    cases h
    exact ⟨rfl, rfl⟩
  | cons op ops ih =>
    obtain ⟨timer, events, rest, hplay, hrun, rfl⟩ := run_cons_eq_ok.mp h
    obtain ⟨hstate, hrest⟩ := ih hrun
    refine ⟨hstate, ?_⟩
    rw [List.map_cons, hrest, Report.timeless, Timer.filter_events_play hplay]
    rfl

end Computer

end SpectrumTiming
