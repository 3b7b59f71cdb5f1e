import SpectrumTiming.Proofs.Bounds
import SpectrumTiming.Proofs.BusTrace

/-!
# When the display is notified

A display that listens is told to catch up right before the picture changes under it, and at the end
of every instruction. What a run shows is, action by action, the notice that is due, if one is due,
and then what moves over the bus (`run_notifies`). A notice is due at the end of an instruction and
in front of a write that shows on the screen, as long as an instruction is being captured; it names
the T-state at which the clock stands once all has been charged that the write makes chargeable, and
that is a T-state of the frame. There are no other notices.

A run is taken apart into its actions, each with the timer before and after it (`Timer.moments`), and
into its operations, each with what it shows (`Computer.events_of_step`).
-/

namespace SpectrumTiming

namespace Z80

/-- Whether a cycle changes the picture: it reaches the border port, the pixels or the attributes,
or these same at the top of memory while bank 5 is there. -/
def BusCycle.OnScreen (bank : Nat) (c : BusCycle) : Prop :=
  match c.kind with
  | .read | .input => False
  | .write =>
    (0x4000 ≤ c.addr.toNat ∧ c.addr.toNat ≤ 0x5AFF) ∨
      (bank = 5 ∧ 0xC000 ≤ c.addr.toNat ∧ c.addr.toNat ≤ 0xDAFF)
  | .output => c.addr.toNat % 0x100 = 0xFE

instance (bank : Nat) : (c : BusCycle) → Decidable (c.OnScreen bank)
  | ⟨.read, _, _, _⟩ => inferInstanceAs (Decidable False)
  | ⟨.input, _, _, _⟩ => inferInstanceAs (Decidable False)
  | ⟨.write, _, _, _⟩ => inferInstanceAs (Decidable (_ ∨ _))
  | ⟨.output, _, _, _⟩ => inferInstanceAs (Decidable (_ = _))

theorem BusCycle.visible_access (c : BusCycle) (bank : Nat) :
    c.access.visible bank = true ↔ c.OnScreen bank := by
  obtain ⟨kind, addr, value, tag⟩ := c
  cases kind with
  | read => simp [access, Access.visible, OnScreen, AccessMarks.memoryRead]
  | input => simp [access, Access.visible, OnScreen, AccessMarks.portRead]
  | write =>
    simp [access, Access.visible, OnScreen, AccessMarks.memoryWrite, UInt16.le_iff_toNat_le,
      and_assoc]
  | output =>
    simp [access, Access.visible, OnScreen, AccessMarks.portWrite, ← UInt8.toNat_inj]

end Z80

namespace Timer

/-! ## Moments -/

/-- An action with the timer before and after it. -/
structure Moment where
  before : Timer
  action : Z80.Action
  after : Timer

namespace Moment

/-- Whether the display is to be notified. -/
def Due (m : Moment) : Prop :=
  match m.action with
  | .report op => op = .finish
  | .bus cycle => m.before.capture.active = true ∧ cycle.OnScreen m.before.clock.bank

instance : (m : Moment) → Decidable m.Due
  | ⟨_, .report _, _⟩ => inferInstanceAs (Decidable (_ = _))
  | ⟨_, .bus _, _⟩ => inferInstanceAs (Decidable (_ ∧ _))

/-- The notice that is due, and then what moves over the bus. -/
def trace (m : Moment) : List Event :=
  (if m.Due then [.display m.after.clock.counter] else []) ++ m.action.traffic

/-- What a listening display and the bus see of an action is its trace, unless an access is logged
that nobody made. -/
theorem trace_eq {before after : Timer} {action : Z80.Action} (hdisplay : before.display = true)
    (hreal : ∀ a, action ≠ .report (.record a)) :
    action.events before after = trace ⟨before, action, after⟩ := by
  cases action with
  | report op =>
    cases op with
    | record a => exact absurd rfl (hreal a)
    | finish =>
      simp [Z80.Action.events, notice?, shows, Z80.Action.op, trace, Due, Z80.Action.traffic,
        hdisplay]
    | _ => simp [Z80.Action.events, notice?, shows, Z80.Action.op, trace, Due, Z80.Action.traffic]
  | bus cycle =>
    have hshows : before.shows (.record cycle.access) = true ↔ Due ⟨before, .bus cycle, after⟩ := by
      simp [shows, Due, cycle.visible_access]
    have hnotice : before.notice? (.record cycle.access) after =
        if Due ⟨before, .bus cycle, after⟩ then some after.clock.counter else none := by
      simp only [notice?, hdisplay, Bool.true_and, hshows]
    rw [Z80.Action.events_bus, trace, Z80.Action.op, hnotice]
    -- only a read shows ahead of its notice, and none is due for a read
    split
    · rename_i hread
      have hnone : ¬ Due ⟨before, .bus cycle, after⟩ := by
        simp [Due, Z80.BusCycle.OnScreen, hread]
      simp [hnone, Z80.Action.traffic]
    · split <;> rfl

/-- A notice names the T-state at which the clock stands. -/
theorem eq_counter_of_mem_trace (m : Moment) {n : Nat} (hn : Event.display n ∈ m.trace) :
    n = m.after.clock.counter := by
  rcases List.mem_append.mp hn with hn | hn
  · split at hn
    · simpa using hn
    · simp at hn
  · cases haction : m.action <;> simp [haction, Z80.Action.traffic, Z80.BusCycle.event] at hn

end Moment

/-- The moments of actions that are played, up to the first fault. -/
def moments (t : Timer) : List Z80.Action → List Moment
  | [] => []
  | x :: xs =>
    match t.step x.op with
    | .error _ => []
    | .ok after => ⟨t, x, after⟩ :: after.moments xs

theorem moments_cons {t after : Timer} {x : Z80.Action} (hs : t.step x.op = .ok after)
    (xs : List Z80.Action) : t.moments (x :: xs) = ⟨t, x, after⟩ :: after.moments xs := by
  rw [moments, hs]

theorem events_eq_moments {xs : List Z80.Action} {t last : Timer} {events : List Event}
    (hdisplay : t.display = true) (hreal : ∀ x ∈ xs, ∀ a, x ≠ .report (.record a))
    (hplay : t.play xs = .ok (last, events)) :
    (t.moments xs).map Moment.action = xs ∧ events = (t.moments xs).flatMap Moment.trace := by
  induction xs generalizing t events with
  | nil =>
    cases hplay
    exact ⟨rfl, rfl⟩
  | cons x xs ih =>
    obtain ⟨hx, hrest⟩ := List.forall_mem_cons.mp hreal
    obtain ⟨after, rest, hs, hnext, rfl⟩ := play_cons_eq_ok.mp hplay
    obtain ⟨hactions, rfl⟩ := ih ((step_machine hs).2.trans hdisplay) hrest hnext
    have hevents : x.events t after = Moment.trace ⟨t, x, after⟩ := Moment.trace_eq hdisplay hx
    rw [moments_cons hs, List.map_cons, hactions, List.flatMap_cons, ← hevents]
    exact ⟨rfl, rfl⟩

theorem display_play {xs : List Z80.Action} {t last : Timer} {events : List Event}
    (hplay : t.play xs = .ok (last, events)) : last.display = t.display := by
  induction xs generalizing t events with
  | nil =>
    cases hplay
    rfl
  | cons x xs ih =>
    obtain ⟨after, rest, hs, hnext, -⟩ := play_cons_eq_ok.mp hplay
    exact (ih hnext).trans (step_machine hs).2

/-! ## What is running -/

/-- Whether an instruction runs after an operation, if one ran before. -/
def Op.running (before : Bool) : Op → Bool
  | .begin _ _ => true
  | .finish => false
  | _ => before

/-- Whether an instruction runs after operations that begin between two instructions. -/
def Op.runningAfter (ops : List Op) : Bool := ops.foldl running false

/-- A timer captures while an instruction runs, on a machine with contention. -/
theorem active_step {t after : Timer} {running : Bool} {op : Op}
    (h : t.capture.active = (t.ula.variant.contends && running)) (hs : t.step op = .ok after) :
    after.capture.active = (after.ula.variant.contends && op.running running) := by
  rw [(step_machine hs).1]
  cases op with
  | begin bc ir =>
    cases hs
    unfold begin
    cases hv : t.ula.variant.contends with
    | true => rfl
    | false =>
      rw [hv] at h
      exact h
  | finish =>
    rw [eq_of_finish hs]
    exact (Bool.and_false _).symm
  | record a =>
    rcases record_eq_ok.mp hs with ⟨-, rfl⟩ | ⟨-, -, rfl⟩
    · exact h
    · exact (Capture.settle_frame _ _).1.trans h
  | confirm =>
    cases hs
    rcases t.confirm_cases with hconfirm | hconfirm
    · rw [hconfirm]
      exact h
    · rw [hconfirm]
      exact (Capture.settle_frame _ _).1.trans h
  | elapse kind cycles =>
    cases hs
    obtain ⟨capture, hactive, -, -, helapse | helapse⟩ := t.elapse_cases kind cycles
    · rw [helapse]
      exact hactive.trans h
    · rw [helapse]
      exact hactive.trans h
  | advance cycles => cases hs; exact h
  | setCounter tstate => cases hs; exact h
  | setBank bank => cases hs; exact h
  | reset => cases hs; exact h

/-- What is known of each moment, from the actions in front of it. -/
theorem moments_split {xs : List Z80.Action} {t : Timer} (running : Bool) (h : t.InBounds)
    (hactive : t.capture.active = (t.ula.variant.contends && running)) {front rest : List Moment}
    {m : Moment} (hsplit : t.moments xs = front ++ m :: rest) :
    m.before.step m.action.op = .ok m.after ∧ m.before.InBounds ∧ m.before.ula = t.ula ∧
      m.before.capture.active = (t.ula.variant.contends &&
        (front.map fun n => n.action.op).foldl Op.running running) := by
  induction xs generalizing t running front with
  | nil => simp [moments] at hsplit
  | cons x xs ih =>
    cases hs : t.step x.op with
    | error f => simp [moments, hs] at hsplit
    | ok after =>
      rw [moments_cons hs] at hsplit
      cases front with
      | nil =>
        obtain ⟨rfl, -⟩ := List.cons.inj hsplit
        exact ⟨hs, h, rfl, hactive⟩
      | cons first front =>
        obtain ⟨rfl, htail⟩ := List.cons.inj hsplit
        have hula := (step_machine hs).1
        have hnext := ih _ (h.step hs) (active_step hactive hs) htail
        rwa [hula] at hnext

/-- Once a cycle of a captured instruction has been logged, all is charged that can be. -/
theorem charged_of_record {t after : Timer} {a : Access} (hactive : t.capture.active = true)
    (hs : t.step (.record a) = .ok after) :
    after.clock =
        t.clock.payAll t.ula (Capture.settle t.ula.variant (t.capture.push a)).2 ∧
      after.capture.Settled t.ula.variant := by
  rcases record_eq_ok.mp hs with ⟨hidle, -⟩ | ⟨-, -, rfl⟩
  · exact absurd (hactive.symm.trans hidle) (by simp)
  · exact ⟨rfl, Capture.settled_settle _ _⟩

end Timer

theorem Machine.frame_of_ula {m : Machine} {u : Ula} (h : m.ula = .ok u) : u.frame = m.frame := by
  unfold Machine.ula at h
  cases hp : m.delays with
  | error e => simp [hp, bind, Except.bind] at h
  | ok pattern =>
    cases hb : m.bankNumbers with
    | error e => simp [hp, hb, bind, Except.bind] at h
    | ok banks =>
      simp only [hp, hb, bind, Except.bind] at h
      split at h
      · simp at h
      · split at h
        · simp at h
        · rw [← Except.ok.inj h]

namespace Z80

theorem Action.ne_record_of_ordinary {x : Action} (h : x.ordinary = true) :
    ∀ a, x ≠ .report (.record a) := by
  rintro a rfl
  simp [ordinary] at h

/-- An operation reports an access that nobody made only when it is told to. -/
theorem Op.ne_record_of_told {op : Op} (hop : ∀ a, op ≠ .report (.record a)) {s : State}
    {told : Timer.Op} (htold : op.told? s = some told) :
    ∀ a, Action.report told ≠ .report (.record a) := by
  rintro a ⟨⟩
  cases op with
  | report op =>
    cases htold
    exact hop a rfl
  | _ => simp [told?] at htold

end Z80

namespace Computer

/-- An operation is done when its actions have been played. -/
theorem step_eq_ok_iff {c after : Computer} {op : Z80.Op} {report : Report} :
    c.step op = .ok (after, report) ↔
      c.timer.play (op.work.actions c.processor) = .ok (after.timer, report.events) ∧
        after.processor = op.work.state c.processor ∧
        report.value? = op.work.value c.processor := by
  obtain ⟨processor, timer⟩ := after
  obtain ⟨value?, events⟩ := report
  rw [step_eq]
  cases c.timer.play (op.work.actions c.processor) with
  | error f => simp [Except.map]
  | ok played =>
    simp only [Except.map, Except.ok.injEq, Prod.ext_iff, mk.injEq, Report.mk.injEq]
    grind

/-- A run, taken apart at one of its operations. -/
theorem exists_of_run_append_cons {front rest : List Z80.Op} {op : Z80.Op} {c last : Computer}
    {reports : List Report} (hrun : c.run (front ++ op :: rest) = .ok (last, reports)) :
    ∃ before after report first others, c.run front = .ok (before, first) ∧
      before.step op = .ok (after, report) ∧ after.run rest = .ok (last, others) ∧
      reports = first ++ report :: others := by
  obtain ⟨before, first, tail, hfront, htail, rfl⟩ := run_append_eq_ok.mp hrun
  obtain ⟨timer, events, others, hplay, hrest, rfl⟩ := run_cons_eq_ok.mp htail
  exact ⟨before, _, _, first, others, hfront, step_eq_ok_iff.mpr ⟨hplay, rfl, rfl⟩, hrest, rfl⟩

/-- What an operation shows are the traces of its moments. The end of an instruction is one moment,
and all that it shows is the notice. -/
theorem events_of_step {before after : Computer} {op : Z80.Op} {report : Report}
    (hdisplay : before.timer.display = true) (hop : ∀ a, op ≠ .report (.record a))
    (hs : before.step op = .ok (after, report)) :
    report.events =
        (before.timer.moments (op.work.actions before.processor)).flatMap Timer.Moment.trace ∧
      (op.told? before.processor = some .finish →
        report.events = [.display after.timer.clock.counter]) := by
  obtain ⟨hplay, -, -⟩ := step_eq_ok_iff.mp hs
  have hreal : ∀ x ∈ op.work.actions before.processor, ∀ a, x ≠ .report (.record a) := by
    intro x hx
    rcases Z80.Op.ordinary_or_told hx with hx | ⟨told, htold, rfl⟩
    · exact Z80.Action.ne_record_of_ordinary hx
    · exact Z80.Op.ne_record_of_told hop htold
  obtain ⟨-, hevents⟩ := Timer.events_eq_moments hdisplay hreal hplay
  refine ⟨hevents, fun hfinish => ?_⟩
  have hactions : op.work.actions before.processor = [.report .finish] := by
    rcases op.actions_cases before.processor with ⟨told, htold, hactions⟩ | ⟨hnone, -⟩
    · rw [hactions, Option.some.inj (htold.symm.trans hfinish)]
    · exact absurd (hnone.symm.trans hfinish) (by simp)
  rw [hactions] at hplay hevents
  obtain ⟨finished, tail, hstep, hdone, -⟩ := Timer.play_cons_eq_ok.mp hplay
  have hfinal : finished = after.timer := congrArg Prod.fst (Except.ok.inj hdone)
  rw [hevents, Timer.moments_cons hstep, hfinal]
  rfl

/--
**When the display is notified.** Take a new machine with a listening display, and a processor in
any state that does anything at all, as long as the timer does not fault. The notices and the bus
events of the run are, action by action, the notice that is due and then what moves over the bus. So
a notice stands right in front of each captured write that shows on the screen and at the end of each
instruction, and nowhere else. A write is captured if an instruction is running, on a machine with
contention. Its notice names the T-state behind all charges that the write made possible: they are
paid and nothing more can be charged. Every notice names a T-state of the frame. The same holds of
each operation by itself: what is reported of it are the traces of its own moments, and of the end of
an instruction nothing but one notice with the T-state at which the clock stands in the end.
-/
theorem run_notifies {machine : Machine} {t : Timer} (hm : Timer.ofMachine machine true = .ok t)
    (s : Z80.State) {ops : List Z80.Op} (hops : ∀ op ∈ ops, ∀ a, op ≠ .report (.record a))
    {last : Computer} {reports : List Report}
    (hrun : run { processor := s, timer := t } ops = .ok (last, reports)) :
    let moments := t.moments (Z80.Op.seen s ops)
    moments.map Timer.Moment.action = Z80.Op.seen s ops ∧
    reports.flatMap Report.events = moments.flatMap Timer.Moment.trace ∧
    (∀ front m rest, moments = front ++ m :: rest →
      m.before.step m.action.op = .ok m.after ∧
      m.before.capture.active =
        (machine.variant.contends && Timer.Op.runningAfter (front.map fun n => n.action.op)) ∧
      ∀ cycle, m.action = .bus cycle → m.before.capture.active = true →
        m.after.clock = m.before.clock.payAll t.ula
            (Capture.settle machine.variant (m.before.capture.push cycle.access)).2 ∧
          m.after.capture.Settled machine.variant) ∧
    (∀ n, Event.display n ∈ reports.flatMap Report.events → n < machine.frame) ∧
    ∀ front op rest, ops = front ++ op :: rest →
      ∃ before after report first others,
        run { processor := s, timer := t } front = .ok (before, first) ∧
        before.step op = .ok (after, report) ∧ after.run rest = .ok (last, others) ∧
        reports = first ++ report :: others ∧
        report.events =
          (before.timer.moments (op.work.actions before.processor)).flatMap
            Timer.Moment.trace ∧
        (op = .finish ∨ op = .report .finish →
          report.events = [.display after.timer.clock.counter]) := by
  intro moments
  obtain ⟨u, hu, rfl⟩ := Timer.ofMachine_eq_ok hm
  have hvariant : u.variant = machine.variant := Machine.variant_of_ula hu
  have hreal : ∀ x ∈ Z80.Op.seen s ops, ∀ a, x ≠ .report (.record a) :=
    Z80.Op.forall_mem_seen (fun _ => Z80.Action.ne_record_of_ordinary)
      (fun op hop _ _ => Z80.Op.ne_record_of_told (hops op hop)) s
  obtain ⟨hactions, hevents⟩ := Timer.events_eq_moments rfl hreal (play_of_run hrun)
  have hmoment {front rest : List Timer.Moment} {m : Timer.Moment}
      (hsplit : moments = front ++ m :: rest) :=
    Timer.moments_split false (Timer.inBounds_new u true) (Bool.and_false _).symm hsplit
  refine ⟨hactions, hevents, ?_, ?_, ?_⟩
  · intro front m rest hsplit
    obtain ⟨hs, -, hula, hactive⟩ := hmoment hsplit
    rw [hvariant] at hactive
    refine ⟨hs, hactive, fun cycle hcycle hcaptured => ?_⟩
    rw [hcycle] at hs
    have hcharged := Timer.charged_of_record hcaptured hs
    rwa [hula, hvariant] at hcharged
  · intro n hn
    rw [hevents] at hn
    obtain ⟨m, hm, hn⟩ := List.mem_flatMap.mp hn
    obtain ⟨front, rest, hsplit⟩ := List.append_of_mem hm
    obtain ⟨hs, hbounds, hula, -⟩ := hmoment hsplit
    have hframe : m.after.ula.frame = machine.frame := by
      rw [(Timer.step_machine hs).1, hula]
      exact Machine.frame_of_ula hu
    rw [m.eq_counter_of_mem_trace hn, ← hframe]
    exact (hbounds.step hs).clock.counter_lt
  · rintro front op rest rfl
    obtain ⟨before, after, report, first, others, hfront, hstep, hrest, rfl⟩ :=
      exists_of_run_append_cons hrun
    have hdisplay : before.timer.display = true := Timer.display_play (play_of_run hfront)
    obtain ⟨htrace, hfinish⟩ := events_of_step hdisplay (hops op (by simp)) hstep
    refine ⟨before, after, report, first, others, hfront, hstep, hrest, rfl, htrace, ?_⟩
    rintro (rfl | rfl)
    · exact hfinish rfl
    · exact hfinish rfl

/-- On a 48K, a byte is written to the attributes, a pair is pushed to the second copy of the pixels,
and the border is set outside of any instruction. -/
theorem run_notifies_push :
    let s : Z80.State :=
      { regs := { hl := 0x5800, sp := 0xC002, pc := 0x8000 }
        memory := Z80.Memory.load (fun _ => 0) 0x8000 [0x77, 0xC5] }
    let t : Timer := { ula := .spectrum48k, display := true }
    let ops : List Z80.Op :=
      [.begin, .fetch, .spend .primary 0x77, .write 0x5800 0x38, .finish, .report (.setBank 5),
        .begin, .fetch, .spend .primary 0xC5, .push 0x1234, .finish, .output 0x00FE 2]
    ∃ last reports, run { processor := s, timer := t } ops = .ok (last, reports) ∧
      reports.map Report.events =
        [[], [.bus .read 0x8000 0x77], [], [.display 7, .bus .write 0x5800 0x38], [.display 7], [],
          [], [.bus .read 0x8001 0xC5], [],
          [.display 15, .bus .write 0xC001 0x12, .display 18, .bus .write 0xC000 0x34],
          [.display 18], [.bus .output 0x00FE 2]] ∧
      reports.flatMap Report.events =
        (t.moments (Z80.Op.seen s ops)).flatMap Timer.Moment.trace := by
  intro s t ops
  have hm : Timer.ofMachine .spectrum48k true = .ok t := by
    rw [Timer.ofMachine, Machine.ula_spectrum48k]
    rfl
  have hops : ∀ op ∈ ops, ∀ a, op ≠ .report (.record a) := by simp [ops]
  have hshown : (run { processor := s, timer := t } ops).map (·.2.map Report.events) =
      .ok [[], [.bus .read 0x8000 0x77], [], [.display 7, .bus .write 0x5800 0x38], [.display 7],
        [], [], [.bus .read 0x8001 0xC5], [],
        [.display 15, .bus .write 0xC001 0x12, .display 18, .bus .write 0xC000 0x34],
        [.display 18], [.bus .output 0x00FE 2]] := by decide +kernel
  obtain ⟨⟨last, reports⟩, hrun, hevents⟩ := exists_of_map_eq_ok hshown
  exact ⟨last, reports, hrun, hevents, (run_notifies hm s hops hrun).2.1⟩

end Computer

end SpectrumTiming
