import SpectrumTiming.Proofs.Settling

/-!
# The order of reports

Within an instruction an executor reports accesses, documented T-states and a taken branch. How
these are interleaved is up to the executor: the bytes may all be fetched before any time is
reported, or each piece of time may follow its own access. The timer does not care. What it does to
the clock and to the capture depends on the accesses in their order, on the documented T-states in
all, and on whether the optional path was confirmed at all (`run_eq_of_schedule`).

The reason is that a settled timer which is told something ends up where it would be had it been
told everything at once (`run_eq_absorb`). It faults exactly when the log is too long once it has
settled.
-/

namespace SpectrumTiming

open Capture

theorem exists_of_map_eq_ok {ε α β : Type} {x : Except ε α} {f : α → β} {y : β}
    (h : x.map f = .ok y) : ∃ a, x = .ok a ∧ f a = y := by
  cases x with
  | error fault => exact absurd h (by simp [Except.map])
  | ok a => exact ⟨a, rfl, Except.ok.inj h⟩

theorem exists_of_isOk {ε α : Type} {x : Except ε α} (h : x.isOk = true) : ∃ a, x = .ok a := by
  cases x with
  | error fault => exact absurd h Bool.false_ne_true
  | ok a => exact ⟨a, rfl⟩

theorem ne_error_of_isOk {ε α : Type} {x : Except ε α} (h : x.isOk = true) {fault : ε} :
    x ≠ .error fault := by
  rintro rfl
  exact Bool.false_ne_true h

theorem foldlM_cons_eq_ok {ε σ α : Type} {f : σ → α → Except ε σ} {s after : σ} {x : α}
    {xs : List α} : (x :: xs).foldlM f s = .ok after ↔
      ∃ next, f s x = .ok next ∧ xs.foldlM f next = .ok after := by
  rw [List.foldlM_cons]
  cases f s x with
  | error fault => simp [bind, Except.bind]
  | ok next => simp [bind, Except.bind]

theorem foldlM_append_eq_ok {ε σ α : Type} {f : σ → α → Except ε σ} {s after : σ}
    {xs ys : List α} : (xs ++ ys).foldlM f s = .ok after ↔
      ∃ next, xs.foldlM f s = .ok next ∧ ys.foldlM f next = .ok after := by
  rw [List.foldlM_append]
  cases xs.foldlM f s with
  | error fault => simp [bind, Except.bind]
  | ok next => simp [bind, Except.bind]

/-- The ZX Spectrum 48K, read. -/
def Ula.spectrum48k : Ula where
  variant := .sinclair
  pattern := #v[6, 5, 4, 3, 2, 1, 0, 0]
  start := 14335
  line := 224
  frame := 69888
  banks := []
  line_pos := by decide
  frame_pos := by decide

theorem Machine.ula_spectrum48k : spectrum48k.ula = .ok .spectrum48k := by
  rfl

namespace Timer

theorem run_append_eq_ok {t after : Timer} {xs ys : List Op} :
    t.run (xs ++ ys) = .ok after ↔ ∃ next, t.run xs = .ok next ∧ next.run ys = .ok after :=
  foldlM_append_eq_ok

theorem run_cons_eq_ok {t after : Timer} {op : Op} {ops : List Op} :
    t.run (op :: ops) = .ok after ↔ ∃ next, t.step op = .ok next ∧ next.run ops = .ok after :=
  foldlM_cons_eq_ok

theorem run_singleton (t : Timer) (op : Op) : t.run [op] = t.step op := by
  rw [run_cons]
  cases t.step op <;> rfl

/-- Takes note of evidence, without charging anything for it. -/
def learn (t : Timer) (ev : Evidence) : Timer := { t with capture := t.capture.learn ev }

theorem learn_learn (t : Timer) (e f : Evidence) :
    (t.learn e).learn f = t.learn (e.andThen f) := by
  simp [learn, Capture.learn_learn]

theorem learn_access (t : Timer) (a : Access) :
    t.learn { accesses := [a] } = { t with capture := t.capture.push a } := by
  simp [learn, Capture.learn, push]

theorem learn_taken (t : Timer) :
    t.learn { taken := true } = { t with capture := { t.capture with taken := true } } := by
  simp [learn, Capture.learn]

/-! ## Accesses and confirmations by cases -/

theorem record_of_idle {t : Timer} (h : t.capture.active = false) (a : Access) :
    t.record a = .ok t := by
  simp [record, h]

theorem record_of_full {t : Timer} (h : t.capture.active = true) (hfull : t.capture.isFull = true)
    (a : Access) : t.record a = .error .logFull := by
  simp [record, h, hfull]

theorem record_of_room {t : Timer} (h : t.capture.active = true) (hroom : t.capture.isFull = false)
    (a : Access) : t.record a = .ok (settle { t with capture := t.capture.push a }) := by
  simp [record, h, hroom]

theorem confirm_of_idle {t : Timer} (h : t.capture.active = false) :
    t.confirm = { t with capture := { t.capture with taken := true } } := by
  simp [confirm, h]

theorem confirm_of_active {t : Timer} (h : t.capture.active = true) :
    t.confirm = settle { t with capture := { t.capture with taken := true } } := by
  simp [confirm, h]

/-! ## Settling now or later -/

/-- **It does not matter when a timer settles**: the clock pays the same costs in the same order. -/
theorem settle_learn (t : Timer) (ev : Evidence) :
    (t.settle.learn ev).settle = (t.learn ev).settle := by
  simp only [settle, learn]
  rw [Capture.settle_learn t.ula.variant t.capture ev, Clock.payAll_append]

/-- A timer that is running an instruction and has charged all that the log allows. -/
structure Ready (t : Timer) : Prop where
  active : t.capture.active = true
  settled : t.capture.Settled t.ula.variant
  fits : t.capture.log.length ≤ logCapacity

theorem ready_begin (t : Timer) (hv : t.ula.variant.contends = true) (bc ir : UInt16) :
    (t.begin bc ir).Ready := by
  unfold begin
  rw [if_pos hv]
  exact ⟨rfl, settled_begin _ _ _ _, by simp [Capture.begin]⟩

theorem Ready.settle_eq {t : Timer} (h : t.Ready) : t.settle = t := by
  have hs : Capture.settle t.ula.variant t.capture = (t.capture, []) := h.settled
  simp only [settle, hs]
  rfl

/-- What a timer makes of evidence it is told all at once. -/
def absorb (t : Timer) (ev : Evidence) : Except Fault Timer :=
  let after := (t.learn ev).settle
  if after.capture.log.length ≤ logCapacity then .ok after else .error .logFull

theorem absorb_of_le {t : Timer} {ev : Evidence}
    (h : (t.learn ev).settle.capture.log.length ≤ logCapacity) :
    t.absorb ev = .ok (t.learn ev).settle := if_pos h

theorem absorb_of_lt {t : Timer} {ev : Evidence}
    (h : logCapacity < (t.learn ev).settle.capture.log.length) :
    t.absorb ev = .error .logFull := if_neg (Nat.not_le.mpr h)

theorem absorb_eq_ok {t after : Timer} {ev : Evidence} :
    t.absorb ev = .ok after ↔
      (t.learn ev).settle.capture.log.length ≤ logCapacity ∧ (t.learn ev).settle = after := by
  by_cases hlen : (t.learn ev).settle.capture.log.length ≤ logCapacity
  · simp [absorb_of_le hlen, hlen]
  · simp [absorb_of_lt (Nat.not_le.mp hlen), hlen]

theorem Ready.absorb_empty {t : Timer} (h : t.Ready) : t.absorb {} = .ok t := by
  have hl : t.learn {} = t := by simp [learn]
  have hs : (t.learn {}).settle = t := by rw [hl, h.settle_eq]
  rw [absorb_of_le (by rw [hs]; exact h.fits), hs]

theorem Ready.learn_settle {t : Timer} (h : t.Ready) {ev : Evidence}
    (hlen : (t.learn ev).settle.capture.log.length ≤ logCapacity) :
    (t.learn ev).settle.Ready where
  active := by
    show (Capture.settle t.ula.variant (t.capture.learn ev)).1.active = true
    rw [(settle_frame _ _).1]
    exact h.active
  settled := settled_settle _ _
  fits := hlen

/-- Evidence may be told in two pieces. Once the log is too long it stays so. -/
theorem absorb_andThen (t : Timer) (e f : Evidence) :
    t.absorb (e.andThen f) = (t.absorb e).bind fun after => after.absorb f := by
  have hsettle : (t.learn (e.andThen f)).settle = ((t.learn e).settle.learn f).settle := by
    rw [settle_learn, learn_learn]
  by_cases hlen : (t.learn e).settle.capture.log.length ≤ logCapacity
  · rw [absorb_of_le hlen]
    show _ = (t.learn e).settle.absorb f
    unfold absorb
    rw [hsettle]
  · have hlong : logCapacity < (t.learn e).settle.capture.log.length := Nat.not_le.mp hlen
    have hset : (t.learn e).settle.capture.Settled t.ula.variant := settled_settle _ _
    have hgrow := hset.length_learn (Nat.lt_trans (by decide) hlong) f
    have hlong' : logCapacity < (t.learn (e.andThen f)).settle.capture.log.length := by
      rw [hsettle]
      show _ < (Capture.settle t.ula.variant ((t.learn e).settle.capture.learn f)).1.log.length
      omega
    rw [absorb_of_lt hlong, absorb_of_lt hlong']
    rfl

/-- One operation, on a timer with nothing left to charge. -/
theorem step_eq_absorb {t : Timer} (h : t.Ready) {op : Op} (hop : op.informs = true) :
    t.step op = t.absorb (.ofOps [op]) := by
  have hlog (ev : Evidence) (hlen : t.capture.log.length + ev.accesses.length ≤ logCapacity) :
      (t.learn ev).settle.capture.log.length ≤ logCapacity :=
    Nat.le_trans (settle_length_le t.ula.variant (t.capture.learn ev))
      (by simpa [Capture.learn] using hlen)
  cases op with
  | record a =>
    rw [Evidence.ofOps_record]
    show t.record a = _
    by_cases hfull : t.capture.isFull = true
    · have hlen : logCapacity ≤ t.capture.log.length := by simpa [isFull] using hfull
      have hgrow := h.settled.length_learn (Nat.lt_of_lt_of_le (by decide) hlen) { accesses := [a] }
      have hlong : logCapacity < (t.learn { accesses := [a] }).settle.capture.log.length := by
        show _ < (Capture.settle t.ula.variant (t.capture.learn _)).1.log.length
        rw [hgrow]
        exact Nat.lt_succ_of_le hlen
      rw [absorb_of_lt hlong, record_of_full h.active hfull]
    · have hlen : t.capture.log.length < logCapacity := by simpa [isFull] using hfull
      rw [absorb_of_le (hlog { accesses := [a] } hlen), learn_access,
        record_of_room h.active (Bool.eq_false_iff.mpr hfull)]
  | confirm =>
    rw [Evidence.ofOps_confirm, absorb_of_le (hlog { taken := true } h.fits), learn_taken,
      ← confirm_of_active h.active]
    rfl
  | elapse kind cycles =>
    cases kind with
    | documented =>
      have hlearn : t.learn { documented := cycles } =
          { t with capture := t.capture.predict cycles } := by
        simp [learn, Capture.learn, predict]
      have hs : Capture.settle t.ula.variant t.capture = (t.capture, []) := h.settled
      rw [Evidence.ofOps_documented, absorb_of_le (hlog { documented := cycles } h.fits), hlearn]
      simp only [step, elapse, h.active, if_true, settle, settle_predict, hs]
      rfl
    | interrupt => simp [Op.informs] at hop
    | delay => simp [Op.informs] at hop
    | base => simp [Op.informs] at hop
  | _ => simp [Op.informs] at hop

/-- **Only the evidence counts.** -/
theorem run_eq_absorb {t : Timer} (h : t.Ready) {ops : List Op}
    (hops : ∀ op ∈ ops, op.informs = true) : t.run ops = t.absorb (.ofOps ops) := by
  induction ops generalizing t with
  | nil => exact h.absorb_empty.symm
  | cons op ops ih =>
    obtain ⟨hop, hrest⟩ := List.forall_mem_cons.mp hops
    rw [← List.singleton_append, Evidence.ofOps_append, absorb_andThen, List.singleton_append,
      run_cons, step_eq_absorb h hop]
    by_cases hlen : (t.learn (.ofOps [op])).settle.capture.log.length ≤ logCapacity
    · rw [absorb_of_le hlen]
      exact ih (h.learn_settle hlen) hrest
    · rw [absorb_of_lt (Nat.not_le.mp hlen)]
      rfl

/-- An instruction from its beginning to its end. -/
theorem run_begin_finish (t : Timer) (hv : t.ula.variant.contends = true) (bc ir : UInt16)
    {ops : List Op} (hops : ∀ op ∈ ops, op.informs = true) :
    t.run (.begin bc ir :: ops ++ [.finish]) =
      ((t.begin bc ir).absorb (.ofOps ops)).bind finish := by
  show (t.begin bc ir).run (ops ++ [.finish]) = _
  rw [run_append, run_eq_absorb (ready_begin t hv bc ir) hops]
  congr 1
  funext next
  exact run_singleton next .finish

/--
**The order of reports does not matter.** Take two lists of reports on an instruction that has just
begun. If they report the same accesses in the same order and the same documented T-states in all,
and if both or neither confirm the optional path, then both fault or both end in the same timer: the
same clock, and the same capture down to the marks of every access.
-/
theorem run_eq_of_schedule (t : Timer) (hv : t.ula.variant.contends = true) (bc ir : UInt16)
    {xs ys : List Op} (hx : ∀ op ∈ xs, op.informs = true) (hy : ∀ op ∈ ys, op.informs = true)
    (haccesses : xs.filterMap Op.access? = ys.filterMap Op.access?)
    (htime : (xs.map Op.documented).sum = (ys.map Op.documented).sum)
    (hconfirm : Op.confirm ∈ xs ↔ Op.confirm ∈ ys) :
    (t.begin bc ir).run xs = (t.begin bc ir).run ys := by
  have hev : Evidence.ofOps xs = Evidence.ofOps ys := by
    have htaken : xs.contains .confirm = ys.contains .confirm := by
      rw [Bool.eq_iff_iff, List.contains_iff_mem, List.contains_iff_mem]
      exact hconfirm
    simp only [Evidence.ofOps, haccesses, htime, htaken]
  have hready := ready_begin t hv bc ir
  rw [run_eq_absorb hready hx, run_eq_absorb hready hy, hev]

/-- `LDIR` that repeats, told as it runs and told with its times and its branch first. -/
theorem run_eq_of_schedule_ldir :
    (begin { ula := .spectrum48k } 0x0002 0x3F00).run
        [.record ⟨0x8000, 0xED, .memoryRead, ""⟩, .record ⟨0x8001, 0xB0, .memoryRead, ""⟩,
          .elapse .documented 16, .record ⟨0x4000, 0x12, .memoryRead, ""⟩,
          .record ⟨0x5000, 0x12, .memoryWrite, ""⟩, .elapse .documented 5, .confirm] =
      (begin { ula := .spectrum48k } 0x0002 0x3F00).run
        [.elapse .documented 21, .confirm, .record ⟨0x8000, 0xED, .memoryRead, ""⟩,
          .record ⟨0x8001, 0xB0, .memoryRead, ""⟩, .confirm,
          .record ⟨0x4000, 0x12, .memoryRead, ""⟩, .record ⟨0x5000, 0x12, .memoryWrite, ""⟩] :=
  run_eq_of_schedule _ (by decide) _ _ (by decide) (by decide) (by decide) (by decide) (by decide)

end Timer

end SpectrumTiming
