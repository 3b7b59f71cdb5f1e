import SpectrumTiming.Proofs.Account
import SpectrumTiming.Proofs.Overflow

/-!
# Every reachable capture is accounted for

Whatever an executor asks for, and in whatever order: as long as the timer has not given up and an
instruction is running, the account of its capture is in order (`capture_accounted`). The count it is
held against is taken beside the timer, operation by operation, and starts anew with each
instruction.

The account is kept by every operation (`accounted_step`). Most do not touch what it is about; a
report adds to the log and then settles; `finish` ends the instruction, and with it the account.

The same count tells when sums overflow. It only grows while an instruction is reported, and what it
comes to in the end is the costs of one settling (`Ready.charged_tally`), so an instruction does not
overflow if these fit (`Strict.run_begin_finish`).
-/

namespace SpectrumTiming

open Capture

namespace Timer

/-- How many accesses an operation takes off the log. -/
def drops (t : Timer) : Op → Nat
  | .record a =>
    if t.capture.active && !t.capture.isFull then (t.capture.push a).collapsing.length else 0
  | .confirm => if t.capture.active then t.capture.collapsing.length else 0
  | _ => 0

/-- The T-states an operation reports as charged already. -/
def Op.base : Op → Nat
  | .elapse .base cycles => cycles
  | _ => 0

/-- The count after an operation. A new instruction starts a new count. -/
def count (t : Timer) (n : Tally) : Op → Tally
  | .begin _ _ => {}
  | op =>
    { accesses := n.accesses + op.access?.toList.length
      dropped := n.dropped + t.drops op
      base := n.base + op.base
      charged := n.charged + t.charged op }

theorem charged_count {t : Timer} {n : Tally} {op : Op} (hop : ∀ bc ir, op ≠ .begin bc ir) :
    (t.count n op).charged = n.charged + t.charged op := by
  cases op with
  | begin bc ir => exact absurd rfl (hop bc ir)
  | _ => rfl

/-- The count after all that an executor asks for. -/
def tally (t : Timer) (n : Tally) : List Op → Tally
  | [] => n
  | op :: ops =>
    match t.step op with
    | .error _ => n
    | .ok after => after.tally (t.count n op) ops

end Timer

theorem Machine.variant_of_ula {m : Machine} {u : Ula} (h : m.ula = .ok u) :
    u.variant = m.variant := by
  unfold Machine.ula at h
  cases hp : m.delays with
  | error e => rw [hp] at h; exact absurd h (by simp [bind, Except.bind])
  | ok pattern =>
    cases hb : m.bankNumbers with
    | error e => rw [hp, hb] at h; exact absurd h (by simp [bind, Except.bind])
    | ok banks =>
      rw [hp, hb] at h
      simp only [bind, Except.bind] at h
      split at h
      · exact absurd h (by simp)
      · split at h
        · exact absurd h (by simp)
        · rw [← Except.ok.inj h]

namespace Timer

/-- An operation that only moves the clock, or adds to the sums of the capture. -/
theorem accounted_elapse {v : Variant} {n : Tally} {t : Timer} (kind : TimeKind) (cycles : Nat)
    (hactive : t.capture.active = true) (h : t.capture.Accounted v n) :
    (t.elapse kind cycles).capture.Accounted v (t.count n (.elapse kind cycles)) := by
  cases kind with
  | documented =>
    have hcap : (t.elapse .documented cycles).capture = t.capture.predict cycles := by
      simp [elapse, hactive]
    rw [hcap]
    exact h.congr rfl rfl rfl rfl (UInt32.add_zero _).symm
  | base =>
    have hcap : (t.elapse .base cycles).capture = t.capture.consume cycles := by
      simp [elapse, hactive]
    have hcount : t.count n (.elapse .base cycles) =
        { n with base := n.base + cycles, charged := n.charged + cycles } := by
      simp [count, drops, charged, adds, hactive, Op.access?, Op.base]
    rw [hcap, hcount]
    exact h.congr rfl rfl rfl rfl rfl
  | interrupt => exact h
  | delay => exact h

theorem accounted_record {v : Variant} {n : Tally} {t : Timer} {a : Access}
    (hula : t.ula.variant = v) (hactive : t.capture.active = true) (hfull : t.capture.isFull = false)
    (h : t.capture.Accounted v n) (ha : a.marks.charged = false) :
    (settle { t with capture := t.capture.push a }).capture.Accounted v
      (t.count n (.record a)) := by
  have hroom : (t.capture.push a).log.length ≤ logCapacity := by
    have hlen : t.capture.log.length < logCapacity := by simpa [isFull] using hfull
    show (t.capture.log ++ [a]).length ≤ logCapacity
    rw [List.length_append]
    exact hlen
  have hset := (h.toCharged.push ha).settle hroom
  have hcount : t.count n (.record a) =
      { n with
        accesses := n.accesses + 1
        dropped := n.dropped + (t.capture.push a).collapsing.length
        charged := n.charged + Cost.total (Capture.settle v (t.capture.push a)).2 } := by
    simp [count, drops, charged_record hactive hfull, hula, hactive, hfull, Op.access?, Op.base]
  rw [hcount]
  show (Capture.settle t.ula.variant (t.capture.push a)).1.Accounted v _
  rw [hula]
  exact hset

theorem accounted_confirm {v : Variant} {n : Tally} {t : Timer} (hula : t.ula.variant = v)
    (hactive : t.capture.active = true) (h : t.capture.Accounted v n) :
    t.confirm.capture.Accounted v (t.count n .confirm) := by
  have hset := h.toCharged.confirm.settle h.fits
  have hcount : t.count n .confirm =
      { n with
        dropped := n.dropped + t.capture.collapsing.length
        charged := n.charged +
          Cost.total (Capture.settle v { t.capture with taken := true }).2 } := by
    simp [count, drops, charged_confirm hactive, hula, hactive, Op.access?, Op.base]
  rw [confirm_of_active hactive, hcount]
  show (Capture.settle t.ula.variant { t.capture with taken := true }).1.Accounted v _
  rw [hula]
  exact hset

/-- **Every operation keeps the account.** -/
theorem accounted_step {v : Variant} {n : Tally} {t t' : Timer} {op : Op}
    (hula : t.ula.variant = v) (hv : v.contends = true)
    (h : t.capture.active = true → t.capture.Accounted v n)
    (hop : ∀ a, op = .record a → a.marks.charged = false) (hs : t.step op = .ok t') :
    t'.ula = t.ula ∧ (t'.capture.active = true → t'.capture.Accounted v (t.count n op)) := by
  cases op with
  | begin bc ir =>
    have heq : t' = { t with capture := .begin t.clock.counter bc ir } := by
      simp only [step, begin, hula, hv, if_true, Except.ok.injEq] at hs
      exact hs.symm
    subst heq
    exact ⟨rfl, fun _ => accounted_begin v _ bc ir⟩
  | finish =>
    simp only [step, finish] at hs
    split at hs
    · -- nothing is running, before or after
      rename_i hidle
      cases hs
      refine ⟨rfl, fun hactive => ?_⟩
      rw [hactive] at hidle
      exact absurd hidle (by simp)
    · split at hs
      · cases hs
        exact ⟨rfl, fun hactive => absurd hactive (by simp)⟩
      · exact absurd hs (by simp)
  | elapse kind cycles =>
    have heq : t' = t.elapse kind cycles := by
      simp only [step, Except.ok.injEq] at hs
      exact hs.symm
    subst heq
    have hkeep : (t.elapse kind cycles).ula = t.ula ∧
        (t.elapse kind cycles).capture.active = t.capture.active := by
      cases kind <;> simp only [elapse] <;> (try split) <;> exact ⟨rfl, rfl⟩
    refine ⟨hkeep.1, fun hactive => ?_⟩
    rw [hkeep.2] at hactive
    exact accounted_elapse kind cycles hactive (h hactive)
  | record a =>
    have hrec : t.record a = .ok t' := hs
    cases hactive : t.capture.active with
    | false =>
      rw [record_of_idle hactive] at hrec
      cases hrec
      exact ⟨rfl, fun h' => absurd (hactive.symm.trans h') (by simp)⟩
    | true =>
      cases hfull : t.capture.isFull with
      | true =>
        rw [record_of_full hactive hfull] at hrec
        exact absurd hrec (by simp)
      | false =>
        rw [record_of_room hactive hfull] at hrec
        cases hrec
        exact ⟨rfl, fun _ => accounted_record hula hactive hfull (h hactive) (hop a rfl)⟩
  | confirm =>
    have heq : t' = t.confirm := by
      simp only [step, Except.ok.injEq] at hs
      exact hs.symm
    subst heq
    cases hactive : t.capture.active with
    | false =>
      rw [confirm_of_idle hactive]
      exact ⟨rfl, fun h' => absurd (hactive.symm.trans h') (by simp)⟩
    | true =>
      have hconfirm := accounted_confirm hula hactive (h hactive)
      rw [confirm_of_active hactive] at hconfirm ⊢
      exact ⟨rfl, fun _ => hconfirm⟩
  | advance cycles => cases hs; exact ⟨rfl, h⟩
  | setCounter tstate => cases hs; exact ⟨rfl, h⟩
  | setBank bank => cases hs; exact ⟨rfl, h⟩
  | reset => cases hs; exact ⟨rfl, h⟩

theorem accounted_run {v : Variant} (hv : v.contends = true) :
    ∀ (ops : List Op) {n : Tally} {t t' : Timer}, t.ula.variant = v →
      (t.capture.active = true → t.capture.Accounted v n) →
      (∀ a, Op.record a ∈ ops → a.marks.charged = false) → t.run ops = .ok t' →
      t'.capture.active = true → t'.capture.Accounted v (t.tally n ops) := by
  intro ops
  induction ops with
  | nil =>
    intro n t t' _ h _ hrun hactive
    cases hrun
    exact h hactive
  | cons op ops ih =>
    intro n t t' hula h hmarks hrun hactive
    rw [run_cons] at hrun
    cases hs : t.step op with
    | error f =>
      rw [hs] at hrun
      exact absurd hrun (by simp [Except.bind])
    | ok after =>
      rw [hs] at hrun
      have hop : ∀ a, op = .record a → a.marks.charged = false :=
        fun a ha => hmarks a (ha ▸ List.mem_cons_self ..)
      obtain ⟨hkeep, hafter⟩ := accounted_step hula hv h hop hs
      have htally : t.tally n (op :: ops) = after.tally (t.count n op) ops := by
        simp [tally, hs]
      rw [htally]
      exact ih (by rw [hkeep]; exact hula) hafter
        (fun a ha => hmarks a (List.mem_cons_of_mem _ ha)) hrun hactive

/-- **What is charged is counted**, as long as the sums fit. -/
theorem toNat_consumed_step {n : Tally} {t after : Timer} {op : Op}
    (hv : t.ula.variant.contends = true) (h : t.capture.consumed.toNat = n.charged)
    (hs : Strict.step t op = .ok after) :
    after.capture.consumed.toNat = (t.count n op).charged := by
  cases op with
  | begin bc ir =>
    have hstep : step t (.begin bc ir) = .ok after := (Strict.step_eq_ok_iff.mp hs).1
    simp only [step, begin, hv, if_true, Except.ok.injEq] at hstep
    rw [← hstep]
    rfl
  | _ => rw [(Strict.sums_step (by simp) hs).2, h, charged_count (by simp)]

theorem toNat_consumed_run {n : Tally} {t after : Timer} {ops : List Op}
    (hv : t.ula.variant.contends = true) (h : t.capture.consumed.toNat = n.charged)
    (hrun : Strict.run t ops = .ok after) :
    after.capture.consumed.toNat = (t.tally n ops).charged := by
  induction ops generalizing t n with
  | nil =>
    cases hrun
    exact h
  | cons op ops ih =>
    obtain ⟨next, hs, hrest⟩ := Strict.run_cons_eq_ok.mp hrun
    have hstep : t.step op = .ok next := (Strict.step_eq_ok_iff.mp hs).1
    have htally : t.tally n (op :: ops) = next.tally (t.count n op) ops := by simp [tally, hstep]
    rw [htally]
    exact ih (by rw [(step_machine hstep).1]; exact hv) (toNat_consumed_step hv h hs) hrest

/-! ## What a run charges -/

/-- What an operation charges is what settling comes to once the operation has been taken in. -/
theorem Ready.charges_eq {t : Timer} (h : t.Ready) {op : Op} (hop : op.informs = true)
    {next : Timer} (hs : t.step op = .ok next) :
    t.charges op = (Capture.settle t.ula.variant (t.capture.learn (.ofOps [op]))).2 := by
  cases op with
  | record a =>
    have hroom : t.capture.isFull = false := by
      by_contra hfull
      have hfault := record_of_full h.active (Bool.of_not_eq_false hfull) a
      cases hfault.symm.trans hs
    have hlearn : t.capture.learn { accesses := [a] } = t.capture.push a := by
      simp [Capture.learn, push]
    rw [Evidence.ofOps_record, hlearn]
    simp [charges, h.active, hroom]
  | confirm =>
    have hlearn : t.capture.learn { taken := true } = { t.capture with taken := true } := by
      simp [Capture.learn]
    rw [Evidence.ofOps_confirm, hlearn]
    simp [charges, h.active]
  | elapse kind cycles =>
    cases kind with
    | documented =>
      have hlearn : t.capture.learn { documented := cycles } = t.capture.predict cycles := by
        simp [Capture.learn, predict]
      have hsettled : Capture.settle t.ula.variant t.capture = (t.capture, []) := h.settled
      rw [Evidence.ofOps_documented, hlearn, settle_predict, hsettled]
      rfl
    | _ => cases hop
  | _ => cases hop

/-- What is charged in a run is what all its costs come to. -/
theorem Ready.charged_tally {t : Timer} (h : t.Ready) {ops : List Op}
    (hops : ∀ op ∈ ops, op.informs = true) {after : Timer} (hrun : t.run ops = .ok after)
    (n : Tally) :
    (t.tally n ops).charged = n.charged +
      Cost.total (Capture.settle t.ula.variant (t.capture.learn (.ofOps ops))).2 := by
  induction ops generalizing t n with
  | nil =>
    have hsettled : Capture.settle t.ula.variant t.capture = (t.capture, []) := h.settled
    have hnothing : Evidence.ofOps [] = {} := rfl
    rw [hnothing, learn_empty, hsettled]
    rfl
  | cons op ops ih =>
    obtain ⟨hop, hrest⟩ := List.forall_mem_cons.mp hops
    obtain ⟨next, hs, hrun⟩ := run_cons_eq_ok.mp hrun
    obtain ⟨hlen, rfl⟩ := absorb_eq_ok.mp ((step_eq_absorb h hop).symm.trans hs)
    have hev : Evidence.ofOps (op :: ops) = (Evidence.ofOps [op]).andThen (Evidence.ofOps ops) :=
      Evidence.ofOps_append [op] ops
    have hcount : (t.count n op).charged = n.charged + Cost.total (t.charges op) := by
      rw [charged_count (by rintro bc ir rfl; exact Bool.false_ne_true hop), charged_eq_total hop]
    have htally : t.tally n (op :: ops) =
        (t.learn (.ofOps [op])).settle.tally (t.count n op) ops := by simp [tally, hs]
    rw [htally, ih (h.learn_settle hlen) hrest hrun, hcount, h.charges_eq hop hs, hev,
      ← Capture.learn_learn, Capture.settle_learn _ (t.capture.learn (.ofOps [op])),
      Cost.total_append, Nat.add_assoc]
    rfl

/-- Reports only add to the count. -/
theorem charged_le_tally {n : Tally} {t : Timer} {ops : List Op}
    (hops : ∀ op ∈ ops, op.informs = true) : n.charged ≤ (t.tally n ops).charged := by
  induction ops generalizing t n with
  | nil => exact Nat.le_refl _
  | cons op ops ih =>
    obtain ⟨hop, hrest⟩ := List.forall_mem_cons.mp hops
    rw [tally]
    cases t.step op with
    | error f => exact Nat.le_refl _
    | ok after =>
      refine Nat.le_trans ?_ (ih hrest)
      rw [charged_count (by rintro bc ir rfl; exact Bool.false_ne_true hop)]
      exact Nat.le_add_right _ _

end Timer

namespace Strict

open Timer

/-- **Reports do not overflow if all they add fits.** -/
theorem run_of_fits {n : Tally} {t after : Timer} {ops : List Op}
    (hops : ∀ op ∈ ops, op.informs = true) (hrun : t.run ops = .ok after)
    (hcount : t.capture.consumed.toNat = n.charged)
    (hdocumented : t.capture.predicted.toNat + (ops.map Op.documented).sum < 2 ^ 32)
    (hcharged : (t.tally n ops).charged < 2 ^ 32) : run t ops = .ok after := by
  induction ops generalizing t n with
  | nil =>
    cases hrun
    rfl
  | cons op ops ih =>
    obtain ⟨hop, hrest⟩ := List.forall_mem_cons.mp hops
    obtain ⟨next, hs, hnext⟩ := Timer.run_cons_eq_ok.mp hrun
    have hbegin : ∀ bc ir, op ≠ .begin bc ir := by
      rintro bc ir rfl
      exact Bool.false_ne_true hop
    have htally : t.tally n (op :: ops) = next.tally (t.count n op) ops := by simp [tally, hs]
    rw [htally] at hcharged
    rw [List.map_cons, List.sum_cons] at hdocumented
    -- the sums after this operation are no larger than after all of them
    have hmore := Nat.lt_of_le_of_lt (charged_le_tally hrest) hcharged
    rw [charged_count hbegin, ← hcount] at hmore
    have hdocuments := t.documents_le op
    have hstep : step t op = .ok next := step_eq_ok_iff.mpr ⟨hs, by omega, hmore⟩
    obtain ⟨hpredicted, hconsumed⟩ := sums_step hbegin hstep
    refine run_cons_eq_ok.mpr ⟨next, hstep, ih hrest hnext ?_ ?_ hcharged⟩
    · rw [hconsumed, hcount, charged_count hbegin]
    · omega

/-- **An instruction does not overflow if it fits**: what it is documented to take, and what all its
costs come to. -/
theorem run_begin_finish {t done : Timer} (hv : t.ula.variant.contends = true) (bc ir : UInt16)
    {ops : List Op} (hops : ∀ op ∈ ops, op.informs = true)
    (hrun : t.run (.begin bc ir :: ops ++ [.finish]) = .ok done)
    (hdocumented : (Evidence.ofOps ops).documented < 2 ^ 32)
    (hcosts : Cost.total (Capture.settle t.ula.variant
      ((Capture.begin t.clock.counter bc ir).learn (.ofOps ops))).2 < 2 ^ 32) :
    run t (.begin bc ir :: ops ++ [.finish]) = .ok done := by
  have hbegin : t.begin bc ir = { t with capture := .begin t.clock.counter bc ir } := if_pos hv
  obtain ⟨first, hfirst, hrest⟩ := Timer.run_cons_eq_ok.mp hrun
  obtain rfl : t.begin bc ir = first := Except.ok.inj hfirst
  obtain ⟨after, hafter, hfinish⟩ := Timer.run_append_eq_ok.mp hrest
  obtain ⟨last, hlast, hdone⟩ := Timer.run_cons_eq_ok.mp hfinish
  have hinside : run (t.begin bc ir) ops = .ok after := by
    refine run_of_fits (n := {}) hops hafter (by rw [hbegin]; rfl) ?_ ?_
    · rw [hbegin]
      exact Nat.lt_of_le_of_lt (Nat.le_of_eq (Nat.zero_add _)) hdocumented
    · rw [(ready_begin t hv bc ir).charged_tally hops hafter, hbegin]
      exact Nat.lt_of_le_of_lt (Nat.le_of_eq (Nat.zero_add _)) hcosts
  -- neither to begin nor to finish adds anything
  have hopen : step t (.begin bc ir) = .ok (t.begin bc ir) := step_of_nothing rfl rfl
  have hclose : step after .finish = .ok last := by
    rw [step_of_nothing rfl rfl, hlast]
    rfl
  cases hdone
  exact run_cons_eq_ok.mpr ⟨_, hopen,
    run_append_eq_ok.mpr ⟨after, hinside, run_cons_eq_ok.mpr ⟨_, hclose, rfl⟩⟩⟩

end Strict

namespace Timer

/--
**Every reachable capture is accounted for.** From the timer of a described machine, by any
operations at all, as long as none of them faults: while an instruction is running, every access
that was reported is in the log or was an index byte that has been paid for, the log is within its
capacity, and what has been charged is the elements before the cursor, with their accesses marked
and nothing else, up to the first element that is not there yet. The capture shows what was charged
in 32 bits, and just so if nothing overflows.
-/
theorem capture_accounted {m : Machine} {display : Bool} {t₀ t : Timer} {ops : List Op}
    (hm : ofMachine m display = .ok t₀) (hv : m.variant.contends = true)
    (hmarks : ∀ a, Op.record a ∈ ops → a.marks.charged = false) (hrun : t₀.run ops = .ok t)
    (hactive : t.capture.active = true) :
    t.capture.Accounted m.variant (t₀.tally {} ops) ∧
      (Strict.run t₀ ops = .ok t → t.capture.consumed.toNat = (t₀.tally {} ops).charged) := by
  obtain ⟨u, hu, rfl⟩ := ofMachine_eq_ok hm
  have hvariant : u.variant = m.variant := Machine.variant_of_ula hu
  refine ⟨?_, toNat_consumed_run (by rw [hvariant]; exact hv) rfl⟩
  -- nothing is running in a new timer
  exact accounted_run hv ops hvariant (fun h => absurd h (by simp)) hmarks hrun hactive

/-- Half of `LD IX,nn`, behind another index byte and a wait. -/
theorem capture_accounted_load :
    ∃ t, Strict.run { ula := .spectrum48k }
        [.begin 0 0, .elapse .base 3, .record ⟨0x4000, 0xFD, .memoryRead, ""⟩,
          .record ⟨0x4001, 0xDD, .memoryRead, ""⟩, .record ⟨0x4002, 0x21, .memoryRead, ""⟩,
          .record ⟨0x4003, 0x34, .memoryRead, ""⟩] = .ok t ∧
      t.capture.Accounted .sinclair { accesses := 4, dropped := 2, base := 3, charged := 18 } ∧
      t.capture.consumed.toNat = 18 := by
  let ops : List Op := [.begin 0 0, .elapse .base 3, .record ⟨0x4000, 0xFD, .memoryRead, ""⟩,
    .record ⟨0x4001, 0xDD, .memoryRead, ""⟩, .record ⟨0x4002, 0x21, .memoryRead, ""⟩,
    .record ⟨0x4003, 0x34, .memoryRead, ""⟩]
  have hactive :
      (Strict.run { ula := .spectrum48k } ops).toOption.any (·.capture.active) = true := by
    decide +kernel
  have htally : tally { ula := .spectrum48k } {} ops =
      { accesses := 4, dropped := 2, base := 3, charged := 18 } := by
    decide +kernel
  cases hrun : Strict.run { ula := .spectrum48k } ops with
  | error f =>
    rw [hrun] at hactive
    exact absurd hactive (by simp [Except.toOption])
  | ok t =>
    rw [hrun] at hactive
    have hm : ofMachine .spectrum48k false = .ok { ula := .spectrum48k } := by
      rw [ofMachine, Machine.ula_spectrum48k]
      rfl
    obtain ⟨haccount, hexact⟩ := capture_accounted hm rfl (by simp [ops, AccessMarks.memoryRead])
      (Strict.run_eq_ok hrun) hactive
    rw [htally] at haccount hexact
    exact ⟨t, rfl, haccount, hexact hrun⟩

end Timer

end SpectrumTiming
