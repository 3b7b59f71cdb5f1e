import SpectrumTiming.Proofs.Bounds

/-!
# Sums that have to fit

The two sums of an instruction are kept in 32 bits and wrap round. Here is the timer once more as a
build that checks its sums has it. Every number is added on its own, and the first that does not fit
stops the timer (`Stop.overflow`). In all else the two timers do the same (`Strict.run_cases`).

So a run that the strict timer gets through is a run of the other one too, and it bears witness that
nothing wrapped: each sum, read as a number, has grown by just what was added to it
(`Strict.sums_step`).
-/

namespace SpectrumTiming

open Capture

/-- Adds a number to a sum, if the result fits. -/
def add? (sum : UInt32) (n : Nat) : Option UInt32 :=
  if sum.toNat + n < 2 ^ 32 then some (sum + n) else none

/-- Adds numbers to a sum, one after the other. -/
def addAll? (sum : UInt32) (ns : List Nat) : Option UInt32 := ns.foldlM add? sum

theorem toNat_add_of_fits {sum : UInt32} {n : Nat} (h : sum.toNat + n < 2 ^ 32) :
    (sum + UInt32.ofNat n).toNat = sum.toNat + n := by
  rw [UInt32.toNat_add, UInt32.toNat_ofNat_of_lt' (Nat.lt_of_le_of_lt (Nat.le_add_left _ _) h),
    Nat.mod_eq_of_lt h]

/-- Numbers that fit can be told apart by what they make of a sum. -/
theorem sum_inj {sum : UInt32} {m n : Nat} (hm : m < 2 ^ 32) (hn : n < 2 ^ 32) :
    sum + UInt32.ofNat m = sum + UInt32.ofNat n ↔ m = n := by
  rw [UInt32.add_right_inj]
  refine ⟨fun h => ?_, fun h => by rw [h]⟩
  rw [← UInt32.toNat_ofNat_of_lt' hm, h, UInt32.toNat_ofNat_of_lt' hn]

/-- **Numbers fit one by one if they fit all together.** -/
theorem isSome_addAll? (sum : UInt32) (ns : List Nat) :
    (addAll? sum ns).isSome = true ↔ sum.toNat + ns.sum < 2 ^ 32 := by
  induction ns generalizing sum with
  | nil => simpa [addAll?] using sum.toNat_lt
  | cons n ns ih =>
    rw [List.sum_cons, addAll?, List.foldlM_cons, add?]
    by_cases h : sum.toNat + n < 2 ^ 32
    · rw [if_pos h]
      refine (ih _).trans ?_
      rw [toNat_add_of_fits h, Nat.add_assoc]
    · rw [if_neg h]
      simp only [Option.bind_eq_bind, Option.bind_none, Option.isSome_none, Bool.false_eq_true,
        false_iff]
      omega

/-- The phases of costs last as long as the costs. -/
theorem Ula.sum_phases (u : Ula) (bank : Nat) (xs : List Cost) :
    ((xs.flatMap (u.phases bank)).map Phase.cycles).sum = Cost.total xs := by
  have hphases (ps : List Phase) : (ps.map Phase.cycles).sum = Phase.total ps := by
    induction ps with
    | nil => rfl
    | cons p ps ih => rw [List.map_cons, List.sum_cons, ih, Phase.total]
  induction xs with
  | nil => rfl
  | cons x xs ih =>
    rw [List.flatMap_cons, List.map_append, List.sum_append, ih, hphases, u.total_phases,
      Cost.total]

namespace Timer

/-! ## What operations add -/

/-- What is charged for an operation. -/
def charges (t : Timer) : Op → List Cost
  | .record a =>
    if t.capture.active && !t.capture.isFull then
      ((t.capture.push a).settle t.ula.variant).2
    else []
  | .confirm =>
    if t.capture.active then
      (Capture.settle t.ula.variant { t.capture with taken := true }).2
    else []
  | _ => []

/-- The numbers that an operation adds to the T-states charged, phase by phase. -/
def adds (t : Timer) : Op → List Nat
  | .elapse .base cycles => if t.capture.active then [cycles] else []
  | op => ((t.charges op).flatMap (t.ula.phases t.clock.bank)).map Phase.cycles

/-- The numbers that an operation adds to the documented T-states. -/
def documents (t : Timer) : Op → List Nat
  | .elapse .documented cycles => if t.capture.active then [cycles] else []
  | _ => []

theorem documents_le (t : Timer) (op : Op) : (t.documents op).sum ≤ op.documented := by
  unfold documents
  split
  · split
    · exact Nat.le_of_eq (Nat.add_zero _)
    · exact Nat.zero_le _
  · exact Nat.zero_le _

/-- What an operation adds to the T-states charged, all together. -/
def charged (t : Timer) (op : Op) : Nat := (t.adds op).sum

variable {t after : Timer}

theorem charged_record (hactive : t.capture.active = true) (hfull : t.capture.isFull = false)
    (a : Access) :
    t.charged (.record a) = Cost.total ((t.capture.push a).settle t.ula.variant).2 := by
  simp only [charged, adds, Ula.sum_phases, charges, hactive, hfull, Bool.not_false, Bool.and_self,
    if_true]

theorem charged_confirm (hactive : t.capture.active = true) :
    t.charged .confirm =
      Cost.total (Capture.settle t.ula.variant { t.capture with taken := true }).2 := by
  simp only [charged, adds, Ula.sum_phases, charges, hactive, if_true]

/-- Nothing but the costs of what it unlocks is charged for a report of an instruction. -/
theorem charged_eq_total {op : Op} (hop : op.informs = true) :
    t.charged op = Cost.total (t.charges op) := by
  have hadds : t.adds op =
      ((t.charges op).flatMap (t.ula.phases t.clock.bank)).map Phase.cycles := by
    cases op with
    | elapse kind cycles => cases kind <;> first | rfl | cases hop
    | _ => rfl
  rw [charged, hadds, Ula.sum_phases]

/-- What settling does to the sums. -/
theorem sums_settle (t : Timer) :
    t.settle.capture.predicted = t.capture.predicted ∧
      t.settle.capture.consumed = t.capture.consumed +
        UInt32.ofNat (Cost.total (Capture.settle t.ula.variant t.capture).2) := by
  obtain ⟨-, -, -, -, hpredicted⟩ := Capture.settle_frame t.ula.variant t.capture
  exact ⟨hpredicted, Capture.consumed_settle t.ula.variant t.capture⟩

/-- The sums after an operation that adds these numbers to them. -/
structure Summed (t : Timer) (documented charged : Nat) (after : Timer) : Prop where
  predicted : after.capture.predicted = t.capture.predicted + UInt32.ofNat documented
  consumed : after.capture.consumed = t.capture.consumed + UInt32.ofNat charged

theorem Summed.same (hpredicted : after.capture.predicted = t.capture.predicted)
    (hconsumed : after.capture.consumed = t.capture.consumed) : t.Summed 0 0 after :=
  ⟨by rw [hpredicted]; exact (UInt32.add_zero _).symm,
    by rw [hconsumed]; exact (UInt32.add_zero _).symm⟩

/-- **What an operation does to the sums**, unless it begins an instruction. -/
theorem summed_step {op : Op} (hop : ∀ bc ir, op ≠ .begin bc ir) (hs : t.step op = .ok after) :
    t.Summed (t.documents op).sum (t.charged op) after := by
  cases op with
  | begin bc ir => exact absurd rfl (hop bc ir)
  | finish =>
    rw [eq_of_finish hs]
    exact .same rfl rfl
  | elapse kind cycles =>
    cases hs
    cases hactive : t.capture.active <;> cases kind <;> constructor <;>
      simp [elapse, charged, adds, documents, charges, hactive, advance, predict, consume]
  | record a =>
    rcases record_eq_ok.mp hs with ⟨hidle, rfl⟩ | ⟨hactive, hroom, rfl⟩
    · have hnone : t.charged (.record a) = 0 := by simp [charged, adds, charges, hidle]
      rw [hnone]
      exact .same rfl rfl
    · obtain ⟨hpredicted, hconsumed⟩ := sums_settle { t with capture := t.capture.push a }
      have hfull : t.capture.isFull = false := by simpa [Capture.isFull] using hroom
      rw [charged_record hactive hfull]
      exact ⟨hpredicted.trans (UInt32.add_zero _).symm, hconsumed⟩
  | confirm =>
    cases hs
    cases hactive : t.capture.active with
    | false =>
      have hnone : t.charged .confirm = 0 := by simp [charged, adds, charges, hactive]
      rw [hnone, confirm_of_idle hactive]
      exact .same rfl rfl
    | true =>
      obtain ⟨hpredicted, hconsumed⟩ :=
        sums_settle { t with capture := { t.capture with taken := true } }
      rw [charged_confirm hactive, confirm_of_active hactive]
      exact ⟨hpredicted.trans (UInt32.add_zero _).symm, hconsumed⟩
  | advance cycles => cases hs; exact .same rfl rfl
  | setCounter tstate => cases hs; exact .same rfl rfl
  | setBank bank => cases hs; exact .same rfl rfl
  | reset => cases hs; exact .same rfl rfl

end Timer

/-! ## The strict timer -/

/-- What stops a timer that checks its sums. -/
inductive Stop
  /-- A number does not fit into a sum. -/
  | overflow
  /-- The timer gives up of its own accord. -/
  | fault (f : Fault)
deriving DecidableEq

namespace Strict

/-- Does what the executor asks for, if all that is added fits. -/
def step (t : Timer) (op : Timer.Op) : Except Stop Timer :=
  if (addAll? t.capture.predicted (t.documents op)).isSome &&
      (addAll? t.capture.consumed (t.adds op)).isSome then
    (t.step op).mapError .fault
  else .error .overflow

/-- Does all that the executor asks for, up to the first stop. -/
def run (t : Timer) (ops : List Timer.Op) : Except Stop Timer := ops.foldlM step t

variable {t after : Timer} {op : Timer.Op} {ops : List Timer.Op}

/-- An operation that does not overflow does what it does anyway. -/
theorem step_eq_ok_iff : step t op = .ok after ↔
    t.step op = .ok after ∧ t.capture.predicted.toNat + (t.documents op).sum < 2 ^ 32 ∧
      t.capture.consumed.toNat + t.charged op < 2 ^ 32 := by
  rw [← isSome_addAll?, Timer.charged, ← isSome_addAll?, ← Bool.and_eq_true, step]
  split
  · rename_i hfits
    cases t.step op <;> simp [Except.mapError, hfits]
  · rename_i hfits
    simp [hfits]

/-- **The sums grow by just what is added to them.** -/
theorem sums_step (hop : ∀ bc ir, op ≠ .begin bc ir) (h : step t op = .ok after) :
    after.capture.predicted.toNat = t.capture.predicted.toNat + (t.documents op).sum ∧
      after.capture.consumed.toNat = t.capture.consumed.toNat + t.charged op := by
  obtain ⟨hs, hdocumented, hcharged⟩ := step_eq_ok_iff.mp h
  obtain ⟨hpredicted, hconsumed⟩ := Timer.summed_step hop hs
  rw [hpredicted, hconsumed]
  exact ⟨toNat_add_of_fits hdocumented, toNat_add_of_fits hcharged⟩

/-- An operation that adds nothing does not overflow. -/
theorem step_of_nothing (hdocuments : t.documents op = []) (hadds : t.adds op = []) :
    step t op = (t.step op).mapError .fault := by
  rw [step, hdocuments, hadds]
  rfl

/-- Nothing is added while nothing is captured. -/
theorem step_of_idle (h : t.capture.active = false) : step t op = (t.step op).mapError .fault := by
  have hdocuments : t.documents op = [] := by
    cases op with
    | elapse kind cycles => cases kind <;> simp [Timer.documents, h]
    | _ => rfl
  have hadds : t.adds op = [] := by
    cases op with
    | elapse kind cycles => cases kind <;> simp [Timer.adds, Timer.charges, h]
    | record a => simp [Timer.adds, Timer.charges, h]
    | confirm => simp [Timer.adds, Timer.charges, h]
    | _ => rfl
  exact step_of_nothing hdocuments hadds

theorem run_cons_eq_ok : run t (op :: ops) = .ok after ↔
    ∃ next, step t op = .ok next ∧ run next ops = .ok after := foldlM_cons_eq_ok

theorem run_append_eq_ok {ops' : List Timer.Op} : run t (ops ++ ops') = .ok after ↔
    ∃ next, run t ops = .ok next ∧ run next ops' = .ok after := foldlM_append_eq_ok

/-- **A run that does not stop is a run of the other timer.** -/
theorem run_eq_ok (h : run t ops = .ok after) : t.run ops = .ok after := by
  induction ops generalizing t with
  | nil => cases h; rfl
  | cons op ops ih =>
    obtain ⟨next, hs, hrest⟩ := run_cons_eq_ok.mp h
    exact Timer.run_cons_eq_ok.mpr ⟨next, (step_eq_ok_iff.mp hs).1, ih hrest⟩

/-- **A run overflows, or the two timers do the same.** -/
theorem run_cases (t : Timer) (ops : List Timer.Op) :
    run t ops = .error .overflow ∨ run t ops = (t.run ops).mapError .fault := by
  induction ops generalizing t with
  | nil => exact .inr rfl
  | cons op ops ih =>
    rw [run, List.foldlM_cons, Timer.run_cons, step]
    split
    · cases t.step op with
      | error f => exact .inr rfl
      | ok next => exact ih next
    · exact .inl rfl

end Strict

end SpectrumTiming
