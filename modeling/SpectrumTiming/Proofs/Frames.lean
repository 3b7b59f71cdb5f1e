import Mathlib.Algebra.GroupWithZero.Nat
import Mathlib.Data.List.DropRight
import SpectrumTiming.Cost

/-!
# Frames and T-states

A clock counts the T-states that pass twice: all of them since it was reset, and as finished frames
with the T-states of the running one. Advancing it moves both counts by the same, over however many
ends of frames it goes (`frames_advance`), and does so in pieces as at once (`foldl_advance`). Only
to set the counter drives the two apart, by as much as it moves the counter (`lead_setCounter`).

So a clock that is built for a machine keeps its books from one reset to the next, whatever it is
asked for (`balanced_after`).
-/

namespace SpectrumTiming

namespace Clock

variable {u : Ula}

/-! ## Letting T-states pass -/

/-- Both counts go on by what passes. -/
theorem frames_advance (u : Ula) (c : Clock) (n : Nat) :
    (c.advance u n).frames * u.frame + (c.advance u n).counter =
      c.frames * u.frame + c.counter + n := by
  have hdiv := Nat.div_add_mod (c.counter + n) u.frame
  show (c.frames + (c.counter + n) / u.frame) * u.frame + (c.counter + n) % u.frame = _
  rw [Nat.add_mul, Nat.mul_comm (_ / _)]
  omega

/-- **In pieces as at once**, whichever ends of frames lie between. -/
theorem foldl_advance {c : Clock} (h : c.counter < u.frame) (pieces : List Nat) :
    pieces.foldl (advance u) c = c.advance u pieces.sum := by
  induction pieces generalizing c with
  | nil => exact (advance_zero h).symm
  | cons n pieces ih =>
    rw [List.foldl_cons, ih (counter_advance_lt u c n), advance_advance, List.sum_cons]

/-- What letting T-states pass keeps, paying costs keeps. -/
theorem payAll_induction {P : Clock → Prop} (hadvance : ∀ c n, P c → P (c.advance u n)) {c : Clock}
    (h : P c) (xs : List Cost) : P (c.payAll u xs) := by
  have hpay (c : Clock) (h : P c) (x : Cost) : P (c.pay u x) := by
    unfold pay
    generalize u.phases c.bank x = ps
    induction ps generalizing c with
    | nil => exact h
    | cons p ps ih => exact ih _ (hadvance c _ h)
  unfold payAll
  induction xs generalizing c with
  | nil => exact h
  | cons x xs ih => exact ih (hpay c h x)

/-- A clock has let T-states pass since it was started. -/
structure MovedBy (u : Ula) (c₀ c : Clock) (n : Nat) : Prop where
  elapsed : c.elapsed = c₀.elapsed + n
  counter : c.counter = (c₀.counter + n) % u.frame

theorem MovedBy.advance {c₀ c : Clock} {n : Nat} (h : MovedBy u c₀ c n) (k : Nat) :
    MovedBy u c₀ (c.advance u k) (n + k) where
  elapsed := by
    show c.elapsed + k = _
    rw [h.elapsed, Nat.add_assoc]
  counter := by
    show (c.counter + k) % u.frame = _
    rw [h.counter, Nat.mod_add_mod, Nat.add_assoc]

/-! ## The two counts -/

/-- How far the frames and the counter are ahead of the T-states that have passed. -/
def lead (u : Ula) (c : Clock) : Int := c.frames * u.frame + c.counter - c.elapsed

theorem lead_advance (u : Ula) (c : Clock) (n : Nat) : (c.advance u n).lead u = c.lead u := by
  have hframes : ((c.advance u n).frames * u.frame + (c.advance u n).counter : Int) =
      c.frames * u.frame + c.counter + n := by exact_mod_cast frames_advance u c n
  have helapsed : ((c.advance u n).elapsed : Int) = c.elapsed + n := rfl
  unfold lead
  omega

/-- To set the counter moves it, and nothing else. -/
theorem lead_setCounter (u : Ula) (c : Clock) (tstate : Nat) :
    (c.setCounter u tstate).lead u = c.lead u + (tstate % u.frame : Nat) - c.counter := by
  show (c.frames * u.frame + (tstate % u.frame : Nat) - c.elapsed : Int) = _
  unfold lead
  omega

theorem lead_reset (u : Ula) : lead u {} = 0 := by
  simp [lead]

/-! ## Whatever is asked for -/

/-- What a clock can be asked for. -/
inductive Op
  | advance (cycles : Nat)
  | setCounter (tstate : Nat)
  | setBank (bank : Nat)
  | reset
deriving DecidableEq

namespace Op

def apply (u : Ula) (c : Clock) : Op → Clock
  | .advance cycles => c.advance u cycles
  | .setCounter tstate => c.setCounter u tstate
  | .setBank bank => c.setBank bank
  | .reset => {}

/-- The T-states an operation lets pass. -/
def cycles : Op → Nat
  | .advance cycles => cycles
  | _ => 0

/-- The operations behind the last reset. -/
def sinceReset (ops : List Op) : List Op := ops.rtakeWhile (· ≠ .reset)

theorem sinceReset_reset (ops : List Op) : sinceReset (ops ++ [.reset]) = [] :=
  List.rtakeWhile_concat_neg _ _ _ (by simp)

theorem sinceReset_concat (ops : List Op) {op : Op} (h : op ≠ .reset) :
    sinceReset (ops ++ [op]) = sinceReset ops ++ [op] :=
  List.rtakeWhile_concat_pos _ _ _ (by simpa using h)

end Op

/-- The clock of a machine behind all that it has been asked for. -/
def after (u : Ula) (ops : List Op) : Clock := ops.foldl (Op.apply u) {}

/-- The books of a clock that has been asked for these things since it was reset. -/
structure Balanced (u : Ula) (since : List Op) (c : Clock) : Prop where
  counter_lt : c.counter < u.frame
  elapsed : c.elapsed = (since.map Op.cycles).sum
  /-- As long as the counter has not been set, the two counts agree. -/
  lead : (∀ tstate, .setCounter tstate ∉ since) → c.lead u = 0

theorem balanced_new (u : Ula) : Balanced u [] {} where
  counter_lt := u.frame_pos
  elapsed := rfl
  lead := fun _ => lead_reset u

theorem Balanced.apply {ops : List Op} {c : Clock} (h : Balanced u (Op.sinceReset ops) c)
    (op : Op) : Balanced u (Op.sinceReset (ops ++ [op])) (op.apply u c) := by
  by_cases hreset : op = .reset
  · subst hreset
    rw [Op.sinceReset_reset]
    exact balanced_new u
  rw [Op.sinceReset_concat ops hreset]
  have hsum : (((Op.sinceReset ops) ++ [op]).map Op.cycles).sum = c.elapsed + op.cycles := by
    rw [h.elapsed, List.map_append, List.sum_append, List.map_singleton, List.sum_singleton]
  have hbefore (hset : ∀ tstate, .setCounter tstate ∉ Op.sinceReset ops ++ [op]) :
      c.lead u = 0 := h.lead fun tstate ht => hset tstate (List.mem_append_left _ ht)
  cases op with
  | advance cycles =>
    exact ⟨counter_advance_lt u c cycles, hsum.symm,
      fun hset => (lead_advance u c cycles).trans (hbefore hset)⟩
  | setCounter tstate =>
    exact ⟨Nat.mod_lt _ u.frame_pos, hsum.symm,
      fun hset => absurd (List.mem_append_right _ List.mem_cons_self) (hset tstate)⟩
  | setBank bank => exact ⟨h.counter_lt, hsum.symm, hbefore⟩
  | reset => exact absurd rfl hreset

theorem balanced_after (u : Ula) (ops : List Op) : Balanced u (Op.sinceReset ops) (after u ops) := by
  induction ops using List.reverseRecOn with
  | nil => exact balanced_new u
  | append_singleton ops op ih =>
    have hstep : after u (ops ++ [op]) = op.apply u (after u ops) := List.foldl_append
    rw [hstep]
    exact ih.apply op

/--
**Every T-state is accounted for.** Take the clock of any machine and ask it for anything, in any
order. The counter stays within the frame, and `elapsed` is the sum of all that was let pass since
the last reset. As long as the counter has not been set since then, the finished frames and the
counter come to the same sum. In any case the difference of the two is changed only by setting the
counter, by as much as this moves the counter, and a reset clears it.

From there on it makes no difference whether T-states pass in pieces or at once, not even where a
piece is longer than a frame.
-/
theorem after_conserves (u : Ula) (ops : List Op) :
    let c := after u ops
    c.counter < u.frame ∧
    c.elapsed = ((Op.sinceReset ops).map Op.cycles).sum ∧
    ((∀ tstate, .setCounter tstate ∉ Op.sinceReset ops) →
      c.frames * u.frame + c.counter = c.elapsed) ∧
    (∀ op : Op, (∀ tstate, op ≠ .setCounter tstate) →
      (op.apply u c).lead u = if op = .reset then 0 else c.lead u) ∧
    (∀ tstate, (c.setCounter u tstate).lead u =
      c.lead u + (tstate % u.frame : Nat) - c.counter) ∧
    ∀ pieces : List Nat, pieces.foldl (advance u) c = c.advance u pieces.sum := by
  intro c
  have hbalanced : c.Balanced u (Op.sinceReset ops) := balanced_after u ops
  refine ⟨hbalanced.counter_lt, hbalanced.elapsed, fun hset => ?_, fun op hop => ?_,
    lead_setCounter u c, foldl_advance hbalanced.counter_lt⟩
  · have hlead : (c.frames * u.frame + c.counter - c.elapsed : Int) = 0 := hbalanced.lead hset
    omega
  · cases op with
    | advance cycles => exact lead_advance u c cycles
    | setCounter tstate => exact absurd rfl (hop tstate)
    | setBank bank => rfl
    | reset => exact lead_reset u

/-- Frames of 7 T-states, shorter than what passes at once. -/
theorem after_conserves_short :
    let u : Ula :=
      { variant := .none, pattern := .replicate 8 0, start := 0, line := 1, frame := 7, banks := []
        line_pos := by decide, frame_pos := by decide }
    let c := after u [.setCounter 5, .reset, .advance 5, .setBank 5, .advance 20]
    c.elapsed = 25 ∧ c.frames * 7 + c.counter = 25 ∧
      [3, 20, 0].foldl (advance u) c = c.advance u 23 := by
  intro u c
  obtain ⟨-, helapsed, hframes, -, -, hpieces⟩ :=
    after_conserves u [.setCounter 5, .reset, .advance 5, .setBank 5, .advance 20]
  have hset : ∀ tstate, .setCounter tstate ∉
      Op.sinceReset [.setCounter 5, .reset, .advance 5, .setBank 5, .advance 20] := by
    have hsince : Op.sinceReset [.setCounter 5, .reset, .advance 5, .setBank 5, .advance 20] =
        [.advance 5, .setBank 5, .advance 20] := by decide
    simp [hsince]
  exact ⟨helapsed, (hframes hset).trans helapsed, hpieces [3, 20, 0]⟩

end Clock

end SpectrumTiming
