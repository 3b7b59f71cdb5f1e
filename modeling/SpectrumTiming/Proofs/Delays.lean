import SpectrumTiming.Proofs.Undelayed

/-!
# Waiting for the ULA

What a clock spends on costs falls into their own T-states and the delays in front of their phases
(`Clock.elapsed_payAll`). How long a delay is depends on where the clock stands by then, so the
delays are added up along the way (`Clock.waits`). Since paying pages nothing in, a list of costs is
one list of phases as well (`Clock.payAll_eq_foldl`).
-/

namespace SpectrumTiming

/-! ## Where the beam is -/

namespace Ula

variable {u : Ula}

theorem beam?_eq_some_iff {counter line column : Nat} :
    u.beam? counter = some (line, column) ↔
      counter = u.start + (u.line * line + column) ∧ column < u.line := by
  unfold beam?
  split
  · simp only [reduceCtorEq, false_iff]
    omega
  · rename_i hstart
    simp only [Option.some.injEq, Prod.mk.injEq]
    constructor
    · rintro ⟨rfl, rfl⟩
      have hdiv := Nat.div_add_mod (counter - u.start) u.line
      exact ⟨by omega, Nat.mod_lt _ u.line_pos⟩
    · rintro ⟨rfl, hcolumn⟩
      rw [Nat.add_sub_cancel_left, Nat.mul_add_div u.line_pos, Nat.div_eq_of_lt hcolumn,
        Nat.mul_add_mod, Nat.mod_eq_of_lt hcolumn]
      exact ⟨rfl, rfl⟩

theorem delay_of_beam {counter line column : Nat} (h : u.beam? counter = some (line, column))
    (hline : line < fetchedLines) (hcolumn : column < fetchedColumns) :
    u.delay counter = u.pattern[column % 8] := by
  simp only [delay, h, hline, hcolumn, and_self, if_true]

theorem delay_cases (u : Ula) (counter : Nat) : u.delay counter = 0 ∨
    ∃ line column, u.beam? counter = some (line, column) ∧ line < fetchedLines ∧
      column < fetchedColumns := by
  cases hbeam : u.beam? counter with
  | none => exact .inl (by simp only [delay, hbeam])
  | some place =>
    obtain ⟨line, column⟩ := place
    by_cases h : line < fetchedLines ∧ column < fetchedColumns
    · exact .inr ⟨line, column, rfl, h⟩
    · exact .inl (by simp only [delay, hbeam, h, if_false])

end Ula

/-! ## Delays along the way -/

namespace Clock

variable {u : Ula}

/-- The delays in front of phases, each read where the clock stands by then. -/
def waitsIn (u : Ula) (c : Clock) : List Phase → Nat
  | [] => 0
  | p :: ps => (if p.held then c.delay u else 0) + waitsIn u (c.passPhase u p) ps

/-- The delays that costs meet which are paid one after the other. -/
def waits (u : Ula) (c : Clock) : List Cost → Nat
  | [] => 0
  | x :: xs => c.waitsIn u (u.phases c.bank x) + waits u (c.pay u x) xs

theorem waitsIn_append (ps qs : List Phase) (c : Clock) :
    c.waitsIn u (ps ++ qs) = c.waitsIn u ps + (ps.foldl (passPhase u) c).waitsIn u qs := by
  induction ps generalizing c with
  | nil => exact (Nat.zero_add _).symm
  | cons p ps ih =>
    rw [List.cons_append, waitsIn, waitsIn, ih, List.foldl_cons]
    omega

theorem waits_append (xs ys : List Cost) (c : Clock) :
    c.waits u (xs ++ ys) = c.waits u xs + (c.payAll u xs).waits u ys := by
  induction xs generalizing c with
  | nil => exact (Nat.zero_add _).symm
  | cons x xs ih =>
    show c.waitsIn u _ + (c.pay u x).waits u (xs ++ ys) = _
    rw [ih, waits, Nat.add_assoc]
    rfl

/-! ## One list of phases

Paying leaves the bank alone, so all costs of a list fall into phases under the same bank. -/

@[simp] theorem bank_foldl_passPhase (ps : List Phase) (c : Clock) :
    (ps.foldl (passPhase u) c).bank = c.bank := by
  induction ps generalizing c with
  | nil => rfl
  | cons p ps ih => exact ih (c.passPhase u p)

theorem payAll_eq_foldl (xs : List Cost) (c : Clock) :
    c.payAll u xs = (xs.flatMap (u.phases c.bank)).foldl (passPhase u) c := by
  induction xs generalizing c with
  | nil => rfl
  | cons x xs ih =>
    have hbank : (c.pay u x).bank = c.bank := bank_foldl_passPhase _ c
    show (c.pay u x).payAll u xs = _
    rw [ih, hbank, List.flatMap_cons, List.foldl_append]
    rfl

@[simp] theorem bank_payAll (xs : List Cost) (c : Clock) : (c.payAll u xs).bank = c.bank := by
  rw [payAll_eq_foldl, bank_foldl_passPhase]

theorem waits_eq_waitsIn (xs : List Cost) (c : Clock) :
    c.waits u xs = c.waitsIn u (xs.flatMap (u.phases c.bank)) := by
  induction xs generalizing c with
  | nil => rfl
  | cons x xs ih =>
    have hbank : (c.pay u x).bank = c.bank := bank_foldl_passPhase _ c
    rw [waits, ih, hbank, List.flatMap_cons, waitsIn_append]
    rfl

/-! ## Time passes for T-states and for delays -/

theorem elapsed_foldl_passPhase (ps : List Phase) (c : Clock) :
    (ps.foldl (passPhase u) c).elapsed = c.elapsed + (Phase.total ps + c.waitsIn u ps) := by
  induction ps generalizing c with
  | nil => rfl
  | cons p ps ih =>
    have hp : (c.passPhase u p).elapsed =
        c.elapsed + ((if p.held then c.delay u else 0) + p.cycles) := rfl
    rw [List.foldl_cons, ih, hp, Phase.total, waitsIn]
    omega

/-- **Time passes for T-states and for delays**, and for nothing else. -/
theorem elapsed_payAll (xs : List Cost) (c : Clock) :
    (c.payAll u xs).elapsed = c.elapsed + (Cost.total xs + c.waits u xs) := by
  induction xs generalizing c with
  | nil => rfl
  | cons x xs ih =>
    have hx : (c.pay u x).elapsed =
        c.elapsed + (x.cycles + c.waitsIn u (u.phases c.bank x)) := by
      rw [← u.total_phases c.bank x]
      exact elapsed_foldl_passPhase _ c
    show ((c.pay u x).payAll u xs).elapsed = _
    rw [ih, hx, Cost.total, waits]
    omega

theorem waitsIn_of_undelayed (h : u.Undelayed) (ps : List Phase) (c : Clock) :
    c.waitsIn u ps = 0 := by
  induction ps generalizing c with
  | nil => rfl
  | cons p ps ih =>
    have hdelay : c.delay u = 0 := h.delay_eq_zero c.counter
    rw [waitsIn, hdelay, ite_self, ih]

theorem waits_of_undelayed (h : u.Undelayed) (xs : List Cost) (c : Clock) : c.waits u xs = 0 := by
  induction xs generalizing c with
  | nil => rfl
  | cons x xs ih => rw [waits, waitsIn_of_undelayed h, ih]

end Clock

end SpectrumTiming
