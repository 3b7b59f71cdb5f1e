/-!
# Decimal digits

Scripts, delay patterns and bank lists are written in the ten digits `0` to `9` and no others: a
digit of another script or a full-width one is not a digit here.
-/

namespace SpectrumTiming

/-- The value of a decimal digit. -/
def digit? (c : Char) : Option Nat :=
  if '0' ≤ c ∧ c ≤ '9' then some (c.toNat - '0'.toNat) else none

theorem digit?_lt {c : Char} {d : Nat} (h : digit? c = some d) : d < 10 := by
  unfold digit? at h
  split at h
  · rename_i hc
    have h9 : c.toNat ≤ '9'.toNat := hc.2
    have hd := Option.some.inj h
    have : '9'.toNat = 57 := rfl
    have : '0'.toNat = 48 := rfl
    omega
  · simp at h

/-- The digits are read as what they are written for, and nothing else is a digit. -/
theorem digit?_eq_some_iff {c : Char} {n : Nat} :
    digit? c = some n ↔ ∃ d : Fin 10, d.val = n ∧ Nat.digitChar d = c := by
  constructor
  · intro h
    have hn := digit?_lt h
    refine ⟨⟨n, hn⟩, rfl, ?_⟩
    unfold digit? at h
    split at h
    · rename_i hc
      have h0 : '0'.toNat ≤ c.toNat := hc.1
      have h9 : c.toNat ≤ '9'.toNat := hc.2
      have hd := Option.some.inj h
      apply Char.toNat_inj.mp
      rw [Nat.toNat_digitChar_of_lt_ten hn]
      have : '9'.toNat = 57 := rfl
      have : '0'.toNat = 48 := rfl
      omega
    · simp at h
  · rintro ⟨d, rfl, rfl⟩
    revert d
    decide

@[simp] theorem digit?_digitChar (d : Fin 10) : digit? (Nat.digitChar d) = some d.val :=
  digit?_eq_some_iff.mpr ⟨d, rfl, rfl⟩

end SpectrumTiming
