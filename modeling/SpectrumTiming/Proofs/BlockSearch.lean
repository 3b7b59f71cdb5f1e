import Mathlib.Order.Bounds.Basic
import SpectrumTiming.Proofs.Repetition

/-!
# Searching blocks

`CPIR` and `CPDR` go through a block of bytes until one equals the accumulator or the block is at an
end. That there is a match is left in the flag Z, that there is more of the block in P/V; both can
happen with the same byte. A comparison writes nothing, so what is found is what was there at the
beginning.
-/

namespace SpectrumTiming

namespace Z80.Block

variable {b : Block}

theorem carry_handled_of_compare (h : b.kind = .compare) (s : State) (i : Nat) :
    (b.handled s i).regs.f.carry = s.regs.f.carry := by
  induction i with
  | zero => rfl
  | succ i ih =>
    rw [handled, blockOnce_compare h]
    exact ih

theorem f_handled_succ_of_compare (h : b.kind = .compare) (s : State) (i : Nat) :
    (b.handled s (i + 1)).regs.f.subtract = true ∧
      ((b.handled s (i + 1)).regs.f.parity = true ↔ (b.handled s (i + 1)).regs.bc ≠ 0) := by
  rw [handled, blockOnce_compare h]
  exact ⟨rfl, decide_eq_true_iff⟩

theorem match?_eq_some_iff_isLeast (b : Block) (s : State) (m : Nat) :
    b.match? s = some m ↔
      IsLeast {i | i < wordCount s.regs.bc ∧ s.memory (b.pointer s.regs.hl i) = s.regs.a} m := by
  rw [match?_eq_some_iff]
  constructor
  · rintro ⟨hlt, hmatch, hfirst⟩
    refine ⟨⟨hlt, hmatch⟩, fun i ⟨_, hi⟩ => ?_⟩
    exact Nat.le_of_not_lt fun him => hfirst i him hi
  · rintro ⟨⟨hlt, hmatch⟩, hleast⟩
    refine ⟨hlt, hmatch, fun j hj heq => ?_⟩
    exact absurd (hleast ⟨Nat.lt_trans hj hlt, heq⟩) (Nat.not_le_of_lt hj)

/-- The last comparison finds a match if there is one at all. -/
theorem found_last_iff (h : b.kind = .compare) (s : State) :
    (b.handled s (b.turns s)).regs.f.zero = true ↔
      ∃ i < wordCount s.regs.bc, s.memory (b.pointer s.regs.hl i) = s.regs.a := by
  have hlast : (b.handled s (b.turns s)).regs.f.zero = true ↔
      s.memory (b.pointer s.regs.hl (b.turns s - 1)) = s.regs.a := by
    rw [← zero_handled_succ s _ h, Nat.sub_add_cancel (turns_pos s)]
  rw [hlast]
  have hturns : b.turns s = (b.match? s).elim (wordCount s.regs.bc) (· + 1) := by
    unfold turns
    rw [h]
  cases hm : b.match? s with
  | some m =>
    obtain ⟨hlt, hmatch, -⟩ := (match?_eq_some_iff s).mp hm
    rw [hturns, hm]
    exact iff_of_true hmatch ⟨m, hlt, hmatch⟩
  | none =>
    have hnone := (match?_eq_none_iff s).mp hm
    rw [hturns, hm]
    have hpos : 0 < wordCount s.regs.bc := lasts_pos s.regs.bc.toNat_lt
    exact iff_of_false (hnone _ (Nat.sub_lt hpos Nat.one_pos)) fun ⟨i, hi, hfound⟩ =>
      hnone i hi hfound

end Z80.Block

namespace Computer

open Z80

/--
**`CPIR` and `CPDR` find the first match.** Call either of them on any computer, again and again
until a call does not set the program counter back, while nothing is being captured or else without a
fault. If a byte of the block equals A, then there are as many calls as it takes to get to the first
such byte; if none does, there are as many as BC says, 65536 if it is zero. In the end HL and BC have
been moved by the number of calls, Z says whether there was a match and P/V whether BC is not zero, N
is set, C is as before and so is memory.
-/
theorem searches_block (c : Computer) (down : Bool)
    (hok : c.Endures (.block ⟨.compare, down, true⟩)
      (Block.turns ⟨.compare, down, true⟩ c.processor)) :
    let b : Block := ⟨.compare, down, true⟩
    let s := c.processor
    let n := wordCount s.regs.bc
    ∃ rounds last reports, c.Repeats [.block b] 2 rounds ∧
      rounds.getLast? = some (last, reports) ∧
      (∀ m, IsLeast {i | i < n ∧ s.memory (b.pointer s.regs.hl i) = s.regs.a} m →
        rounds.length = m + 1) ∧
      ((∀ i < n, s.memory (b.pointer s.regs.hl i) ≠ s.regs.a) → rounds.length = n) ∧
      last.processor.regs.hl = b.pointer s.regs.hl rounds.length ∧
      last.processor.regs.bc = s.regs.bc - .ofNat rounds.length ∧
      (last.processor.regs.f.zero = true ↔
        ∃ i < n, s.memory (b.pointer s.regs.hl i) = s.regs.a) ∧
      (last.processor.regs.f.parity = true ↔ last.processor.regs.bc ≠ 0) ∧
      last.processor.regs.f.subtract = true ∧
      last.processor.regs.f.carry = s.regs.f.carry ∧
      last.processor.memory = s.memory := by
  intro b s n
  obtain ⟨rounds, last, reports, hrounds, hlen, hlast, hend, -⟩ := exists_calls (b := b) rfl hok
  have hcount : b.turns s = (b.match? s).elim n (· + 1) := rfl
  obtain ⟨hsubtract, hparity⟩ :=
    Block.f_handled_succ_of_compare (b := b) rfl s (b.turns s - 1)
  rw [Nat.sub_add_cancel (Block.turns_pos s)] at hsubtract hparity
  refine ⟨rounds, last, reports, hrounds, hlast, ?_, ?_, ?_, ?_, ?_, ?_, ?_, ?_, ?_⟩
  · intro m hm
    rw [hlen, hcount, (b.match?_eq_some_iff_isLeast s m).mpr hm]
    rfl
  · intro hnone
    rw [hlen, hcount, (Block.match?_eq_none_iff s).mpr hnone]
    rfl
  · rw [hlen]
    exact hend.hl
  · rw [hlen, hend.bc]
    exact Block.bc_handled s _ (.inr rfl)
  · rw [hend.f]
    exact Block.found_last_iff rfl s
  · rw [hend.f, hend.bc]
    exact hparity
  · rw [hend.f]
    exact hsubtract
  · rw [hend.f]
    exact Block.carry_handled_of_compare rfl s _
  · rw [hend.memory]
    exact Block.memory_handled_of_reads s _ (.inl rfl)

/-- `CPDR` that finds its byte as BC runs out, below the bottom of memory. -/
theorem searches_block_last :
    let s : State :=
      { regs := { a := 7, bc := 2, hl := 0, pc := 0x8002 }
        memory := Memory.load (fun _ => 0) 0xFFFF [7, 5] }
    ∃ rounds last reports,
      Repeats [.block ⟨.compare, true, true⟩] 2
        { processor := s, timer := { ula := .spectrum48k } } rounds ∧
      rounds.getLast? = some (last, reports) ∧ rounds.length = 2 ∧
      last.processor.regs.f.zero = true ∧ ¬ last.processor.regs.f.parity = true := by
  intro s
  obtain ⟨rounds, last, reports, hrounds, hlast, hfirst, -, -, hbc, hzero, hparity, -⟩ :=
    searches_block { processor := s, timer := { ula := .spectrum48k } } true (.inl rfl)
  have hleast : IsLeast {i | i < 2 ∧ s.memory (Block.pointer ⟨.compare, true, true⟩ 0 i) = 7} 1 := by
    refine ⟨⟨by decide, by decide⟩, fun i ⟨_, hi⟩ => ?_⟩
    exact Nat.one_le_iff_ne_zero.mpr fun h0 => absurd (h0 ▸ hi) (by decide)
  have hlen : rounds.length = 2 := hfirst 1 hleast
  refine ⟨rounds, last, reports, hrounds, hlast, hlen, hzero.mpr ⟨1, by decide, by decide⟩, ?_⟩
  rw [hparity, hbc, hlen]
  decide

end Computer

end SpectrumTiming
