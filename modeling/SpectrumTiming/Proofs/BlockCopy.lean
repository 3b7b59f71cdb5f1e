import SpectrumTiming.Proofs.Repetition

/-!
# Copying blocks

`LDIR` and `LDDR` move a block of bytes, in one direction or the other. A byte arrives as it was at
the beginning if nothing has been written over it before it is its turn, and it stays since the
pointer to the destination comes to no address twice (`memory_copied`). So a block that does not
overlap its copy may as well be moved from its other end (`memory_reversed`).
-/

namespace SpectrumTiming

namespace Z80

namespace Block

variable {b : Block} {s : State} {n : Nat}

/-- **A block is copied** if no byte of it is overwritten before it is moved, and nothing else is
written. -/
theorem memory_copied (h : b.kind = .transfer) (hn : n ≤ 0x10000)
    (hfree : ∀ j < n, ∀ i < j, b.pointer s.regs.de i ≠ b.pointer s.regs.hl j) :
    (∀ i < n, (b.handled s n).memory (b.pointer s.regs.de i) =
        s.memory (b.pointer s.regs.hl i)) ∧
      ∀ a, (∀ i < n, a ≠ b.pointer s.regs.de i) → (b.handled s n).memory a = s.memory a := by
  obtain ⟨hwritten, hrest⟩ := memory_handled s (fun i => target?_of_transfer i h s.regs) hn
  refine ⟨fun i hi => ?_, hrest⟩
  have hbyte : b.byteAt s i = (b.handled s i).memory (b.pointer s.regs.hl i) := by
    unfold byteAt
    rw [h]
  rw [hwritten i hi, hbyte]
  refine memory_handled_of_ne s i fun j hj => ?_
  rw [target?_of_transfer j h]
  exact fun heq => hfree i hi j hj (Option.some.inj heq)

/-- Moved from its other end, a block comes out the same. -/
theorem memory_reversed (h : b.kind = .transfer) (hn : n ≤ 0x10000) {s' : State}
    (hmemory : s'.memory = s.memory) (hhl : s'.regs.hl = b.pointer s.regs.hl (n - 1))
    (hde : s'.regs.de = b.pointer s.regs.de (n - 1))
    (hapart : ∀ i < n, ∀ j < n, b.pointer s.regs.de i ≠ b.pointer s.regs.hl j) :
    (b.reversed.handled s' n).memory = (b.handled s n).memory := by
  have hsource : ∀ i < n, b.reversed.pointer s'.regs.hl i = b.pointer s.regs.hl (n - 1 - i) := by
    intro i hi
    rw [hhl, pointer_reversed _ _ (by omega)]
  have hdest : ∀ i < n, b.reversed.pointer s'.regs.de i = b.pointer s.regs.de (n - 1 - i) := by
    intro i hi
    rw [hde, pointer_reversed _ _ (by omega)]
  obtain ⟨hcopy, hrest⟩ := memory_copied h hn fun j hj i hi => hapart i (by omega) j hj
  obtain ⟨hcopy', hrest'⟩ := memory_copied (b := b.reversed) (s := s') h hn fun j hj i hi => by
    rw [hsource j hj, hdest i (by omega)]
    exact hapart _ (by omega) _ (by omega)
  funext a
  by_cases hwritten : ∃ i < n, a = b.pointer s.regs.de i
  · obtain ⟨i, hi, rfl⟩ := hwritten
    -- the byte that one direction moves in turn `i` is moved in turn `n - 1 - i` by the other
    have hback : n - 1 - (n - 1 - i) = i := by omega
    have hthis := hcopy' (n - 1 - i) (by omega)
    rw [hdest _ (by omega), hsource _ (by omega), hback, hmemory] at hthis
    rw [hthis, hcopy i hi]
  · have hnot : ∀ i < n, a ≠ b.pointer s.regs.de i := fun i hi heq => hwritten ⟨i, hi, heq⟩
    rw [hrest a hnot, hrest' a fun i hi => ?_, hmemory]
    rw [hdest i hi]
    exact hnot _ (by omega)

theorem f_handled_of_transfer (h : b.kind = .transfer) (s : State) (i : Nat) :
    (b.handled s i).regs.f.sign = s.regs.f.sign ∧ (b.handled s i).regs.f.zero = s.regs.f.zero ∧
      (b.handled s i).regs.f.carry = s.regs.f.carry := by
  induction i with
  | zero => exact ⟨rfl, rfl, rfl⟩
  | succ i ih =>
    rw [handled, blockOnce_transfer h]
    exact ih

theorem f_handled_succ_of_transfer (h : b.kind = .transfer) (s : State) (i : Nat) :
    (b.handled s (i + 1)).regs.f.half = false ∧ (b.handled s (i + 1)).regs.f.subtract = false ∧
      ((b.handled s (i + 1)).regs.f.parity = true ↔ (b.handled s (i + 1)).regs.bc ≠ 0) := by
  rw [handled, blockOnce_transfer h]
  exact ⟨rfl, rfl, decide_eq_true_iff⟩

end Block

end Z80

namespace Computer

open Z80

/--
**`LDIR` and `LDDR` copy blocks.** Call either of them on any computer, again and again until a call
does not set the program counter back, while nothing is being captured or else without a fault. There
are as many calls as BC says, 65536 if it is zero. Each but the last one lowers the program counter
by 2 and leaves WZ one above it. In the end BC is zero, HL and DE have moved on by the number of
calls, and of the flags S, Z and C are as before and H, N and P/V are clear.

If no byte is written over a byte of the block whose turn is still to come, then the destination
holds what the block held at the beginning, and nothing else has changed. If the block and its copy
lie apart, then the other instruction, called as often from the other ends, leaves memory the same.
-/
theorem copies_block (c : Computer) (down : Bool)
    (hok : c.Endures (.block ⟨.transfer, down, true⟩) (wordCount c.processor.regs.bc)) :
    let b : Block := ⟨.transfer, down, true⟩
    let s := c.processor
    let n := wordCount s.regs.bc
    ∃ rounds last reports, c.Repeats [.block b] 2 rounds ∧ rounds.length = n ∧
      rounds.getLast? = some (last, reports) ∧
      (∀ i (hi : i + 1 < rounds.length),
        rounds[i].1.processor.regs.pc = s.regs.pc - 2 * .ofNat (i + 1) ∧
        rounds[i].1.processor.regs.wz = rounds[i].1.processor.regs.pc + 1) ∧
      last.processor.regs.pc = s.regs.pc - 2 * .ofNat (n - 1) ∧
      last.processor.regs.bc = 0 ∧
      last.processor.regs.hl = b.pointer s.regs.hl n ∧
      last.processor.regs.de = b.pointer s.regs.de n ∧
      last.processor.regs.f.sign = s.regs.f.sign ∧ last.processor.regs.f.zero = s.regs.f.zero ∧
      last.processor.regs.f.carry = s.regs.f.carry ∧ last.processor.regs.f.half = false ∧
      last.processor.regs.f.subtract = false ∧ last.processor.regs.f.parity = false ∧
      ((∀ j < n, ∀ i < j, b.pointer s.regs.de i ≠ b.pointer s.regs.hl j) →
        (∀ i < n, last.processor.memory (b.pointer s.regs.de i) =
          s.memory (b.pointer s.regs.hl i)) ∧
        ∀ a, (∀ i < n, a ≠ b.pointer s.regs.de i) → last.processor.memory a = s.memory a) ∧
      ∀ c' : Computer, c'.processor.memory = s.memory → c'.processor.regs.bc = s.regs.bc →
        c'.processor.regs.hl = b.pointer s.regs.hl (n - 1) →
        c'.processor.regs.de = b.pointer s.regs.de (n - 1) →
        (∀ i < n, ∀ j < n, b.pointer s.regs.de i ≠ b.pointer s.regs.hl j) →
        c'.Endures (.block b.reversed) n →
        ∃ rounds' last' reports', c'.Repeats [.block b.reversed] 2 rounds' ∧
          rounds'.length = n ∧ rounds'.getLast? = some (last', reports') ∧
          last'.processor.memory = last.processor.memory := by
  intro b s n
  have hn : n ≤ 0x10000 := wordCount_le s.regs.bc
  obtain ⟨rounds, last, reports, hrounds, hlen, hlast, hend, hall⟩ :=
    exists_calls (b := b) rfl hok
  have hturns : b.turns c.processor = n := rfl
  rw [hturns] at hlen hend
  have hpos : 0 < n := Block.turns_pos s (b := b)
  have hbc : last.processor.regs.bc = 0 := by
    rw [hend.bc, Block.bc_handled s n (.inl rfl)]
    exact (sub_eq_zero_iff_wordCount hpos (Nat.le_refl n)).mpr rfl
  obtain ⟨hsign, hzero, hcarry⟩ := Block.f_handled_of_transfer (b := b) rfl s n
  obtain ⟨hhalf, hsubtract, hparity⟩ := Block.f_handled_succ_of_transfer (b := b) rfl s (n - 1)
  rw [Nat.sub_add_cancel hpos] at hhalf hsubtract hparity
  rw [← hend.f] at hsign hzero hcarry hhalf hsubtract hparity
  rw [← hend.bc, hbc] at hparity
  have hclear : last.processor.regs.f.parity = false :=
    Bool.eq_false_iff.mpr fun hset => hparity.mp hset rfl
  refine ⟨rounds, last, reports, hrounds, hlen, hlast, ?_, ?_, hbc, hend.hl,
    hend.de.trans (Block.de_handled s n rfl), hsign, hzero, hcarry, hhalf, hsubtract, hclear,
    ?_, ?_⟩
  · intro i hi
    have hcalled := (hall i (by omega)).1
    refine ⟨?_, hcalled.wz (Nat.succ_pos i) (by omega) (.inl rfl)⟩
    rw [hcalled.pc, Nat.min_eq_left (by omega)]
  · rw [hend.pc, hturns, Nat.min_eq_right (by omega)]
  · rw [hend.memory]
    exact Block.memory_copied rfl hn
  · intro c' hmemory hcount hhl hde hapart hok'
    have hturns' : b.reversed.turns c'.processor = n := congrArg wordCount hcount
    rw [← hturns'] at hok'
    obtain ⟨rounds', last', reports', hrounds', hlen', hlast', hend', -⟩ :=
      exists_calls (b := b.reversed) rfl hok'
    rw [hturns'] at hlen' hend'
    refine ⟨rounds', last', reports', hrounds', hlen', hlast', ?_⟩
    rw [hend.memory, hend'.memory]
    exact Block.memory_reversed rfl hn hmemory hhl hde hapart

/-- `LDIR` round the top of memory, of three bytes into contended memory, and `LDDR` from the other
ends of the two blocks. -/
theorem copies_block_wrapped :
    let s : State :=
      { regs := { bc := 3, hl := 0xFFFF, de := 0x4000, pc := 0x8002 }
        memory := Memory.load (fun _ => 0) 0xFFFF [5, 6, 7] }
    let s' : State := { s with regs := { bc := 3, hl := 1, de := 0x4002 } }
    ∃ rounds last reports rounds' last' reports',
      Repeats [.block ⟨.transfer, false, true⟩] 2
        { processor := s, timer := { ula := .spectrum48k } } rounds ∧
      rounds.length = 3 ∧ rounds.getLast? = some (last, reports) ∧
      last.processor.memory 0x4001 = 6 ∧
      Repeats [.block ⟨.transfer, true, true⟩] 2
        { processor := s', timer := { ula := .spectrum48k } } rounds' ∧
      rounds'.getLast? = some (last', reports') ∧
      last'.processor.memory = last.processor.memory := by
  intro s s'
  obtain ⟨rounds, last, reports, hrounds, hlen, hlast, -, -, -, -, -, -, -, -, -, -, -, hcopy,
    hback⟩ := copies_block { processor := s, timer := { ula := .spectrum48k } } false (.inl rfl)
  obtain ⟨rounds', last', reports', hrounds', -, hlast', hsame⟩ :=
    hback { processor := s', timer := { ula := .spectrum48k } } rfl rfl (by decide) (by decide)
      (by decide) (.inl rfl)
  have hbyte := (hcopy (by decide)).1 1 (by decide)
  exact ⟨rounds, last, reports, rounds', last', reports', hrounds, hlen, hlast,
    hbyte.trans (by decide), hrounds', hlast', hsame⟩

end Computer

end SpectrumTiming
