import SpectrumTiming.Proofs.Repetition

/-!
# Blocks through a port

`INIR`, `INDR`, `OTIR` and `OTDR` move a block of bytes between memory and a port, with B as the
count and as the upper half of the port address. On the way in the port sees B before it is lowered,
on the way out it sees B after. The carry of the flags comes from a sum with C on the way in and with
L on the way out.
-/

namespace SpectrumTiming

namespace Z80

/-- The flags show a byte that was moved through a port and the carry of its sum with another one. -/
def Flags.ShowsPort (f : Flags) (value addend : UInt8) : Prop :=
  f.subtract = bitOf value 7 ∧ f.half = f.carry ∧
    (f.carry = true ↔ 0x100 ≤ value.toNat + addend.toNat)

theorem Flags.showsPort_ofPort (count value addend : UInt8) :
    (Flags.ofPort count value (addend.toNat + value.toNat)).ShowsPort value addend := by
  refine ⟨rfl, rfl, ?_⟩
  rw [Nat.add_comm]
  exact decide_eq_true_iff

namespace Block

variable {b : Block} (s : State) (i : Nat)

/-- The port that the byte after so many comes in through. -/
theorem port_handled (h : b.kind = .input ∨ b.kind = .output) :
    (b.handled s i).regs.bc = join (s.regs.b - .ofNat i) s.regs.c := by
  rw [← b_handled s i h, ← c_handled s i h]
  exact (join_high_low _).symm

theorem low_stride (b : Block) (c : UInt8) :
    c + low b.stride = if b.down then c - 1 else c + 1 := by
  unfold stride
  cases b.down
  · rfl
  · show c + 255 = c - 1
    grind

/-! ## In -/

theorem traffic_input (h : b.kind = .input) (t : State) :
    ((blockOnce b).actions t).flatMap Action.traffic =
      [.bus .input t.regs.bc (t.ports t.regs.bc), .bus .write t.regs.hl (t.ports t.regs.bc)] := by
  obtain ⟨kind, down, repeats⟩ := b
  cases h
  rfl

theorem traffic_handled_of_input (h : b.kind = .input) :
    ((blockOnce b).actions (b.handled s i)).flatMap Action.traffic =
      [.bus .input (join (s.regs.b - .ofNat i) s.regs.c)
          (s.ports (join (s.regs.b - .ofNat i) s.regs.c)),
        .bus .write (b.pointer s.regs.hl i)
          (s.ports (join (s.regs.b - .ofNat i) s.regs.c))] := by
  rw [traffic_input h, hl_handled, ports_handled, port_handled s i (.inl h)]

theorem f_handled_succ_of_input (h : b.kind = .input) :
    (b.handled s (i + 1)).regs.f.ShowsPort (s.ports (join (s.regs.b - .ofNat i) s.regs.c))
      (if b.down then s.regs.c - 1 else s.regs.c + 1) := by
  rw [← low_stride, ← port_handled s i (.inl h), ← ports_handled s i, ← c_handled s i (.inl h),
    handled, blockOnce_input h]
  exact Flags.showsPort_ofPort _ _ _

/-- What has come in is in memory. -/
theorem memory_handled_of_input (h : b.kind = .input) {n : Nat} (hn : n ≤ 0x10000) :
    (∀ i < n, (b.handled s n).memory (b.pointer s.regs.hl i) =
        s.ports (join (s.regs.b - .ofNat i) s.regs.c)) ∧
      ∀ a, (∀ i < n, a ≠ b.pointer s.regs.hl i) → (b.handled s n).memory a = s.memory a := by
  obtain ⟨hwritten, hrest⟩ := memory_handled s (fun i => target?_of_input i h s.regs) hn
  refine ⟨fun i hi => ?_, hrest⟩
  have hbyte : b.byteAt s i = s.ports (b.handled s i).regs.bc := by
    unfold byteAt
    rw [h]
  rw [hwritten i hi, hbyte, port_handled s i (.inl h)]

/-! ## Out -/

theorem traffic_output (h : b.kind = .output) (t : State) :
    ((blockOnce b).actions t).flatMap Action.traffic =
      [.bus .read t.regs.hl (t.memory t.regs.hl),
        .bus .output (join (t.regs.b - 1) t.regs.c) (t.memory t.regs.hl)] := by
  obtain ⟨kind, down, repeats⟩ := b
  cases h
  rfl

theorem traffic_handled_of_output (h : b.kind = .output) :
    ((blockOnce b).actions (b.handled s i)).flatMap Action.traffic =
      [.bus .read (b.pointer s.regs.hl i) (s.memory (b.pointer s.regs.hl i)),
        .bus .output (join (s.regs.b - .ofNat (i + 1)) s.regs.c)
          (s.memory (b.pointer s.regs.hl i))] := by
  rw [traffic_output h, hl_handled, memory_handled_of_reads s i (.inr h), b_handled s i (.inr h),
    c_handled s i (.inr h), byte_sub_succ]

theorem f_handled_succ_of_output (h : b.kind = .output) :
    (b.handled s (i + 1)).regs.f.ShowsPort (s.memory (b.pointer s.regs.hl i))
      (low (b.pointer s.regs.hl (i + 1))) := by
  rw [pointer_succ, ← hl_handled s i, ← memory_handled_of_reads s i (.inr h), handled,
    blockOnce_output h]
  exact Flags.showsPort_ofPort _ _ _

/-- Z shows that B has run out. -/
theorem zero_handled_succ_iff (h : b.kind = .input ∨ b.kind = .output) :
    (b.handled s (i + 1)).regs.f.zero = true ↔ (b.handled s (i + 1)).regs.b = 0 := by
  rw [handled]
  rcases h with h | h
  · rw [blockOnce_input h]
    show _ ↔ high (join _ _) = 0
    rw [high_join]
    exact decide_eq_true_iff
  · rw [blockOnce_output h]
    show _ ↔ high (join _ _) = 0
    rw [high_join]
    exact decide_eq_true_iff

end Block

end Z80

namespace Computer

open Z80

/--
**Block instructions move blocks through a port.** Call `INIR`, `INDR`, `OTIR` or `OTDR` on any
computer, again and again until a call does not set the program counter back, while nothing is being
captured or else without a fault. There are as many calls as B says, 256 if it is zero. In the end B
is zero and Z says so, C is unchanged, and HL has moved on by the number of calls.

On the way in, each call reads the port with B as it was before the call and writes the byte where HL
points, and memory then holds the bytes. On the way out, each call reads the byte where HL points and
writes it to the port with B as it is after the call, and memory does not change. After each call N
is bit 7 of the byte, and H and C are the carry of its sum with the neighbour of C on the way in and
with the new L on the way out.
-/
theorem moves_block_through_port (c : Computer) {b : Block} (hrep : b.repeats = true)
    (hport : b.kind = .input ∨ b.kind = .output)
    (hok : c.Endures (.block b) (byteCount c.processor.regs.b)) :
    let s := c.processor
    let n := byteCount s.regs.b
    ∃ rounds last reports, c.Repeats [.block b] 2 rounds ∧ rounds.length = n ∧
      rounds.getLast? = some (last, reports) ∧
      last.processor.regs.b = 0 ∧ last.processor.regs.c = s.regs.c ∧
      last.processor.regs.hl = b.pointer s.regs.hl n ∧ last.processor.regs.f.zero = true ∧
      (b.kind = .input →
        (∀ i (hi : i < rounds.length),
          let port := join (s.regs.b - .ofNat i) s.regs.c
          (rounds[i].2.flatMap Report.events).filter Event.isBus =
            [.bus .input port (s.ports port),
              .bus .write (b.pointer s.regs.hl i) (s.ports port)] ∧
          rounds[i].1.processor.regs.f.ShowsPort (s.ports port)
            (if b.down then s.regs.c - 1 else s.regs.c + 1)) ∧
        (∀ i < n, last.processor.memory (b.pointer s.regs.hl i) =
          s.ports (join (s.regs.b - .ofNat i) s.regs.c)) ∧
        ∀ a, (∀ i < n, a ≠ b.pointer s.regs.hl i) → last.processor.memory a = s.memory a) ∧
      (b.kind = .output → ∀ i (hi : i < rounds.length),
        let value := s.memory (b.pointer s.regs.hl i)
        (rounds[i].2.flatMap Report.events).filter Event.isBus =
          [.bus .read (b.pointer s.regs.hl i) value,
            .bus .output (join (s.regs.b - .ofNat (i + 1)) s.regs.c) value] ∧
        rounds[i].1.processor.memory = s.memory ∧
        rounds[i].1.processor.regs.f.ShowsPort value (low (b.pointer s.regs.hl (i + 1)))) := by
  intro s n
  have hturns : b.turns s = n := by
    unfold Block.turns
    rcases hport with h | h <;> rw [h]
  obtain ⟨rounds, last, reports, hrounds, hlen, hlast, hend, hall⟩ :=
    exists_calls (b := b) hrep (by rw [hturns]; exact hok)
  rw [hturns] at hlen hend
  have hpos : 0 < n := lasts_pos s.regs.b.toNat_lt
  have hzero : (b.handled s n).regs.b = 0 := by
    rw [Block.b_handled s n hport]
    exact (sub_eq_zero_iff_byteCount hpos (Nat.le_refl n)).mpr rfl
  have hbc : last.processor.regs.bc = (b.handled s n).regs.bc := hend.bc
  refine ⟨rounds, last, reports, hrounds, hlen, hlast, ?_, ?_, hend.hl, ?_, ?_, ?_⟩
  · rw [← hzero, Registers.b, hbc]
    rfl
  · rw [← Block.c_handled s n hport, Registers.c, hbc]
    rfl
  · have hset := Block.zero_handled_succ_iff s (n - 1) hport
    rw [Nat.sub_add_cancel hpos] at hset
    rw [hend.f]
    exact hset.mpr hzero
  · intro hin
    refine ⟨fun i hi => ?_, ?_⟩
    · obtain ⟨hcalled, htraffic⟩ := hall i hi
      refine ⟨htraffic.trans (Block.traffic_handled_of_input s i hin), ?_⟩
      rw [hcalled.f]
      exact Block.f_handled_succ_of_input s i hin
    · rw [hend.memory]
      exact Block.memory_handled_of_input s hin
        (Nat.le_trans (byteCount_le s.regs.b) (by decide))
  · intro hout i hi
    obtain ⟨hcalled, htraffic⟩ := hall i hi
    refine ⟨htraffic.trans (Block.traffic_handled_of_output s i hout), ?_, ?_⟩
    · rw [hcalled.memory]
      exact Block.memory_handled_of_reads s _ (.inr hout)
    · rw [hcalled.f]
      exact Block.f_handled_succ_of_output s i hout

/-- `INDR` with a count of zero, across the bottom of memory, from a port that reads as the count. -/
theorem moves_block_through_port_indr :
    let s : State :=
      { regs := { bc := 0x00FE, hl := 0x00FE, pc := 0x8002 }
        ports := high }
    ∃ rounds last reports,
      Repeats [.block ⟨.input, true, true⟩] 2
        { processor := s, timer := { ula := .spectrum48k } } rounds ∧
      rounds.length = 256 ∧ rounds.getLast? = some (last, reports) ∧
      last.processor.regs.f.zero = true ∧ last.processor.memory 0xFFFF = 1 := by
  intro s
  obtain ⟨rounds, last, reports, hrounds, hlen, hlast, -, -, -, hzero, hin, -⟩ :=
    moves_block_through_port { processor := s, timer := { ula := .spectrum48k } }
      (b := ⟨.input, true, true⟩) rfl (.inl rfl) (.inl rfl)
  obtain ⟨-, hmemory, -⟩ := hin rfl
  have haddr : Block.pointer ⟨.input, true, true⟩ 0x00FE 255 = 0xFFFF := by decide
  have hfinal : last.processor.memory (Block.pointer ⟨.input, true, true⟩ 0x00FE 255) = 1 :=
    (hmemory 255 (by decide)).trans (by decide)
  rw [haddr] at hfinal
  exact ⟨rounds, last, reports, hrounds, hlen.trans (by decide), hlast, hzero, hfinal⟩

end Computer

end SpectrumTiming
