import SpectrumTiming.Proofs.Bounds
import SpectrumTiming.Proofs.Repetition

/-!
# How long block instructions take

A block instruction that repeats is fetched anew for each byte, since it sets the program counter
back onto itself. As long as it does not write over its own two bytes it finds itself there each
time, and every turn is one instruction: it ends without a fault, and its documented T-states and the
delays pass (`exists_run_timed`). All turns but the last one go on and are documented to take 21
T-states, the last one takes 16.

So what is left is to count turns. `Executed` says where the computer stands after any number of
them, and `runs_block_to_end` reads the whole run off it.
-/

namespace SpectrumTiming

open Z80

namespace Timer

/-- Whether an instruction may begin. A machine with contention drops what it was capturing, one
without has nothing to drop. -/
def Startable (t : Timer) : Prop := t.ula.variant.contends = true ∨ t.capture.active = false

/-- An instruction may begin on whatever a machine has come to. -/
theorem startable_run {m : Machine} {display : Bool} {t₀ t : Timer} {ops : List Op}
    (hm : ofMachine m display = .ok t₀) (hrun : t₀.run ops = .ok t) : t.Startable := by
  obtain ⟨u, -, rfl⟩ := ofMachine_eq_ok hm
  by_cases hv : u.variant.contends = true
  · refine .inl ?_
    rw [ula_run hrun]
    exact hv
  · obtain ⟨after, hok, hblank⟩ := run_of_blank ops (t := { ula := u, display })
      (Bool.eq_false_iff.mpr hv) ⟨rfl, rfl, rfl, rfl, rfl, rfl⟩
    obtain rfl := Except.ok.inj (hrun.symm.trans hok)
    exact .inr hblank.active

end Timer

/-! ## One instruction -/

namespace Computer

/-- Without contention an instruction takes the documented T-states. -/
theorem exists_run_ops_of_idle (c : Computer) (hv : c.timer.ula.variant.contends = false)
    (hidle : c.timer.capture.active = false) (i : Instruction)
    (hheld : c.processor.memory.holds c.processor.regs.pc i.bytes) :
    ∃ after reports, c.run i.ops = .ok (after, reports) ∧
      after.timer.capture.active = false ∧
      after.timer.clock.elapsed = c.timer.clock.elapsed + i.documented c.processor := by
  obtain ⟨code, first, second, hcode, -, hseen⟩ := i.seen_ops hheld
  obtain ⟨timer, hrun, -, hstill, hticks, -⟩ :=
    Timer.run_of_idle ((Op.seen c.processor i.ops).map Action.op) hidle (.inl hv)
  obtain ⟨after, reports, hok, rfl⟩ := exists_run_of_timer hrun
  refine ⟨after, reports, hok, hstill, ?_⟩
  rw [hticks, hseen, List.foldl_append]
  -- the ticks at the beginning and at the end leave the clock alone
  show ((i.encoding.drive _ code first second).foldl (Timer.Op.tick c.timer.ula)
    c.timer.clock).elapsed = _
  rw [Timer.elapsed_foldl_tick _ Encoding.informs_of_mem_drive,
    Encoding.ofOps_drive i.encoding _ first second (Encoding.length_reports hcode),
    ← i.documented_eq c.processor]

/-- **One instruction** ends without a fault. The documented T-states pass, and the delays if there
are any. -/
theorem exists_run_timed (c : Computer) (hstart : c.timer.Startable) (i : Instruction)
    (hheld : c.processor.memory.holds c.processor.regs.pc i.bytes) :
    ∃ after reports, c.run i.ops = .ok (after, reports) ∧ after.timer.ula = c.timer.ula ∧
      after.timer.Startable ∧
      c.timer.clock.elapsed + i.documented c.processor ≤ after.timer.clock.elapsed ∧
      (c.timer.ula.Undelayed ∨ c.timer.ula.variant = .none →
        after.timer.clock.elapsed = c.timer.clock.elapsed + i.documented c.processor) := by
  have hula {after : Computer} {reports : List Report} (hrun : c.run i.ops = .ok (after, reports)) :
      after.timer.ula = c.timer.ula := by
    have hmap := map_run i.ops c
    rw [hrun] at hmap
    exact Timer.ula_run hmap.symm
  by_cases hv : c.timer.ula.variant.contends = true
  · obtain ⟨_, after, reports, costs, -, hrun, -, -, htotal, hclock⟩ := c.exists_run_ops hv i hheld
    have helapsed : after.timer.clock.elapsed = c.timer.clock.elapsed +
        (i.documented c.processor + c.timer.clock.waits c.timer.ula costs) := by
      rw [hclock, Clock.elapsed_payAll, htotal]
    refine ⟨after, reports, hrun, hula hrun, .inl ?_, by omega, fun hexact => ?_⟩
    · rw [hula hrun]
      exact hv
    · have hundelayed : c.timer.ula.Undelayed := hexact.resolve_right fun hnone => by
        rw [hnone] at hv
        exact Bool.false_ne_true hv
      rw [helapsed, Clock.waits_of_undelayed hundelayed, Nat.add_zero]
  · obtain ⟨after, reports, hrun, hidle, helapsed⟩ := c.exists_run_ops_of_idle
      (Bool.eq_false_iff.mpr hv) (hstart.resolve_left hv) i hheld
    exact ⟨after, reports, hrun, hula hrun, .inr hidle, Nat.le_of_eq helapsed.symm,
      fun _ => helapsed⟩

end Computer

/-! ## Turn by turn -/

namespace Z80.Block

/-- A block instruction, as memory holds it. -/
def instruction (b : Block) : Instruction := ⟨.block b, b.opcode, List.mem_singleton_self _⟩

/-- The T-states the manuals give for so many turns. -/
def documented (b : Block) (s : State) (turns : Nat) : Nat :=
  if turns < b.turns s then 21 * turns else 21 * (b.turns s - 1) + 16

theorem duration_opcode {b : Block} (hrep : b.repeats = true) :
    Opcode.duration .extended b.opcode = 16 ∧ Opcode.duration .extra b.opcode = 5 := by
  obtain ⟨kind, down, repeats⟩ := b
  obtain rfl : repeats = true := hrep
  revert down
  cases kind <;> decide +kernel

/-- Behind the two bytes of a block instruction. -/
def fetched (s : State) : State := fetch.state (fetch.state s)

theorem data_fetched (s : State) : (fetched s).data = s.data := rfl

theorem pc_fetched (s : State) : (fetched s).regs.pc = s.regs.pc + 2 :=
  UInt16.add_assoc s.regs.pc 1 1

theorem after_ops (b : Block) (s : State) :
    Op.after s b.instruction.ops = (block b).state (fetched s) := rfl

variable {b : Block} {s s' : State} {i : Nat}

theorem goesOn_fetched (h : s'.data = (b.handled s i).data) (hi : i < b.turns s) :
    ((blockOnce b).state (fetched s')).regs.goesOn b.kind = true ↔ i + 1 < b.turns s :=
  goesOn_of_data ((data_fetched s').trans h) hi

theorem takes_instruction (hrep : b.repeats = true) (h : s'.data = (b.handled s i).data)
    (hi : i < b.turns s) : b.instruction.takes s' = true ↔ i + 1 < b.turns s := by
  show (b.repeats && ((blockOnce b).state (fetched s')).regs.goesOn b.kind) = true ↔ _
  rw [hrep, Bool.true_and]
  exact goesOn_fetched h hi

theorem data_after_ops (h : s'.data = (b.handled s i).data) :
    (Op.after s' b.instruction.ops).data = (b.handled s (i + 1)).data := by
  rw [after_ops, data_block]
  exact data_blockOnce_handled s i ((data_fetched s').trans h)

/-- The program counter goes on behind the last turn. -/
theorem pc_after_ops (hrep : b.repeats = true) (h : s'.data = (b.handled s i).data)
    (hi : i < b.turns s) :
    (Op.after s' b.instruction.ops).regs.pc =
      if i + 1 < b.turns s then s'.regs.pc else s'.regs.pc + 2 := by
  have hgoes := goesOn_fetched h hi
  rw [after_ops, pc_block, hrep, Bool.true_and, pc_fetched]
  by_cases hmore : i + 1 < b.turns s
  · rw [if_pos (hgoes.mpr hmore), if_pos hmore]
    exact UInt16.add_sub_cancel _ _
  · rw [if_neg (hmore ∘ hgoes.mp), if_neg hmore]

/-- One turn more. -/
theorem documented_succ (hrep : b.repeats = true) (h : s'.data = (b.handled s i).data)
    (hi : i < b.turns s) :
    b.documented s (i + 1) = b.documented s i + b.instruction.documented s' := by
  obtain ⟨hlast, hextra⟩ := duration_opcode hrep
  have htakes := takes_instruction hrep h hi
  have hone : b.instruction.documented s' =
      16 + if b.instruction.takes s' = true then 5 else 0 := by
    rw [← hlast, ← hextra]
    rfl
  rw [hone, documented, documented, if_pos hi]
  by_cases hmore : i + 1 < b.turns s
  · rw [if_pos hmore, if_pos (htakes.mpr hmore)]
    omega
  · rw [if_neg hmore, if_neg (hmore ∘ htakes.mp)]
    omega

end Z80.Block

namespace Computer

/-- The computer `d` to which so many turns of a block instruction lead from `c`. -/
structure Executed (b : Block) (c : Computer) (turns : Nat) (d : Computer) : Prop where
  data : d.processor.data = (b.handled c.processor turns).data
  /-- The program counter goes on once, behind the last turn. -/
  pc : d.processor.regs.pc =
    if turns < b.turns c.processor then c.processor.regs.pc else c.processor.regs.pc + 2
  ula : d.timer.ula = c.timer.ula
  startable : d.timer.Startable
  elapsed_ge : c.timer.clock.elapsed + b.documented c.processor turns ≤ d.timer.clock.elapsed
  elapsed_eq : c.timer.ula.Undelayed ∨ c.timer.ula.variant = .none →
    d.timer.clock.elapsed = c.timer.clock.elapsed + b.documented c.processor turns

variable {b : Block} {c d : Computer} {i : Nat}

theorem executed_zero (b : Block) (hstart : c.timer.Startable) : Executed b c 0 c where
  data := rfl
  pc := (if_pos (b.turns_pos c.processor)).symm
  ula := rfl
  startable := hstart
  elapsed_ge := by
    rw [Block.documented, if_pos (b.turns_pos c.processor)]
    exact Nat.le_refl _
  elapsed_eq := fun _ => by
    rw [Block.documented, if_pos (b.turns_pos c.processor)]
    rfl

/-- An instruction that does not write over itself is where it was. -/
theorem Executed.holds (h : Executed b c i d) (hi : i < b.turns c.processor)
    (hheld : c.processor.memory.holds c.processor.regs.pc b.instruction.bytes)
    (hsafe : ∀ j < b.turns c.processor,
      b.target? c.processor.regs j ≠ some c.processor.regs.pc ∧
        b.target? c.processor.regs j ≠ some (c.processor.regs.pc + 1)) :
    d.processor.memory.holds d.processor.regs.pc b.instruction.bytes := by
  have hpc : d.processor.regs.pc = c.processor.regs.pc := h.pc.trans (if_pos hi)
  have hmemory : d.processor.memory = (b.handled c.processor i).memory :=
    congrArg (fun t => t.memory) h.data
  obtain ⟨hfirst, hsecond, -⟩ := hheld
  rw [hpc, hmemory]
  refine ⟨?_, ?_, trivial⟩
  · rw [← hfirst]
    exact Block.memory_handled_of_ne _ i fun j hj => (hsafe j (by omega)).1
  · rw [← hsecond]
    exact Block.memory_handled_of_ne _ i fun j hj => (hsafe j (by omega)).2

/-- **One turn.** -/
theorem Executed.step (hrep : b.repeats = true) (h : Executed b c i d)
    (hi : i < b.turns c.processor)
    (hheld : d.processor.memory.holds d.processor.regs.pc b.instruction.bytes) :
    ∃ next reports, d.run b.instruction.ops = .ok (next, reports) ∧ Executed b c (i + 1) next ∧
      (next.processor.regs.pc + 0 = d.processor.regs.pc ↔ i + 1 < b.turns c.processor) := by
  obtain ⟨next, reports, hrun, hula, hstart, hge, heq⟩ :=
    d.exists_run_timed h.startable b.instruction hheld
  rw [h.ula] at hula heq
  have hstate : next.processor = Op.after d.processor b.instruction.ops := (run_eq_results hrun).1
  have hpc := Block.pc_after_ops hrep h.data hi
  have hsum := Block.documented_succ hrep h.data hi
  rw [← hstate] at hpc
  refine ⟨next, reports, hrun, ⟨?_, ?_, hula, hstart, ?_, fun hexact => ?_⟩, ?_⟩
  · rw [hstate]
    exact Block.data_after_ops h.data
  · rw [hpc, h.pc, if_pos hi]
  · have hbefore := h.elapsed_ge
    omega
  · rw [heq hexact, h.elapsed_eq hexact, hsum, Nat.add_assoc]
  · rw [UInt16.add_zero, hpc]
    split
    · rename_i hmore
      exact iff_of_true rfl hmore
    · rename_i hlast
      exact iff_of_false (word_add_two_ne _) hlast

/--
**A block instruction runs to its end.** Let memory hold any of the eight that repeat at PC, and let
none of the bytes it writes go where its own two bytes are. On any machine, whatever it has done
before (`Timer.startable_run`) and whatever the registers, the memory, the ports and the clock, an
executor that runs what it finds there, again and again until the program counter goes on, does not
meet a fault. It executes the instruction once for each byte: as many times as BC or B says, or up to
and with the first match. In the end the program counter stands behind the instruction, and the bytes
have been handled one after the other.

The T-states that pass are at least 21 for each execution but the last one, and 16 for that one.
Without delays or without contention they are no more.
-/
theorem runs_block_to_end (c : Computer) (b : Block) (hrep : b.repeats = true)
    (hstart : c.timer.Startable)
    (hheld : c.processor.memory.holds c.processor.regs.pc [0xED, b.opcode])
    (hsafe : ∀ j < b.turns c.processor,
      b.target? c.processor.regs j ≠ some c.processor.regs.pc ∧
        b.target? c.processor.regs j ≠ some (c.processor.regs.pc + 1)) :
    let n := b.turns c.processor
    ∃ rounds last reports,
      c.Repeats [.begin, .fetch, .fetch, .spend .extended b.opcode, .block b, .finish] 0 rounds ∧
      rounds.length = n ∧ rounds.getLast? = some (last, reports) ∧
      last.processor.regs.pc = c.processor.regs.pc + 2 ∧
      last.processor.data = (b.handled c.processor n).data ∧
      c.timer.clock.elapsed + (21 * (n - 1) + 16) ≤ last.timer.clock.elapsed ∧
      (c.timer.ula.Undelayed ∨ c.timer.ula.variant = .none →
        last.timer.clock.elapsed = c.timer.clock.elapsed + (21 * (n - 1) + 16)) := by
  intro n
  obtain ⟨rounds, last, reports, hrounds, hlen, hlast, hend, -⟩ := exists_repeats
    b.instruction.ops 0 (b.turns_pos c.processor) (Executed b c) (fun _ _ => True)
    (fun i hi d hd => by
      obtain ⟨next, reports, hrun, hnext, hback⟩ := hd.step hrep hi (hd.holds hi hheld hsafe)
      exact ⟨next, reports, hrun, hnext, trivial, hback⟩)
    (executed_zero b hstart)
  have hdocumented : b.documented c.processor n = 21 * (n - 1) + 16 := if_neg (Nat.lt_irrefl n)
  exact ⟨rounds, last, reports, hrounds, hlen, hlast, hend.pc.trans (if_neg (Nat.lt_irrefl n)),
    hend.data, hdocumented ▸ hend.elapsed_ge, hdocumented ▸ hend.elapsed_eq⟩

/-- `LDIR` of three bytes from the top of memory on, in contended memory on a machine without
delays. -/
theorem runs_block_to_end_ldir :
    let c : Computer :=
      { processor :=
          { regs := { bc := 3, hl := 0xFFFF, de := 0x4002, pc := 0x4000 }
            memory := Memory.load (fun _ => 0) 0x4000 [0xED, 0xB0] }
        timer := { ula := .undelayed48k, clock := { counter := 14335 } } }
    ∃ rounds last reports,
      c.Repeats [.begin, .fetch, .fetch, .spend .extended 0xB0, .block ⟨.transfer, false, true⟩,
        .finish] 0 rounds ∧
      rounds.length = 3 ∧ rounds.getLast? = some (last, reports) ∧
      last.processor.regs.pc = 0x4002 ∧ last.timer.clock.elapsed = 58 := by
  intro c
  obtain ⟨rounds, last, reports, hrounds, hlen, hlast, hpc, -, -, helapsed⟩ :=
    runs_block_to_end c ⟨.transfer, false, true⟩ rfl (.inl rfl) ⟨by decide, by decide, trivial⟩
      (by decide)
  exact ⟨rounds, last, reports, hrounds, hlen, hlast, hpc, helapsed (.inl rfl)⟩

end Computer

end SpectrumTiming
