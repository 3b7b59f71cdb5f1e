import SpectrumTiming.Computer
import SpectrumTiming.Proofs.Delays
import SpectrumTiming.Proofs.Reconciliation

/-!
# Instructions of the processor

The jumps, calls, returns, stack and block instructions, run as an executor runs them: it fetches
the bytes that memory holds at PC, reports the documented T-states, and has the processor do the
rest. What the processor then reads and writes, and whether it reports a taken branch, is up to its
registers and to what it finds in memory.

Whatever that is, it makes the accesses that the script of the instruction expects
(`Helper.seen`), so that no instruction faults, and the time that passes is the documented one
and the delays (`Computer.run_instruction`).
-/

namespace SpectrumTiming

open Capture Standard

/-! ## What the timer is asked for -/

namespace Timer

/-- Events aside, to play actions is to do what they ask for. -/
theorem map_play (xs : List Z80.Action) (t : Timer) :
    (t.play xs).map Prod.fst = t.run (xs.map Z80.Action.op) := by
  induction xs generalizing t with
  | nil => rfl
  | cons x xs ih =>
    rw [List.map_cons, run_cons, play]
    cases t.step x.op with
    | error f => rfl
    | ok after =>
      have hrest := ih after
      cases hplay : after.play xs with
      | error f =>
        rw [hplay] at hrest
        simp only [hplay]
        exact hrest
      | ok played =>
        rw [hplay] at hrest
        simp only [hplay]
        exact hrest

end Timer

namespace Z80.Op

/-- What others see of operations that follow each other. -/
def seen (s : State) : List Op → List Action
  | [] => []
  | op :: ops => op.work.actions s ++ seen (op.work.state s) ops

/-- The state that operations lead to. -/
def after (s : State) (ops : List Op) : State := ops.foldl (fun s op => op.work.state s) s

theorem seen_append (s : State) (xs ys : List Op) :
    seen s (xs ++ ys) = seen s xs ++ seen (after s xs) ys := by
  induction xs generalizing s with
  | nil => rfl
  | cons x xs ih =>
    rw [List.cons_append, seen, seen, ih, List.append_assoc]
    rfl

end Z80.Op

namespace Computer

theorem step_eq (c : Computer) (op : Z80.Op) :
    c.step op = (c.timer.play (op.work.actions c.processor)).map fun played =>
      ({ processor := op.work.state c.processor, timer := played.1 },
        { value? := op.work.value c.processor, events := played.2 }) := by
  have hwork : op.work c.processor = (op.work.value c.processor, op.work.state c.processor,
      op.work.actions c.processor) := rfl
  rw [step, hwork]
  cases hplay : c.timer.play (op.work.actions c.processor) with
  | error f => simp only [hplay, Except.map]
  | ok played => simp only [hplay, Except.map]

/-- The timer goes through what others see of the processor. -/
theorem map_run (ops : List Z80.Op) (c : Computer) :
    (c.run ops).map (·.1.timer) =
      c.timer.run ((Z80.Op.seen c.processor ops).map Z80.Action.op) := by
  induction ops generalizing c with
  | nil => rfl
  | cons op ops ih =>
    rw [Z80.Op.seen, List.map_append, Timer.run_append, ← Timer.map_play, run, step_eq]
    cases c.timer.play (op.work.actions c.processor) with
    | error f => rfl
    | ok played =>
      have hrest := ih { processor := op.work.state c.processor, timer := played.1 }
      cases hrun : run { processor := op.work.state c.processor, timer := played.1 } ops with
      | error f =>
        rw [hrun] at hrest
        simp only [Except.map, hrun]
        exact hrest
      | ok last =>
        rw [hrun] at hrest
        simp only [Except.map, hrun]
        exact hrest

/-- If the timer goes through it without a fault, then so does the computer. -/
theorem exists_run_of_timer {c : Computer} {ops : List Z80.Op} {timer : Timer}
    (h : c.timer.run ((Z80.Op.seen c.processor ops).map Z80.Action.op) = .ok timer) :
    ∃ after reports, c.run ops = .ok (after, reports) ∧ after.timer = timer := by
  rw [← map_run] at h
  obtain ⟨⟨after, reports⟩, hok, htimer⟩ := exists_of_map_eq_ok h
  exact ⟨after, reports, hok, htimer⟩

end Computer

namespace Z80

/-! ## What the processor does -/

/-- Memory holds these bytes from an address on, round its top. -/
def Memory.holds (m : Memory) (addr : UInt16) : List UInt8 → Prop
  | [] => True
  | b :: bs => m addr = b ∧ m.holds (addr + 1) bs

/-- What is left to do of an instruction once its bytes have been fetched. -/
inductive Helper
  | jumpRelative
  | jumpRelativeIf (condition : Bool)
  | call
  | callIf (condition : Bool)
  | ret
  | retIf (condition : Bool)
  | push (value : UInt16)
  | pop
  | block (b : Block)

namespace Helper

/-- The opcodes that leave it to do. A block instruction is behind `ED`. -/
def opcodes : Helper → List UInt8
  | .jumpRelative => [0x18]
  | .jumpRelativeIf _ => [0x10, 0x20, 0x28, 0x30, 0x38]
  | .call => [0xCD]
  | .callIf _ => [0xC4, 0xCC, 0xD4, 0xDC, 0xE4, 0xEC, 0xF4, 0xFC]
  | .ret => [0xC9]
  | .retIf _ => [0xC0, 0xC8, 0xD0, 0xD8, 0xE0, 0xE8, 0xF0, 0xF8]
  | .push _ =>
    [0xC5, 0xD5, 0xE5, 0xF5, 0xC7, 0xCF, 0xD7, 0xDF, 0xE7, 0xEF, 0xF7, 0xFF]
  | .pop => [0xC1, 0xD1, 0xE1, 0xF1]
  | .block b => [b.opcode]

def extended : Helper → Bool
  | .block _ => true
  | _ => false

/-- Has the processor do it, for the opcode that was fetched. -/
def op (h : Helper) (opcode : UInt8) : Op :=
  match h with
  | .jumpRelative => .jumpRelative
  | .jumpRelativeIf condition => .jumpRelativeIf condition opcode
  | .call => .call
  | .callIf condition => .callIf condition opcode
  | .ret => .ret
  | .retIf condition => .retIf condition opcode
  | .push value => .push value
  | .pop => .pop
  | .block b => .block b

/-- Whether a branch is taken or a block instruction goes on. -/
def takes (h : Helper) (s : State) : Bool :=
  match h with
  | .jumpRelativeIf condition | .callIf condition | .retIf condition => condition
  | .block b => b.repeats && ((blockOnce b).state s).regs.goesOn b.kind
  | .jumpRelative | .call | .ret | .push _ | .pop => false

/-- How many accesses it makes. -/
def accesses (h : Helper) (taken : Bool) : Nat :=
  match h with
  | .jumpRelative | .jumpRelativeIf _ => 1
  | .call => 4
  | .callIf _ => if taken then 4 else 2
  | .ret | .push _ | .pop => 2
  | .retIf _ => if taken then 2 else 0
  | .block b => if b.kind = .compare then 1 else 2

theorem leads_opcodes {h : Helper} (hplain : ¬ h.extended = true) :
    ∀ opcode ∈ h.opcodes, Opcode.leads opcode = false := by
  cases h with
  | block b => exact absurd rfl hplain
  | _ =>
    simp only [opcodes]
    decide +kernel

end Helper

/-- An instruction that has a helper. -/
structure Instruction where
  helper : Helper
  opcode : UInt8
  listed : opcode ∈ helper.opcodes

namespace Instruction

def encoding (i : Instruction) : Encoding :=
  if h : i.helper.extended then .extended [] i.opcode
  else .primary i.opcode (Helper.leads_opcodes h i.opcode i.listed)

def bytes (i : Instruction) : List UInt8 := i.encoding.bytes

def table (i : Instruction) : Opcode.Table := if i.helper.extended then .extended else .primary

/-- The instruction, as an executor runs it. -/
def ops (i : Instruction) : List Op :=
  .begin :: i.bytes.map (fun _ => .fetch) ++
    [.spend i.table i.opcode, i.helper.op i.opcode, .finish]

/-- Whether the optional path is confirmed, if the instruction begins in this state. -/
def takes (i : Instruction) (s : State) : Bool :=
  i.helper.takes (Op.after s (i.bytes.map fun _ => .fetch))

/-- The T-states the manuals give for it, in this state. -/
def documented (i : Instruction) (s : State) : Nat :=
  Opcode.duration i.table i.opcode +
    if i.takes s then Opcode.duration .extra i.opcode else 0

end Instruction

/-! ## The accesses a script expects -/

/-- A block instruction makes its accesses and then says whether it goes on. -/
theorem block_actions (b : Block) (s : State) :
    (block b).actions s = (blockOnce b).actions s ++
      if b.repeats && ((blockOnce b).state s).regs.goesOn b.kind then
        [.report (.elapse .documented (Opcode.duration .extra b.opcode)), .report .confirm]
      else [] := by
  have hbind : (block b).actions s = (blockOnce b).actions s ++ ([] ++
      Work.actions (if b.repeats && ((blockOnce b).state s).regs.goesOn b.kind then do
          take b.opcode
          update (·.rewind b.kind)
        else pure ()) ((blockOnce b).state s)) := rfl
  rw [hbind]
  split <;> rfl

theorem blockOnce_actions (b : Block) (s : State) :
    ∃ accesses : List Access, accesses.length = (if b.kind = .compare then 1 else 2) ∧
      ((blockOnce b).actions s).map Action.op = accesses.map .record := by
  obtain ⟨kind, down, repeats⟩ := b
  cases kind with
  | transfer => exact ⟨[_, _], rfl, rfl⟩
  | compare => exact ⟨[_], rfl, rfl⟩
  | input => exact ⟨[_, _], rfl, rfl⟩
  | output => exact ⟨[_, _], rfl, rfl⟩

/-- **Whatever it finds, a helper makes as many accesses as it should**, and confirms the optional
path if it takes it. -/
theorem Helper.seen (h : Helper) {opcode : UInt8} (hop : opcode ∈ h.opcodes) (s : State) :
    ∃ first second : List Access, first.length + second.length = h.accesses (h.takes s) ∧
      ((h.op opcode).work.actions s).map Action.op =
        first.map .record ++
          (if h.takes s then
            [.elapse .documented (Opcode.duration .extra opcode), .confirm] else []) ++
          second.map .record := by
  cases h with
  | jumpRelative => exact ⟨[], [_], rfl, rfl⟩
  | jumpRelativeIf condition => cases condition <;> exact ⟨[], [_], rfl, rfl⟩
  | call => exact ⟨[], [_, _, _, _], rfl, rfl⟩
  | callIf condition =>
    cases condition with
    | false => exact ⟨[], [_, _], rfl, rfl⟩
    | true => exact ⟨[], [_, _, _, _], rfl, rfl⟩
  | ret => exact ⟨[], [_, _], rfl, rfl⟩
  | retIf condition =>
    cases condition with
    | false => exact ⟨[], [], rfl, rfl⟩
    | true => exact ⟨[], [_, _], rfl, rfl⟩
  | push value => exact ⟨[], [_, _], rfl, rfl⟩
  | pop => exact ⟨[], [_, _], rfl, rfl⟩
  | block b =>
    obtain rfl : opcode = b.opcode := List.mem_singleton.mp hop
    obtain ⟨first, hcount, hfirst⟩ := blockOnce_actions b s
    refine ⟨first, [], hcount, ?_⟩
    have hwork : ((Helper.block b).op b.opcode).work.actions s =
        (Z80.block b).actions s ++ [] := rfl
    rw [hwork, List.append_nil, List.map_nil, List.append_nil, block_actions, List.map_append,
      hfirst]
    congr 1
    show _ = if b.repeats && ((blockOnce b).state s).regs.goesOn b.kind then _ else _
    split <;> rfl

namespace Instruction

/-- The bytes are fetched from where they are held. -/
theorem seen_fetch {bytes : List UInt8} {s : State} (h : s.memory.holds s.regs.pc bytes) :
    ∃ code : List Access, code.map Access.value = bytes ∧
      (Op.seen s (bytes.map fun _ => .fetch)).map Action.op = code.map .record := by
  induction bytes generalizing s with
  | nil => exact ⟨[], rfl, rfl⟩
  | cons b bytes ih =>
    obtain ⟨hb, hrest⟩ := h
    obtain ⟨code, hcode, hseen⟩ := ih (s := (Op.work .fetch).state s) hrest
    refine ⟨⟨s.regs.pc, s.memory s.regs.pc, .memoryRead, "rop"⟩ :: code, ?_, ?_⟩
    · rw [List.map_cons, hcode, hb]
    · rw [List.map_cons, Op.seen, List.map_append, hseen]
      rfl

theorem encoding_opcode (i : Instruction) : i.encoding.opcode = i.opcode := by
  unfold encoding
  split <;> rfl

/-- The time is reported behind the last byte. -/
theorem fetches_encoding (i : Instruction) {code : List Access}
    (hcode : code.map Access.value = i.encoding.bytes) :
    (code.zip i.encoding.reports).flatMap (fun f =>
        .record f.1 :: f.2.toList.map (Timer.Op.elapse .documented)) =
      code.map .record ++ [.elapse .documented (Opcode.duration i.table i.opcode)] := by
  unfold encoding at hcode ⊢
  unfold table
  split at hcode
  · rename_i hext
    obtain ⟨a, rest, rfl, _, hrest⟩ := List.map_eq_cons_iff.mp hcode
    obtain ⟨b, rest, rfl, _, hrest⟩ := List.map_eq_cons_iff.mp hrest
    obtain rfl := List.map_eq_nil_iff.mp hrest
    rw [dif_pos hext, if_pos hext]
    rfl
  · rename_i hext
    obtain ⟨a, rest, rfl, _, hrest⟩ := List.map_eq_cons_iff.mp hcode
    obtain rfl := List.map_eq_nil_iff.mp hrest
    rw [dif_neg hext, if_neg hext]
    rfl

/-- **What an executor reports of an instruction** is what the manuals document and the accesses
that are left to the processor. -/
theorem seen_ops (i : Instruction) {s : State} (h : s.memory.holds s.regs.pc i.bytes) :
    ∃ code first second : List Access, code.map Access.value = i.encoding.bytes ∧
      first.length + second.length = i.helper.accesses (i.takes s) ∧
      (Op.seen s i.ops).map Action.op = .begin s.regs.bc s.regs.ir ::
        i.encoding.drive (i.takes s) code first second ++ [.finish] := by
  let fetched := Op.after s (i.bytes.map fun _ => .fetch)
  obtain ⟨code, hcode, hfetch⟩ := seen_fetch h
  obtain ⟨first, second, hcount, hhelper⟩ := i.helper.seen i.listed fetched
  refine ⟨code, first, second, hcode, hcount, ?_⟩
  have hrest : (Op.seen fetched [.spend i.table i.opcode, i.helper.op i.opcode, .finish]).map
      Action.op = .elapse .documented (Opcode.duration i.table i.opcode) ::
        ((i.helper.op i.opcode).work.actions fetched).map Action.op ++ [.finish] := by
    rw [Op.seen, Op.seen, Op.seen, Op.seen, List.map_append, List.map_append]
    rfl
  have hops : Op.seen s i.ops = .report (.begin s.regs.bc s.regs.ir) ::
      (Op.seen s (i.bytes.map fun _ => .fetch) ++
        Op.seen fetched [.spend i.table i.opcode, i.helper.op i.opcode, .finish]) := by
    rw [← Op.seen_append]
    rfl
  rw [hops, List.map_cons, List.map_append, hfetch, hrest, hhelper]
  unfold Encoding.drive
  rw [fetches_encoding i hcode, encoding_opcode]
  simp only [List.append_assoc, List.cons_append, List.nil_append]
  rfl

end Instruction

/-! ## What the tables say -/

namespace Helper

/-- Whether it may take the optional path. -/
def conditional : Helper → Bool
  | .jumpRelativeIf _ | .callIf _ | .retIf _ => true
  | .block b => b.repeats
  | .jumpRelative | .call | .ret | .push _ | .pop => false

theorem conditional_of_takes {h : Helper} {s : State} (ht : h.takes s = true) :
    h.conditional = true := by
  cases h with
  | block b => exact (Bool.and_eq_true_iff.mp ht).1
  | jumpRelativeIf condition => rfl
  | callIf condition => rfl
  | retIf condition => rfl
  | _ => exact absurd ht Bool.false_ne_true

/-- No byte collapses, a script needs the bytes and the accesses of the helper, and the opcode may
branch or repeat if the helper may. -/
def Suits (h : Helper) (bytes : List UInt8) (forced conditional : Bool) : Prop :=
  (∀ v ∈ [Variant.sinclair, .amstrad], ∀ taken,
    (Opcode.scriptOf? bytes).map (fun (id, collapsed) =>
      (collapsed, (script v id).slotsOn (taken || forced))) =
        some (0, bytes.length + h.accesses taken)) ∧
  (h.conditional = true → conditional = true)

theorem suits_primary {h : Helper} (hplain : ¬ h.extended = true) :
    ∀ opcode ∈ h.opcodes,
      h.Suits [opcode] (Opcode.alwaysTaken opcode) (Opcode.branches opcode) := by
  cases h with
  | block b => exact absurd rfl hplain
  | _ =>
    simp only [opcodes, Suits, accesses, conditional]
    decide +kernel

theorem suits_block (b : Block) :
    (Helper.block b).Suits [0xED, b.opcode] false (Opcode.repeats b.opcode) := by
  obtain ⟨kind, down, repeats⟩ := b
  unfold Suits
  revert down repeats
  cases kind <;> decide +kernel

end Helper

namespace Instruction

theorem suits (i : Instruction) :
    i.helper.Suits i.encoding.bytes i.encoding.forced i.encoding.conditional := by
  unfold encoding
  split
  · rename_i hext
    obtain ⟨helper, opcode, listed⟩ := i
    cases helper with
    | block b =>
      obtain rfl : opcode = b.opcode := List.mem_singleton.mp listed
      exact Helper.suits_block b
    | _ => exact absurd hext Bool.false_ne_true
  · rename_i hext
    exact Helper.suits_primary hext i.opcode i.listed

theorem documented_eq (i : Instruction) (s : State) :
    i.encoding.documented + i.encoding.extra (i.takes s) = i.documented s := by
  have hdocumented : i.encoding.documented = Opcode.duration i.table i.opcode := by
    unfold encoding table
    split
    · rw [← Nat.zero_add (Opcode.duration .extended i.opcode)]
      rfl
    · rfl
  unfold documented Encoding.extra
  rw [hdocumented, encoding_opcode]

end Instruction

end Z80

namespace Computer

/-- On a machine with contention an instruction charges every access and pays for the path of its
script, which is as long as documented. -/
theorem exists_run_ops (c : Computer) (hv : c.timer.ula.variant.contends = true)
    (i : Z80.Instruction) (hheld : c.processor.memory.holds c.processor.regs.pc i.bytes) :
    ∃ id after reports costs, Opcode.scriptOf? i.bytes = some (id, 0) ∧
      c.run i.ops = .ok (after, reports) ∧
      (∀ a ∈ after.timer.capture.log, a.marks.charged = true) ∧
      costs = ((script c.timer.ula.variant id).path
        (i.takes c.processor || i.encoding.forced)).flatMap after.timer.capture.costs ∧
      Cost.total costs = i.documented c.processor ∧
      after.timer.clock = c.timer.clock.payAll c.timer.ula costs := by
  obtain ⟨code, first, second, hcode, hcount, hseen⟩ := i.seen_ops hheld
  obtain ⟨hscript, hconditional⟩ := i.suits
  obtain ⟨front, core, id, h⟩ := i.encoding.exists_splits
  have htaken : i.takes c.processor = true → i.encoding.conditional = true :=
    fun ht => hconditional (Z80.Helper.conditional_of_takes ht)
  have hchip : c.timer.ula.variant ∈ [Variant.sinclair, .amstrad] := by
    revert hv
    cases c.timer.ula.variant <;> decide
  obtain ⟨hfront, hslots⟩ : front.length = 0 ∧
      (script c.timer.ula.variant id).slotsOn (i.takes c.processor || i.encoding.forced) =
        i.encoding.bytes.length + i.helper.accesses (i.takes c.processor) := by
    have hsome := hscript _ hchip (i.takes c.processor)
    rw [h.scriptOf?] at hsome
    exact Prod.mk.inj (Option.some.inj hsome)
  have hbytes : code.length = i.encoding.bytes.length := by
    rw [← hcode, List.length_map]
  have hlen : code.length + (first ++ second).length = front.length +
      (script c.timer.ula.variant id).slotsOn (i.takes c.processor || i.encoding.forced) := by
    rw [hslots, List.length_append, hcount, hfront, hbytes, Nat.zero_add]
  obtain ⟨timer, costs, hrun, hcharged, _, _, hcosts, htotal, hclock, _⟩ :=
    Timer.run_complete hv c.processor.regs.bc c.processor.regs.ir h htaken
      Encoding.informs_of_mem_drive hcode
      (Encoding.ofOps_drive i.encoding _ first second (Encoding.length_reports hcode)) hlen
  rw [← hseen] at hrun
  obtain ⟨after, reports, hok, rfl⟩ := exists_run_of_timer hrun
  refine ⟨id, after, reports, costs, hfront ▸ h.scriptOf?, hok, hcharged, ?_,
    htotal.trans (i.documented_eq c.processor), hclock⟩
  rw [hcosts, hfront]
  rfl

/--
**An executor makes the accesses that the scripts expect.** Take any computer with contention,
whatever its registers, its memory, its ports and its clock, and any jump, call, return, stack or
block instruction that memory holds at PC. To run the instruction ends without a fault, whether the
branch is taken or not and the block instruction goes on or not. Every access has been charged. The
clock has paid for the path of the script at the addresses in the log, so the time that has passed
is the documented T-states and the delays; without delays it is the documented T-states.
-/
theorem run_instruction (c : Computer) (hv : c.timer.ula.variant.contends = true)
    (i : Z80.Instruction) (hheld : c.processor.memory.holds c.processor.regs.pc i.bytes) :
    ∃ id after reports costs, Opcode.scriptOf? i.bytes = some (id, 0) ∧
      c.run i.ops = .ok (after, reports) ∧
      (∀ a ∈ after.timer.capture.log, a.marks.charged = true) ∧
      costs = ((script c.timer.ula.variant id).path
        (i.takes c.processor || i.encoding.forced)).flatMap after.timer.capture.costs ∧
      after.timer.clock = c.timer.clock.payAll c.timer.ula costs ∧
      after.timer.clock.elapsed = c.timer.clock.elapsed +
        (i.documented c.processor + c.timer.clock.waits c.timer.ula costs) ∧
      (c.timer.ula.Undelayed →
        after.timer.clock.elapsed = c.timer.clock.elapsed + i.documented c.processor) := by
  obtain ⟨id, after, reports, costs, hscript, hrun, hcharged, hcosts, htotal, hclock⟩ :=
    c.exists_run_ops hv i hheld
  have helapsed : after.timer.clock.elapsed = c.timer.clock.elapsed +
      (i.documented c.processor + c.timer.clock.waits c.timer.ula costs) := by
    rw [hclock, Clock.elapsed_payAll, htotal]
  refine ⟨id, after, reports, costs, hscript, hrun, hcharged, hcosts, hclock, helapsed, ?_⟩
  intro hundelayed
  rw [helapsed, Clock.waits_of_undelayed hundelayed, Nat.add_zero]

/-- `LDIR` that goes on, in contended memory and over itself, on a machine without delays. -/
theorem run_instruction_ldir :
    ∃ after reports,
      run
        { processor :=
            { regs := { bc := 2, hl := 0xFFFF, de := 0x4000, pc := 0x4000 }
              memory := Z80.Memory.load (fun _ => 0) 0x4000 [0xED, 0xB0] }
          timer := { ula := .undelayed48k } }
        [.begin, .fetch, .fetch, .spend .extended 0xB0, .block ⟨.transfer, false, true⟩, .finish] =
          .ok (after, reports) ∧
      (∀ a ∈ after.timer.capture.log, a.marks.charged = true) ∧
      after.timer.clock.elapsed = 21 := by
  obtain ⟨_, after, reports, _, _, hrun, hcharged, _, _, _, helapsed⟩ := run_instruction
    { processor :=
        { regs := { bc := 2, hl := 0xFFFF, de := 0x4000, pc := 0x4000 }
          memory := Z80.Memory.load (fun _ => 0) 0x4000 [0xED, 0xB0] }
      timer := { ula := .undelayed48k } } rfl
    ⟨.block ⟨.transfer, false, true⟩, 0xB0, by decide⟩ ⟨by decide, by decide, trivial⟩
  exact ⟨after, reports, hrun, hcharged, (helapsed rfl).trans (by decide +kernel)⟩

end Computer

end SpectrumTiming
