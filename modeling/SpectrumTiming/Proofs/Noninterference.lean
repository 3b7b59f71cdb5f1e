import SpectrumTiming.Proofs.Hooks

/-!
# Timing never changes results

A program sees its registers, its memory, what operations give back and the bytes that move over the
bus. It cannot see the time: whatever timer its processor is joined to, with whatever machine, bank,
clock, display or half captured instruction, all of this comes out the same as long as the timer does
not fault (`run_timeless`).

A hook could see the time, since it has the timer in hand. That none does is a property of each hook
(`Timeless`), which compares two computers with the same processor and any two timers. It holds of
what hooks do on the processor's side and of what they tell the timer, it does not hold of looking at
the timer (`not_timeless_timer`), and what is put together from timeless hooks is timeless.
-/

namespace SpectrumTiming

namespace Hook

open Z80 (Block Registers)

variable {α β : Type}

/-- With the same processor, a timeless hook comes to the same on any two timers: the same value, the
same processor after it and the same bytes on the bus, in the same order. -/
def Timeless (h : Hook α) : Prop :=
  ∀ ⦃s : Z80.State⦄ ⦃t t' : Timer⦄ ⦃a a' : α⦄ ⦃c c' : Computer⦄ ⦃events events' : List Event⦄,
    h { processor := s, timer := t } = .ok (a, c, events) →
    h { processor := s, timer := t' } = .ok (a', c', events') →
      a' = a ∧ c'.processor = c.processor ∧
        events'.filter Event.isBus = events.filter Event.isBus

theorem timeless_pure (a : α) : (pure a : Hook α).Timeless := by
  intro s t t' b b' c c' events events' h h'
  cases h
  cases h'
  exact ⟨rfl, rfl, rfl⟩

/-- **What is put together from timeless hooks is timeless.** The timers may have parted ways after
the first of the two, but the processors have not. -/
theorem Timeless.bind {h : Hook α} (hh : h.Timeless) {next : α → Hook β}
    (hnext : ∀ a, (next a).Timeless) : (h >>= next).Timeless := by
  intro s t t' b b' c c' events events' hran hran'
  obtain ⟨a, ⟨s₁, t₁⟩, first, rest, hfirst, hrest, rfl⟩ := bind_eq_ok.mp hran
  obtain ⟨a', ⟨s₁', t₁'⟩, first', rest', hfirst', hrest', rfl⟩ := bind_eq_ok.mp hran'
  obtain ⟨rfl, hprocessor, hbus⟩ := hh hfirst hfirst'
  obtain rfl : s₁' = s₁ := hprocessor
  obtain ⟨rfl, hlast, hbus'⟩ := hnext a' hrest hrest'
  exact ⟨rfl, hlast, by rw [List.filter_append, List.filter_append, hbus, hbus']⟩

/-! ## What hooks do -/

/-- What is done on the side of the processor. -/
theorem timeless_of_processor {h : Hook α} (value : Z80.State → α) (state : Z80.State → Z80.State)
    (bus : Z80.State → List Event)
    (hh : ∀ c, h c = .ok (value c.processor, { c with processor := state c.processor },
      bus c.processor)) : h.Timeless := by
  intro s t t' a a' c c' events events' hran hran'
  cases (hh _).symm.trans hran
  cases (hh _).symm.trans hran'
  exact ⟨rfl, rfl, rfl⟩

theorem timeless_registers : registers.Timeless :=
  timeless_of_processor (·.regs) id (fun _ => []) fun _ => rfl

theorem timeless_setRegisters (regs : Registers) : (setRegisters regs).Timeless :=
  timeless_of_processor (fun _ => ()) ({ · with regs }) (fun _ => []) fun _ => rfl

theorem timeless_readMemory (addr : UInt16) : (readMemory addr).Timeless :=
  timeless_of_processor (·.memory addr) id (fun s => [.bus .read addr (s.memory addr)])
    fun _ => rfl

theorem timeless_writeMemory (addr : UInt16) (value : UInt8) :
    (writeMemory addr value).Timeless :=
  timeless_of_processor (fun _ => ()) (fun s => { s with memory := s.memory.write addr value })
    (fun _ => [.bus .write addr value]) fun _ => rfl

theorem timeless_readPort (port : UInt16) : (readPort port).Timeless :=
  timeless_of_processor (·.ports port) id (fun s => [.bus .input port (s.ports port)])
    fun _ => rfl

theorem timeless_writePort (port : UInt16) (value : UInt8) : (writePort port value).Timeless :=
  timeless_of_processor (fun _ => ()) id (fun _ => [.bus .output port value]) fun _ => rfl

/-- The timer answers nothing, and all that may show of what it is told is a notice. -/
theorem timeless_tell (op : Timer.Op) : (tell op).Timeless := by
  have hnotice (n : Option Nat) : (n.map Event.display).toList.filter Event.isBus = [] := by
    cases n <;> rfl
  intro s t t' a a' c c' events events' hran hran'
  obtain ⟨after, -, hafter⟩ := exists_of_map_eq_ok hran
  obtain ⟨after', -, hafter'⟩ := exists_of_map_eq_ok hran'
  cases hafter
  cases hafter'
  exact ⟨rfl, rfl, (hnotice _).trans (hnotice _).symm⟩

/-- A hook that looks at the clock is not timeless. -/
theorem not_timeless_timer : ¬ (do return (← timer).clock.counter : Hook Nat).Timeless := by
  intro h
  let zero : Timer := { ula := .spectrum48k }
  let one : Timer := { ula := .spectrum48k, clock := { counter := 1 } }
  have hsame := (@h {} zero one 0 1 { processor := {}, timer := zero }
    { processor := {}, timer := one } [] [] rfl rfl).1
  exact absurd hsame (by decide)

theorem timeless_update (f : Registers → Registers) : (update f).Timeless :=
  timeless_registers.bind fun _ => timeless_setRegisters _

/-! ## Accesses -/

theorem timeless_readFor (tag : String) (addr : UInt16) : (readFor tag addr).Timeless :=
  (timeless_readMemory addr).bind fun _ => (timeless_tell _).bind fun _ => timeless_pure _

theorem timeless_read (addr : UInt16) : (read addr).Timeless := timeless_readFor "rm" addr

theorem timeless_write (addr : UInt16) (value : UInt8) : (write addr value).Timeless :=
  (timeless_tell _).bind fun _ => timeless_writeMemory addr value

theorem timeless_input (port : UInt16) : (input port).Timeless :=
  (timeless_tell _).bind fun _ => timeless_readPort port

theorem timeless_output (port : UInt16) (value : UInt8) : (output port value).Timeless :=
  (timeless_tell _).bind fun _ => timeless_writePort port value

/-! ## Opcodes, operands and branches -/

theorem timeless_begin : begin.Timeless := timeless_registers.bind fun _ => timeless_tell _

theorem timeless_spend (table : Opcode.Table) (op : UInt8) : (spend table op).Timeless :=
  timeless_tell _

theorem timeless_fetch : fetch.Timeless :=
  timeless_registers.bind fun _ => (timeless_update _).bind fun _ =>
    (timeless_update _).bind fun _ => timeless_readFor ..

theorem timeless_operand : operand.Timeless :=
  timeless_registers.bind fun _ => (timeless_update _).bind fun _ => timeless_readFor ..

theorem timeless_operandWord : operandWord.Timeless :=
  timeless_registers.bind fun _ => (timeless_update _).bind fun _ =>
    (timeless_readFor ..).bind fun _ => (timeless_readFor ..).bind fun _ => timeless_pure _

theorem timeless_push (value : UInt16) : (push value).Timeless :=
  (timeless_update _).bind fun _ => timeless_registers.bind fun _ =>
    (timeless_write ..).bind fun _ => (timeless_update _).bind fun _ =>
      timeless_registers.bind fun _ => timeless_write ..

theorem timeless_pop : pop.Timeless :=
  timeless_registers.bind fun _ => (timeless_read _).bind fun _ =>
    (timeless_update _).bind fun _ => timeless_registers.bind fun _ =>
      (timeless_read _).bind fun _ => (timeless_update _).bind fun _ => timeless_pure _

theorem timeless_take (op : UInt8) : (take op).Timeless :=
  (timeless_spend ..).bind fun _ => timeless_tell _

theorem timeless_jumpRelative : jumpRelative.Timeless :=
  timeless_operand.bind fun _ => (timeless_update _).bind fun _ => timeless_update _

theorem timeless_jumpRelativeIf (condition : Bool) (op : UInt8) :
    (jumpRelativeIf condition op).Timeless := by
  cases condition with
  | false => exact timeless_operand.bind fun _ => timeless_pure _
  | true => exact (timeless_take op).bind fun _ => timeless_jumpRelative

theorem timeless_call : call.Timeless :=
  timeless_operandWord.bind fun _ => (timeless_update _).bind fun _ =>
    timeless_registers.bind fun _ => (timeless_push _).bind fun _ => timeless_update _

theorem timeless_callIf (condition : Bool) (op : UInt8) : (callIf condition op).Timeless := by
  cases condition with
  | false => exact timeless_operandWord.bind fun _ => timeless_update _
  | true => exact (timeless_take op).bind fun _ => timeless_call

theorem timeless_ret : ret.Timeless :=
  timeless_pop.bind fun _ => (timeless_update _).bind fun _ => timeless_update _

theorem timeless_retIf (condition : Bool) (op : UInt8) : (retIf condition op).Timeless := by
  cases condition with
  | false => exact timeless_pure ()
  | true => exact (timeless_take op).bind fun _ => timeless_ret

/-! ## Block instructions -/

theorem timeless_transfer (stride : UInt16) : (transfer stride).Timeless :=
  timeless_registers.bind fun _ => (timeless_read _).bind fun _ =>
    timeless_registers.bind fun _ => (timeless_write ..).bind fun _ =>
      (timeless_update _).bind fun _ => (timeless_update _).bind fun _ =>
        (timeless_update _).bind fun _ => timeless_registers.bind fun _ => timeless_update _

theorem timeless_compare (stride : UInt16) : (compare stride).Timeless :=
  timeless_registers.bind fun _ => (timeless_read _).bind fun _ =>
    (timeless_update _).bind fun _ => (timeless_update _).bind fun _ =>
      (timeless_update _).bind fun _ => timeless_registers.bind fun _ => timeless_update _

theorem timeless_blockInput (stride : UInt16) : (blockInput stride).Timeless :=
  timeless_registers.bind fun _ => (timeless_input _).bind fun _ =>
    (timeless_update _).bind fun _ => (timeless_update _).bind fun _ =>
      timeless_registers.bind fun _ => (timeless_write ..).bind fun _ =>
        (timeless_update _).bind fun _ => timeless_registers.bind fun _ => timeless_update _

theorem timeless_blockOutput (stride : UInt16) : (blockOutput stride).Timeless :=
  timeless_registers.bind fun _ => (timeless_read _).bind fun _ =>
    (timeless_update _).bind fun _ => (timeless_update _).bind fun _ =>
      timeless_registers.bind fun _ => (timeless_output ..).bind fun _ =>
        (timeless_update _).bind fun _ => timeless_registers.bind fun _ => timeless_update _

theorem timeless_blockOnce (b : Block) : (blockOnce b).Timeless := by
  unfold blockOnce
  cases b.kind with
  | transfer => exact timeless_transfer b.stride
  | compare => exact timeless_compare b.stride
  | input => exact timeless_blockInput b.stride
  | output => exact timeless_blockOutput b.stride

theorem timeless_again (op : UInt8) : (again op).Timeless :=
  (timeless_take op).bind fun _ => timeless_update _

/-- A block instruction decides by the registers whether it is to run again. -/
theorem timeless_block (b : Block) : (block b).Timeless := by
  refine (timeless_blockOnce b).bind fun _ => timeless_registers.bind fun r => ?_
  split
  · refine (timeless_again b.opcode).bind fun _ => ?_
    cases b.kind with
    | transfer | compare => exact timeless_update _
    | input | output => exact timeless_pure ()
  · exact timeless_pure ()

/-! ## From outside -/

theorem timeless_assign (values : List (Z80.Register × UInt16)) : (assign values).Timeless :=
  timeless_update _

theorem timeless_load (addr : UInt16) (bytes : List UInt8) : (load addr bytes).Timeless :=
  timeless_of_processor (fun _ => ()) (fun s => { s with memory := s.memory.load addr bytes })
    (fun _ => []) fun _ => rfl

/-- What a hook gives back is looked at, and nothing else is done. -/
theorem Timeless.giving {h : Hook α} (hh : h.Timeless) (f : α → β) :
    (do return f (← h) : Hook β).Timeless :=
  hh.bind fun _ => timeless_pure _

end Hook

/-- **No operation looks at the timer.** -/
theorem Z80.Op.timeless_hook (op : Z80.Op) : op.hook.Timeless := by
  cases op with
  | begin => exact Hook.timeless_begin.giving _
  | finish => exact (Hook.timeless_tell _).giving _
  | spend table op => exact (Hook.timeless_spend table op).giving _
  | interrupt cycles => exact (Hook.timeless_tell _).giving _
  | fetch => exact Hook.timeless_fetch.giving _
  | operand => exact Hook.timeless_operand.giving _
  | operandWord => exact Hook.timeless_operandWord.giving _
  | read addr => exact (Hook.timeless_read addr).giving _
  | write addr value => exact (Hook.timeless_write addr value).giving _
  | input port => exact (Hook.timeless_input port).giving _
  | output port value => exact (Hook.timeless_output port value).giving _
  | push value => exact (Hook.timeless_push value).giving _
  | pop => exact Hook.timeless_pop.giving _
  | jumpRelative => exact Hook.timeless_jumpRelative.giving _
  | jumpRelativeIf condition op => exact (Hook.timeless_jumpRelativeIf condition op).giving _
  | call => exact Hook.timeless_call.giving _
  | callIf condition op => exact (Hook.timeless_callIf condition op).giving _
  | ret => exact Hook.timeless_ret.giving _
  | retIf condition op => exact (Hook.timeless_retIf condition op).giving _
  | block b => exact (Hook.timeless_block b).giving _
  | assign values => exact (Hook.timeless_assign values).giving _
  | load addr bytes => exact (Hook.timeless_load addr bytes).giving _
  | report op => exact (Hook.timeless_tell op).giving _

namespace Computer

/-- The first hook and the rest. -/
theorem runHooks_cons_eq_ok {c last : Computer} {op : Z80.Op} {ops : List Z80.Op}
    {reports : List Report} :
    c.runHooks (op :: ops) = .ok (last, reports) ↔
      ∃ value? next events rest, op.hook c = .ok (value?, next, events) ∧
        next.runHooks ops = .ok (last, rest) ∧ { value?, events } :: rest = reports := by
  rw [runHooks]
  cases op.hook c with
  | error f => simp
  | ok ran =>
    cases hrest : ran.2.1.runHooks ops with
    | error f => simp [hrest, Prod.ext_iff]
    | ok rest => simp [hrest, Prod.ext_iff, and_assoc]

/-- Two runs of the same hooks, by induction on the operations: after each of them the processors
are the same, however far the timers have parted. -/
theorem timeless_runHooks {ops : List Z80.Op} {s : Z80.State} {t t' : Timer} {c c' : Computer}
    {reports reports' : List Report}
    (h : runHooks { processor := s, timer := t } ops = .ok (c, reports))
    (h' : runHooks { processor := s, timer := t' } ops = .ok (c', reports')) :
    c'.processor = c.processor ∧
      reports'.map Report.timeless = reports.map Report.timeless := by
  induction ops generalizing s t t' reports reports' with
  | nil =>
    cases h
    cases h'
    exact ⟨rfl, rfl⟩
  | cons op ops ih =>
    obtain ⟨value?, ⟨s₁, t₁⟩, events, rest, hhook, hrest, rfl⟩ := runHooks_cons_eq_ok.mp h
    obtain ⟨value?', ⟨s₁', t₁'⟩, events', rest', hhook', hrest', rfl⟩ :=
      runHooks_cons_eq_ok.mp h'
    obtain ⟨rfl, hprocessor, hbus⟩ := op.timeless_hook hhook hhook'
    obtain rfl : s₁' = s₁ := hprocessor
    obtain ⟨hlast, hreports⟩ := ih hrest hrest'
    exact ⟨hlast, by rw [List.map_cons, List.map_cons, hreports, Report.timeless,
      Report.timeless, hbus]⟩

/--
**Timing never changes results.** Hooks have processor and timer in hand, and what they do is what
the computer does. Join one processor to two timers, whatever their machines, banks, clocks and
displays are and whatever either is doing, and run the same hooks on both. As long as neither timer
faults, the processor ends in the same state, each operation gives back the same value, and the same
bytes move over the bus in the same order.
-/
theorem run_timeless :
    (∀ (c : Computer) (ops : List Z80.Op), c.runHooks ops = c.run ops) ∧
    ∀ (s : Z80.State) (t t' : Timer) (ops : List Z80.Op) (c c' : Computer)
      (reports reports' : List Report),
      runHooks { processor := s, timer := t } ops = .ok (c, reports) →
      runHooks { processor := s, timer := t' } ops = .ok (c', reports') →
        c'.processor = c.processor ∧
          reports'.map Report.timeless = reports.map Report.timeless :=
  ⟨runHooks_eq, fun _ _ _ _ _ _ _ _ => timeless_runHooks⟩

/-- `OTIR` in the display bank, on a 48K that is about to contend and on a machine that never does. -/
theorem run_timeless_otir :
    let s : Z80.State :=
      { regs := { bc := 0x0210, hl := 0x4000, pc := 0x4000 }
        memory := Z80.Memory.load (fun _ => 0) 0x4000 [0xED, 0xB3] }
    let t : Timer := { ula := .spectrum48k, display := true, clock := { counter := 14335 } }
    let t' : Timer := { ula := { Ula.spectrum48k with variant := .none }, clock := { bank := 5 } }
    let otir : List Z80.Op := [.begin, .fetch, .fetch, .spend .extended 0xB3,
      .block ⟨.output, false, true⟩, .finish, .report (.setCounter 0), .pop]
    ∃ c c' reports reports', runHooks { processor := s, timer := t } otir = .ok (c, reports) ∧
      runHooks { processor := s, timer := t' } otir = .ok (c', reports') ∧
      c'.timer.clock.elapsed ≠ c.timer.clock.elapsed ∧
      c'.processor = c.processor ∧
      reports'.map Report.timeless = reports.map Report.timeless := by
  intro s t t' otir
  have hok : (runHooks { processor := s, timer := t } otir).isOk = true := by decide +kernel
  have hok' : (runHooks { processor := s, timer := t' } otir).isOk = true := by decide +kernel
  obtain ⟨⟨c, reports⟩, h⟩ := exists_of_isOk hok
  obtain ⟨⟨c', reports'⟩, h'⟩ := exists_of_isOk hok'
  have helapsed : (runHooks { processor := s, timer := t' } otir).map (·.1.timer.clock.elapsed) ≠
      (runHooks { processor := s, timer := t } otir).map (·.1.timer.clock.elapsed) := by
    decide +kernel
  rw [h, h'] at helapsed
  exact ⟨c, c', reports, reports', h, h', fun heq => helapsed (congrArg Except.ok heq),
    run_timeless.2 s t t' otir c c' reports reports' h h'⟩

end Computer

end SpectrumTiming
