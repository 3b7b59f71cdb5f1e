import SpectrumTiming.Proofs.Results

/-!
# Hooks

What the processor does is written down without the timer, and the timer is told of it afterwards.
An executor does not work like that. Its hooks have processor and timer in hand at the same time:
they change a register, put a byte on the bus and report to the timer in turn, and nothing keeps
them from looking at the clock. Here are all operations once more as such hooks, statement by
statement, each register read where it is used and written when it is due.

The two come to the same (`Op.hook_eq`, `Computer.runHooks_eq`): to run a hook is to do the work and
play its actions to the timer (`Z80.Work.joined`). What is to be shown for that is that it does not
matter when registers are read and written in between, as long as nobody else touches them (`Apart`).
-/

namespace SpectrumTiming

/-- Part of a program that has the whole computer in hand: from a computer to a value, the computer
after it and the events in order, unless the timer gives up. -/
def Hook (α : Type) : Type := Computer → Except Fault (α × Computer × List Event)

namespace Hook

open Z80 (Registers Block join high low displacement)

variable {α β : Type}

instance : Monad Hook where
  pure a := fun c => .ok (a, c, [])
  bind hook next := fun c =>
    match hook c with
    | .error f => .error f
    | .ok (a, c₁, first) =>
      match next a c₁ with
      | .error f => .error f
      | .ok (b, c₂, rest) => .ok (b, c₂, first ++ rest)

section Laws

variable {h : Hook α} {next : α → Hook β} {c c₁ last : Computer} {a : α} {b : β}
  {first events : List Event}

theorem bind_of_error {f : Fault} (hf : h c = .error f) : (h >>= next) c = .error f := by
  simp only [Bind.bind, hf]

theorem bind_of_ok (hok : h c = .ok (a, c₁, first)) :
    (h >>= next) c = (next a c₁).map fun ran => (ran.1, ran.2.1, first ++ ran.2.2) := by
  simp only [Bind.bind, hok]
  cases next a c₁ <;> rfl

/-- Where nothing is to be seen, the rest goes on. -/
theorem bind_of_silent (hok : h c = .ok (a, c₁, [])) : (h >>= next) c = next a c₁ := by
  rw [bind_of_ok hok]
  cases next a c₁ <;> rfl

/-- The first part and the rest. -/
theorem bind_eq_ok : (h >>= next) c = .ok (b, last, events) ↔
    ∃ a c₁ first rest, h c = .ok (a, c₁, first) ∧ next a c₁ = .ok (b, last, rest) ∧
      first ++ rest = events := by
  cases hran : h c with
  | error f => simp [bind_of_error hran]
  | ok ran =>
    rw [bind_of_ok hran]
    cases hnext : next ran.1 ran.2.1 with
    | error f => simp [Except.map, hnext, Prod.ext_iff]
    | ok ran' => simp [Except.map, hnext, Prod.ext_iff, and_assoc]

end Laws

instance : LawfulMonad Hook :=
  LawfulMonad.mk' Hook
    (fun h => funext fun c => by
      show (h >>= pure) c = h c
      cases hran : h c with
      | error f => exact bind_of_error hran
      | ok ran =>
        rw [bind_of_ok hran]
        simp [pure, Except.map])
    (fun _ _ => funext fun _ => bind_of_silent rfl)
    (fun h next then' => funext fun c => by
      cases hran : h c with
      | error f => rw [bind_of_error hran, bind_of_error (bind_of_error hran)]
      | ok ran =>
        rw [bind_of_ok hran]
        cases hnext : next ran.1 ran.2.1 with
        | error f =>
          rw [bind_of_error hnext, bind_of_error (by rw [bind_of_ok hran, hnext]; rfl)]
          rfl
        | ok ran' =>
          rw [bind_of_ok hnext,
            bind_of_ok (h := h >>= next) (by rw [bind_of_ok hran, hnext]; rfl)]
          cases then' ran'.1 ran'.2.1 <;> simp [Except.map])

/-! ## What a hook can do -/

def registers : Hook Registers := fun c => .ok (c.processor.regs, c, [])

def setRegisters (regs : Registers) : Hook Unit := fun c =>
  .ok ((), { c with processor := { c.processor with regs } }, [])

def update (f : Registers → Registers) : Hook Unit := do
  setRegisters (f (← registers))

/-- Asks the timer for something. The display may be notified of it. -/
def tell (op : Timer.Op) : Hook Unit := fun c =>
  (c.timer.step op).map fun after =>
    ((), { c with timer := after }, ((c.timer.notice? op after).map Event.display).toList)

/-- Looks at the timer. -/
def timer : Hook Timer := fun c => .ok (c.timer, c, [])

def readMemory (addr : UInt16) : Hook UInt8 := fun c =>
  .ok (c.processor.memory addr, c, [.bus .read addr (c.processor.memory addr)])

def writeMemory (addr : UInt16) (value : UInt8) : Hook Unit := fun c =>
  .ok ((), { c with
    processor := { c.processor with memory := c.processor.memory.write addr value } },
    [.bus .write addr value])

def readPort (port : UInt16) : Hook UInt8 := fun c =>
  .ok (c.processor.ports port, c, [.bus .input port (c.processor.ports port)])

def writePort (port : UInt16) (value : UInt8) : Hook Unit := fun c =>
  .ok ((), c, [.bus .output port value])

/-! ## Accesses -/

def readFor (tag : String) (addr : UInt16) : Hook UInt8 := do
  let value ← readMemory addr
  tell (.record ⟨addr, value, .memoryRead, tag⟩)
  return value

def read : UInt16 → Hook UInt8 := readFor "rm"

/-- Writes once the access has been timed, so that the display sees the old value up to then. -/
def write (addr : UInt16) (value : UInt8) : Hook Unit := do
  tell (.record ⟨addr, value, .memoryWrite, "wm"⟩)
  writeMemory addr value

/-- Reads a port once the clock is up to date. What it will read as is not known before. -/
def input (port : UInt16) : Hook UInt8 := do
  tell (.record ⟨port, 0xFF, .portRead, "in port"⟩)
  readPort port

def output (port : UInt16) (value : UInt8) : Hook Unit := do
  tell (.record ⟨port, value, .portWrite, "out port"⟩)
  writePort port value

/-! ## Opcodes, operands and branches -/

def begin : Hook Unit := do
  let r ← registers
  tell (.begin r.bc r.ir)

def spend (table : Opcode.Table) (op : UInt8) : Hook Unit :=
  tell (.elapse .documented (Opcode.duration table op))

def fetch : Hook UInt8 := do
  let pc := (← registers).pc
  update fun r => { r with pc := pc + 1 }
  update Registers.refresh
  readFor "rop" pc

def operand : Hook UInt8 := do
  let pc := (← registers).pc
  update fun r => { r with pc := pc + 1 }
  readFor "arg" pc

def operandWord : Hook UInt16 := do
  let pc := (← registers).pc
  update fun r => { r with pc := pc + 2 }
  let low ← readFor "arg16 byte1" pc
  let high ← readFor "arg16 byte2" (pc + 1)
  return join high low

def push (value : UInt16) : Hook Unit := do
  update fun r => { r with sp := r.sp - 1 }
  write (← registers).sp (high value)
  update fun r => { r with sp := r.sp - 1 }
  write (← registers).sp (low value)

def pop : Hook UInt16 := do
  let low ← read (← registers).sp
  update fun r => { r with sp := r.sp + 1 }
  let high ← read (← registers).sp
  update fun r => { r with sp := r.sp + 1 }
  return join high low

def take (op : UInt8) : Hook Unit := do
  spend .extra op
  tell .confirm

def jumpRelative : Hook Unit := do
  let offset ← operand
  update fun r => { r with pc := r.pc + displacement offset }
  update fun r => { r with wz := r.pc }

def jumpRelativeIf (condition : Bool) (op : UInt8) : Hook Unit :=
  if condition then do
    take op
    jumpRelative
  else do
    let _ ← operand

def call : Hook Unit := do
  let target ← operandWord
  update fun r => { r with wz := target }
  push (← registers).pc
  update fun r => { r with pc := target }

def callIf (condition : Bool) (op : UInt8) : Hook Unit :=
  if condition then do
    take op
    call
  else do
    let target ← operandWord
    update fun r => { r with wz := target }

def ret : Hook Unit := do
  let target ← pop
  update fun r => { r with pc := target }
  update fun r => { r with wz := r.pc }

def retIf (condition : Bool) (op : UInt8) : Hook Unit :=
  if condition then do
    take op
    ret
  else pure ()

/-! ## Block instructions -/

def transfer (stride : UInt16) : Hook Unit := do
  let value ← read (← registers).hl
  write (← registers).de value
  update fun r => { r with hl := r.hl + stride }
  update fun r => { r with de := r.de + stride }
  update fun r => { r with bc := r.bc - 1 }
  let left : Bool := (← registers).bc ≠ 0
  update fun r => { r with f := r.f.afterTransfer r.a value left }

def compare (stride : UInt16) : Hook Unit := do
  let value ← read (← registers).hl
  update fun r => { r with wz := r.wz + stride }
  update fun r => { r with hl := r.hl + stride }
  update fun r => { r with bc := r.bc - 1 }
  let left : Bool := (← registers).bc ≠ 0
  update fun r => { r with f := r.f.afterCompare r.a value left }

def blockInput (stride : UInt16) : Hook Unit := do
  let value ← input (← registers).bc
  update fun r => { r with wz := r.bc + stride }
  update fun r => r.setB (r.b - 1)
  write (← registers).hl value
  update fun r => { r with hl := r.hl + stride }
  let sum := ((← registers).c + low stride).toNat + value.toNat
  update fun r => { r with f := .ofPort r.b value sum }

def blockOutput (stride : UInt16) : Hook Unit := do
  let value ← read (← registers).hl
  update fun r => r.setB (r.b - 1)
  update fun r => { r with wz := r.bc + stride }
  output (← registers).bc value
  update fun r => { r with hl := r.hl + stride }
  let sum := (← registers).l.toNat + value.toNat
  update fun r => { r with f := .ofPort r.b value sum }

def blockOnce (b : Block) : Hook Unit :=
  match b.kind with
  | .transfer => transfer b.stride
  | .compare => compare b.stride
  | .input => blockInput b.stride
  | .output => blockOutput b.stride

/-- Sets the program counter back onto the instruction, which is to run again. -/
def again (op : UInt8) : Hook Unit := do
  take op
  update fun r => { r with pc := r.pc - 2 }

def block (b : Block) : Hook Unit := do
  blockOnce b
  if b.repeats && (← registers).goesOn b.kind then
    again b.opcode
    match b.kind with
    | .transfer | .compare => update fun r => { r with wz := r.pc + 1 }
    | .input | .output => pure ()

/-! ## From outside -/

def assign (values : List (Z80.Register × UInt16)) : Hook Unit := update (·.setAll values)

def load (addr : UInt16) (bytes : List UInt8) : Hook Unit := fun c =>
  .ok ((), { c with processor := { c.processor with memory := c.processor.memory.load addr bytes } },
    [])

end Hook

namespace Z80.Op

open Hook in
/-- The hook of an operation, with the byte or word that it gives back, if any. -/
def hook : Op → Hook (Option UInt16)
  | .begin => do Hook.begin; return none
  | .finish => do tell .finish; return none
  | .spend table op => do Hook.spend table op; return none
  | .interrupt cycles => do tell (.elapse .interrupt cycles); return none
  | .fetch => do return some (← Hook.fetch).toUInt16
  | .operand => do return some (← Hook.operand).toUInt16
  | .operandWord => do return some (← Hook.operandWord)
  | .read addr => do return some (← Hook.read addr).toUInt16
  | .write addr value => do Hook.write addr value; return none
  | .input port => do return some (← Hook.input port).toUInt16
  | .output port value => do Hook.output port value; return none
  | .push value => do Hook.push value; return none
  | .pop => do return some (← Hook.pop)
  | .jumpRelative => do Hook.jumpRelative; return none
  | .jumpRelativeIf condition op => do Hook.jumpRelativeIf condition op; return none
  | .call => do Hook.call; return none
  | .callIf condition op => do Hook.callIf condition op; return none
  | .ret => do Hook.ret; return none
  | .retIf condition op => do Hook.retIf condition op; return none
  | .block b => do Hook.block b; return none
  | .assign values => do Hook.assign values; return none
  | .load addr bytes => do Hook.load addr bytes; return none
  | .report op => do tell op; return none

end Z80.Op

namespace Computer

/-- Runs the hooks of operations one after the other, up to the first fault. -/
def runHooks (c : Computer) : List Z80.Op → Except Fault (Computer × List Report)
  | [] => .ok (c, [])
  | op :: ops =>
    match op.hook c with
    | .error f => .error f
    | .ok (value?, next, events) =>
      match next.runHooks ops with
      | .error f => .error f
      | .ok (last, reports) => .ok (last, { value?, events } :: reports)

/-- The computer with other registers. -/
def withRegisters (c : Computer) (regs : Z80.Registers) : Computer :=
  { c with processor := { c.processor with regs } }

end Computer

/-! ## The order of registers and everything else -/

namespace Hook

open Z80 (Registers)

variable {α β : Type}

theorem registers_bind_apply (k : Registers → Hook β) (c : Computer) :
    (do let r ← registers; k r) c = k c.processor.regs c := bind_of_silent rfl

theorem setRegisters_bind_apply (r : Registers) (k : Hook β) (c : Computer) :
    (do setRegisters r; k) c = k (c.withRegisters r) := bind_of_silent rfl

/-- A hook that does not touch the registers. -/
def Apart (h : Hook α) : Prop := ∀ (c : Computer) (regs : Registers),
  h (c.withRegisters regs) = (h c).map fun ran => (ran.1, ran.2.1.withRegisters regs, ran.2.2)

@[simp] theorem apart_tell (op : Timer.Op) : (tell op).Apart := by
  intro c regs
  simp only [tell, Computer.withRegisters]
  cases c.timer.step op <;> rfl

theorem apart_readMemory (addr : UInt16) : (readMemory addr).Apart := fun _ _ => rfl

theorem apart_writeMemory (addr : UInt16) (value : UInt8) : (writeMemory addr value).Apart :=
  fun _ _ => rfl

theorem apart_readPort (port : UInt16) : (readPort port).Apart := fun _ _ => rfl

theorem apart_writePort (port : UInt16) (value : UInt8) : (writePort port value).Apart :=
  fun _ _ => rfl

theorem Apart.bind {h : Hook α} (hh : h.Apart) {next : α → Hook β} (hnext : ∀ a, (next a).Apart) :
    (h >>= next).Apart := by
  intro c regs
  have hother := hh c regs
  cases hran : h c with
  | error f =>
    rw [hran] at hother
    rw [bind_of_error hran, bind_of_error hother]
    rfl
  | ok ran =>
    rw [hran] at hother
    rw [bind_of_ok hran, bind_of_ok hother, hnext]
    cases next ran.1 ran.2.1 <;> rfl

theorem apart_pure (a : α) : (pure a : Hook α).Apart := fun _ _ => rfl

@[simp] theorem apart_readFor (tag : String) (addr : UInt16) : (readFor tag addr).Apart :=
  (apart_readMemory addr).bind fun _ => (apart_tell _).bind fun _ => apart_pure _

@[simp] theorem apart_write (addr : UInt16) (value : UInt8) : (write addr value).Apart :=
  (apart_tell _).bind fun _ => apart_writeMemory addr value

@[simp] theorem apart_input (port : UInt16) : (input port).Apart :=
  (apart_tell _).bind fun _ => apart_readPort port

@[simp] theorem apart_output (port : UInt16) (value : UInt8) : (output port value).Apart :=
  (apart_tell _).bind fun _ => apart_writePort port value

theorem Apart.regs_eq {h : Hook α} (hh : h.Apart) {c c₁ : Computer} {a : α} {events : List Event}
    (hok : h c = .ok (a, c₁, events)) : c₁.processor.regs = c.processor.regs := by
  have hsame : h c = _ := hh c c.processor.regs
  rw [hok] at hsame
  have hcomputer : c₁ = c₁.withRegisters c.processor.regs :=
    congrArg (fun ran => ran.2.1) (Except.ok.inj hsame)
  rw [hcomputer]
  rfl

/-- Registers that nobody else touches can be read before anything else is done. -/
@[simp] theorem Apart.registers_comm {h : Hook α} (hh : h.Apart) (k : α → Registers → Hook β) :
    (do let a ← h; let r ← registers; k a r) = (do let r ← registers; let a ← h; k a r) := by
  funext c
  rw [registers_bind_apply]
  cases hran : h c with
  | error f => rw [bind_of_error hran, bind_of_error hran]
  | ok ran =>
    rw [bind_of_ok hran, bind_of_ok hran, registers_bind_apply, hh.regs_eq hran]

/-- Registers that nobody else touches can be set after everything else is done. -/
@[simp] theorem Apart.setRegisters_comm {h : Hook α} (hh : h.Apart) (r : Registers)
    (k : α → Hook β) :
    (do setRegisters r; let a ← h; k a) = (do let a ← h; setRegisters r; k a) := by
  funext c
  rw [setRegisters_bind_apply]
  have hother := hh c r
  cases hran : h c with
  | error f =>
    rw [hran] at hother
    rw [bind_of_error hran, bind_of_error hother]
  | ok ran =>
    rw [hran] at hother
    rw [bind_of_ok hran, bind_of_ok hother, setRegisters_bind_apply]

theorem Apart.setRegisters_last {h : Hook α} (hh : h.Apart) (r : Registers) :
    (do setRegisters r; h) = (do let a ← h; setRegisters r; return a) := by
  rw [← hh.setRegisters_comm, bind_pure]

theorem Apart.setRegisters_last_unit {h : Hook Unit} (hh : h.Apart) (r : Registers) :
    (do setRegisters r; h) = (do h; setRegisters r) := hh.setRegisters_last r

@[simp] theorem registers_registers (k : Registers → Registers → Hook β) :
    (do let r ← registers; let r' ← registers; k r r') = (do let r ← registers; k r r) := by
  funext c
  rw [registers_bind_apply, registers_bind_apply, registers_bind_apply]

@[simp] theorem setRegisters_registers (r : Registers) (k : Registers → Hook β) :
    (do setRegisters r; let r' ← registers; k r') = (do setRegisters r; k r) := by
  funext c
  rw [setRegisters_bind_apply, registers_bind_apply, setRegisters_bind_apply]
  rfl

@[simp] theorem setRegisters_setRegisters (r r' : Registers) (k : Hook β) :
    (do setRegisters r; setRegisters r'; k) = (do setRegisters r'; k) := by
  funext c
  rw [setRegisters_bind_apply, setRegisters_bind_apply, setRegisters_bind_apply]
  rfl

@[simp] theorem setRegisters_setRegisters_last (r r' : Registers) :
    (do setRegisters r; setRegisters r') = setRegisters r' := rfl

end Hook

/-! ## Work that is played to the timer -/

namespace Timer

theorem play_singleton (t : Timer) (x : Z80.Action) :
    t.play [x] = (t.step x.op).map fun after => (after, x.events t after) := by
  rw [play]
  cases t.step x.op <;> simp [play, Except.map]

end Timer

namespace Z80.Work

variable {α β : Type}

/-- A piece of work that is done, with its actions played to the timer. -/
def joined (w : Work α) : Hook α := fun c =>
  (c.timer.play (w.actions c.processor)).map fun played =>
    (w.value c.processor, { processor := w.state c.processor, timer := played.1 }, played.2)

@[simp] theorem joined_pure (a : α) : (pure a : Work α).joined = pure a := rfl

/-- **Work that is done in a row is a row of hooks.** -/
@[simp] theorem joined_bind (w : Work α) (next : α → Work β) :
    (w >>= next).joined = (do let a ← w.joined; (next a).joined) := by
  funext c
  rw [joined, actions_bind, value_bind, state_bind, Timer.play_append]
  cases hplay : c.timer.play (w.actions c.processor) with
  | error f => exact (Hook.bind_of_error (by rw [joined, hplay]; rfl)).symm
  | ok played =>
    refine Eq.trans ?_ (Hook.bind_of_ok (by rw [joined, hplay]; rfl)).symm
    simp only [Except.bind, joined]
    cases played.1.play ((next (w.value c.processor)).actions (w.state c.processor)) <;> rfl

@[simp] theorem joined_registers : Z80.registers.joined = Hook.registers := rfl

@[simp] theorem joined_update (f : Registers → Registers) :
    (Z80.update f).joined = Hook.update f := rfl

@[simp] theorem joined_report (op : Timer.Op) : (Z80.report op).joined = Hook.tell op := by
  funext c
  have hactions : (Z80.report op).actions c.processor = [.report op] := rfl
  rw [joined, hactions, Timer.play_singleton, Hook.tell]
  show Except.map _ (Except.map _ (c.timer.step op)) = _
  cases c.timer.step op <;> rfl

/-- A read shows on the bus and is then reported. -/
@[simp] theorem joined_readFor (tag : String) (addr : UInt16) :
    (Z80.readFor tag addr).joined = Hook.readFor tag addr := by
  funext c
  refine (congrArg (Except.map _) (Timer.play_singleton c.timer _)).trans ?_
  show Except.map _ (Except.map _ (c.timer.step
    (.record ⟨addr, c.processor.memory addr, .memoryRead, tag⟩))) = _
  simp only [Hook.readFor, Hook.readMemory, Hook.tell, bind, pure]
  cases c.timer.step (.record ⟨addr, c.processor.memory addr, .memoryRead, tag⟩) with
  | error f => rfl
  | ok after =>
    simp only [Except.map, List.append_nil]
    rfl

/-- Everything else is reported and then shows on the bus. -/
@[simp] theorem joined_write (addr : UInt16) (value : UInt8) :
    (Z80.write addr value).joined = Hook.write addr value := by
  funext c
  refine (congrArg (Except.map _) (Timer.play_singleton c.timer _)).trans ?_
  show Except.map _ (Except.map _ (c.timer.step (.record ⟨addr, value, .memoryWrite, "wm"⟩))) = _
  simp only [Hook.write, Hook.tell, bind]
  cases c.timer.step (.record ⟨addr, value, .memoryWrite, "wm"⟩) <;> rfl

@[simp] theorem joined_input (port : UInt16) : (Z80.input port).joined = Hook.input port := by
  funext c
  refine (congrArg (Except.map _) (Timer.play_singleton c.timer _)).trans ?_
  show Except.map _ (Except.map _ (c.timer.step (.record ⟨port, 0xFF, .portRead, "in port"⟩))) = _
  simp only [Hook.input, Hook.tell, bind]
  cases c.timer.step (.record ⟨port, 0xFF, .portRead, "in port"⟩) <;> rfl

@[simp] theorem joined_output (port : UInt16) (value : UInt8) :
    (Z80.output port value).joined = Hook.output port value := by
  funext c
  refine (congrArg (Except.map _) (Timer.play_singleton c.timer _)).trans ?_
  show Except.map _ (Except.map _ (c.timer.step (.record ⟨port, value, .portWrite, "out port"⟩))) = _
  simp only [Hook.output, Hook.tell, bind]
  cases c.timer.step (.record ⟨port, value, .portWrite, "out port"⟩) <;> rfl

end Z80.Work

/-! ## Each hook does its work -/

namespace Hook

open Z80 (Block Registers)

theorem sub_one_sub_one (w : UInt16) : w - 1 - 1 = w - 2 := by
  grind

theorem add_one_add_one (w : UInt16) : w + 1 + 1 = w + 2 := by
  grind

theorem begin_eq : begin = Z80.begin.joined := by
  simp [begin, Z80.begin]

theorem spend_eq (table : Opcode.Table) (op : UInt8) :
    spend table op = (Z80.spend table op).joined := by
  simp [spend, Z80.spend]

theorem read_eq (addr : UInt16) : read addr = (Z80.read addr).joined := by
  simp [read, Z80.read]

theorem fetch_eq : fetch = Z80.fetch.joined := by
  simp [-bind_pure_comp, fetch, Z80.fetch, update, Apart.setRegisters_last, Registers.refresh]

theorem operand_eq : operand = Z80.operand.joined := by
  simp [operand, Z80.operand]

theorem operandWord_eq : operandWord = Z80.operandWord.joined := by
  simp [-bind_pure_comp, operandWord, Z80.operandWord]

theorem push_eq (value : UInt16) : push value = (Z80.push value).joined := by
  simp [push, Z80.push, update, Apart.setRegisters_last_unit, sub_one_sub_one]

theorem pop_eq : pop = Z80.pop.joined := by
  simp [-bind_pure_comp, pop, Z80.pop, read, Z80.read, update, add_one_add_one]

theorem take_eq (op : UInt8) : take op = (Z80.take op).joined := by
  simp [take, Z80.take, spend_eq]

theorem jumpRelative_eq : jumpRelative = Z80.jumpRelative.joined := by
  simp [jumpRelative, Z80.jumpRelative, update, operand_eq]

theorem jumpRelativeIf_eq (condition : Bool) (op : UInt8) :
    jumpRelativeIf condition op = (Z80.jumpRelativeIf condition op).joined := by
  cases condition with
  | false => simp [-bind_pure_comp, jumpRelativeIf, Z80.jumpRelativeIf, operand_eq]
  | true => simp [jumpRelativeIf, Z80.jumpRelativeIf, take_eq, jumpRelative_eq]

theorem call_eq : call = Z80.call.joined := by
  simp [call, Z80.call, push, Z80.push, operandWord, Z80.operandWord, update, sub_one_sub_one]

theorem callIf_eq (condition : Bool) (op : UInt8) :
    callIf condition op = (Z80.callIf condition op).joined := by
  cases condition with
  | false => simp [callIf, Z80.callIf, operandWord_eq]
  | true => simp [callIf, Z80.callIf, take_eq, call_eq]

theorem ret_eq : ret = Z80.ret.joined := by
  simp [ret, Z80.ret, update, pop_eq]

theorem retIf_eq (condition : Bool) (op : UInt8) :
    retIf condition op = (Z80.retIf condition op).joined := by
  cases condition with
  | false => simp [retIf, Z80.retIf]
  | true => simp [retIf, Z80.retIf, take_eq, ret_eq]

theorem transfer_eq (stride : UInt16) : transfer stride = (Z80.transfer stride).joined := by
  simp [transfer, Z80.transfer, read, Z80.read, update]

theorem compare_eq (stride : UInt16) : compare stride = (Z80.compare stride).joined := by
  simp [compare, Z80.compare, read, Z80.read, update]

theorem blockInput_eq (stride : UInt16) : blockInput stride = (Z80.blockInput stride).joined := by
  simp [blockInput, Z80.blockInput, update, Registers.setB, Registers.b, Registers.c]

theorem blockOutput_eq (stride : UInt16) :
    blockOutput stride = (Z80.blockOutput stride).joined := by
  simp [blockOutput, Z80.blockOutput, read, Z80.read, update, Registers.setB, Registers.b,
    Registers.c, Registers.l]

theorem blockOnce_eq (b : Block) : blockOnce b = (Z80.blockOnce b).joined := by
  unfold blockOnce Z80.blockOnce
  cases b.kind with
  | transfer => exact transfer_eq b.stride
  | compare => exact compare_eq b.stride
  | input => exact blockInput_eq b.stride
  | output => exact blockOutput_eq b.stride

/-- A block instruction is set back in the same way, whether the internal register follows or not. -/
theorem again_eq (b : Block) :
    (do again b.opcode
        match b.kind with
        | .transfer | .compare => update fun r => { r with wz := r.pc + 1 }
        | .input | .output => pure ()) =
      (do Z80.take b.opcode; Z80.update (·.rewind b.kind) : Z80.Work Unit).joined := by
  cases b.kind <;> simp [again, take_eq, update, Registers.rewind]

theorem block_eq (b : Block) : block b = (Z80.block b).joined := by
  unfold block Z80.block
  simp only [Z80.Work.joined_bind, blockOnce_eq, Z80.Work.joined_registers]
  congr 1
  funext _
  congr 1
  funext r
  split
  · exact again_eq b
  · rfl

end Hook

/-- **The hook of each operation does its work.** -/
theorem Z80.Op.hook_eq (op : Z80.Op) : op.hook = op.work.joined := by
  cases op with
  | load addr bytes => rfl
  | _ =>
    simp [-bind_pure_comp, hook, work, Hook.assign, Hook.begin_eq, Hook.spend_eq, Hook.fetch_eq,
      Hook.operand_eq, Hook.operandWord_eq, Hook.read_eq, Hook.push_eq, Hook.pop_eq,
      Hook.jumpRelative_eq, Hook.jumpRelativeIf_eq, Hook.call_eq, Hook.callIf_eq, Hook.ret_eq,
      Hook.retIf_eq, Hook.block_eq]

namespace Computer

/-- **Hooks do what the computer does.** -/
theorem runHooks_eq (c : Computer) (ops : List Z80.Op) : c.runHooks ops = c.run ops := by
  induction ops generalizing c with
  | nil => rfl
  | cons op ops ih =>
    rw [runHooks, run, step_eq, op.hook_eq, Z80.Work.joined]
    cases c.timer.play (op.work.actions c.processor) with
    | error f => rfl
    | ok played =>
      cases hrun : run { processor := op.work.state c.processor, timer := played.1 } ops with
      | error f => simp only [Except.map, ih, hrun]
      | ok ran => simp only [Except.map, ih, hrun]

end Computer

end SpectrumTiming
