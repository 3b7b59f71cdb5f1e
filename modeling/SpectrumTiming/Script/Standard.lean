import SpectrumTiming.Machine
import SpectrumTiming.Script.Reader

/-!
# The scripts of the Z80

Thirty-seven scripts time every instruction of the processor. Each is written for the Ferranti ULA,
which contends internal cycles too, and once more for the gate array where that differs: there the
cycles of an element and those behind it run together, so the text changes but its length does not.

Every text can be read (`Standard.read_text`), so every number has its script.
-/

namespace SpectrumTiming

/-- How many scripts there are. -/
abbrev scriptTotal : Nat := 37

/-- The number of a script. -/
abbrev ScriptNumber := Fin scriptTotal

-- With the zero of the core library, so that a numeral is the same term wherever it is written.
instance : @NeZero Nat .ofOfNat0 scriptTotal := ⟨by decide⟩

/-- The name a report gives a script. -/
def scriptName (id : ScriptNumber) : String :=
  if id.val < 10 then s!"CM0{id.val}" else s!"CM{id.val}"

namespace Standard

/-- The texts of one script. -/
structure Entry where
  sinclair : String
  /-- The text for the gate array, where it is another one. -/
  amstrad? : Option String := none

/-- All scripts, in the order of their numbers. -/
def entries : Vector Entry scriptTotal := #v[
  -- 0: NOP, LD between registers, arithmetic on registers, EXX, DI
  { sinclair := "0:4" },
  -- 1: shifts and bit operations on registers, NEG, IM
  { sinclair := "0:4,1:4" },
  -- 2: LD between A and I or R
  { sinclair := "0:4,1:4,ir:1", amstrad? := "0:4,1:5" },
  -- 3: INC and DEC on register pairs, LD SP,HL
  { sinclair := "0:4,ir:1x2", amstrad? := "0:6" },
  -- 4: ADD HL
  { sinclair := "0:4,ir:1x7", amstrad? := "0:11" },
  -- 5: ADC HL, SBC HL
  { sinclair := "0:4,1:4,ir:1x7", amstrad? := "0:4,1:11" },
  -- 6: LD and arithmetic with a byte operand
  { sinclair := "0:4,1:3" },
  -- 7: LD between a register and (BC), (DE) or (HL)
  { sinclair := "0:4,1:3" },
  -- 8: arithmetic with (HL)
  { sinclair := "0:4,1:3" },
  -- 9: LD and arithmetic with (IX+d)
  { sinclair := "0:4,1:4,2:3,2:1x5,3:3", amstrad? := "0:4,1:4,2:8,3:3" },
  -- 10: BIT on (HL)
  { sinclair := "0:4,1:4,2:3,2:1", amstrad? := "0:4,1:4,2:4" },
  -- 11: BIT on (IX+d)
  { sinclair := "0:4,1:4,2:3,3:3,3:1x2,4:3,4:1", amstrad? := "0:4,1:4,2:3,3:5,4:4" },
  -- 12: LD of a word operand, JP
  { sinclair := "0:4,1:3,2:3" },
  -- 13: LD (HL) with a byte operand
  { sinclair := "0:4,1:3,2:3" },
  -- 14: LD (IX+d) with a byte operand
  { sinclair := "0:4,1:4,2:3,3:3,3:1x2,4:3", amstrad? := "0:4,1:4,2:3,3:5,4:3" },
  -- 15: LD between A and an address
  { sinclair := "0:4,1:3,2:3,3:3" },
  -- 16: LD between HL and an address
  { sinclair := "0:4,1:3,2:3,3:3,4:3" },
  -- 17: LD between another register pair and an address
  { sinclair := "0:4,1:4,2:3,3:3,4:3,5:3" },
  -- 18: INC and DEC on (HL)
  { sinclair := "0:4,1:3,1:1,2:3", amstrad? := "0:4,1:4,2:3" },
  -- 19: shifts, SET and RES on (HL)
  { sinclair := "0:4,1:4,2:3,2:1,3:3", amstrad? := "0:4,1:4,2:4,3:3" },
  -- 20: INC and DEC on (IX+d)
  { sinclair := "0:4,1:4,2:3,2:1x5,3:3,3:1,4:3", amstrad? := "0:4,1:4,2:8,3:4,4:3" },
  -- 21: shifts, SET and RES on (IX+d)
  { sinclair := "0:4,1:4,2:3,3:3,3:1x2,4:3,4:1,5:3", amstrad? := "0:4,1:4,2:3,3:5,4:4,5:3" },
  -- 22: POP, RET
  { sinclair := "0:4,1:3,2:3" },
  -- 23: RETI, RETN
  { sinclair := "0:4,1:4,2:3,3:3" },
  -- 24: RET on a condition
  { sinclair := "0:4,ir:1,[1:3,2:3]", amstrad? := "0:5,[1:3,2:3]" },
  -- 25: PUSH, RST
  { sinclair := "0:4,ir:1,1:3,2:3" },
  -- 26: CALL, with or without a condition
  { sinclair := "0:4,1:3,2:3,[2:1,3:3,4:3]", amstrad? := "0:4,1:3,2:3,[N:1,3:3,4:3]" },
  -- 27: JR, with or without a condition
  { sinclair := "0:4,1:3,[1:1x5]", amstrad? := "0:4,1:3,[N:5]" },
  -- 28: DJNZ
  { sinclair := "0:4,ir:1,1:3,[1:1x5]", amstrad? := "0:5,1:3,[N:5]" },
  -- 29: RLD, RRD
  { sinclair := "0:4,1:4,2:3,2:1x4,3:3", amstrad? := "0:4,1:4,2:7,3:3" },
  -- 30: IN and OUT with A and a byte operand
  { sinclair := "0:4,1:3,2:IO" },
  -- 31: IN and OUT with (C)
  { sinclair := "0:4,1:4,2:IO" },
  -- 32: EX (SP),HL
  { sinclair := "0:4,1:3,2:3,2:1,3:3,4:3,4:1x2", amstrad? := "0:4,1:3,2:4,3:3,4:5" },
  -- 33: LDI, LDD, LDIR, LDDR
  { sinclair := "0:4,1:4,2:3,3:3,3:1x2,[3:1x5]", amstrad? := "0:4,1:4,2:3,3:5,[N:5]" },
  -- 34: CPI, CPD, CPIR, CPDR
  { sinclair := "0:4,1:4,2:3,2:1x5,[2:1x5]", amstrad? := "0:4,1:4,2:8,[N:5]" },
  -- 35: INI, IND, INIR, INDR
  { sinclair := "0:4,1:4,ir:1,2:IO,3:3,[3:1x5]", amstrad? := "0:4,1:5,2:IO,3:3,[N:5]" },
  -- 36: OUTI, OUTD, OTIR, OTDR
  { sinclair := "0:4,1:4,ir:1,2:3,3:IO,[bc:1x5]", amstrad? := "0:4,1:5,2:3,3:IO,[N:5]" }]

/-- The text of an entry for a chip. A machine without contention shows the Ferranti text. -/
def Entry.text (v : Variant) (e : Entry) : String :=
  match v with
  | .amstrad => e.amstrad?.getD e.sinclair
  | .none | .sinclair => e.sinclair

/-- The text of a script for a chip. -/
def text (v : Variant) (id : ScriptNumber) : String := entries[id].text v

/-- The script of an entry, empty if its text cannot be read. -/
def Entry.script (v : Variant) (e : Entry) : Script :=
  match Script.read (e.text v) with
  | .ok s => s
  | .error _ => {}

/-- The scripts for the Ferranti ULA. -/
def sinclairScripts : Vector Script scriptTotal := entries.map (Entry.script .sinclair)

/-- The scripts for the gate array. -/
def amstradScripts : Vector Script scriptTotal := entries.map (Entry.script .amstrad)

/-- A script for a chip. -/
def script (v : Variant) (id : ScriptNumber) : Script :=
  match v with
  | .amstrad => amstradScripts[id]
  | .none | .sinclair => sinclairScripts[id]

/-- Every text can be read. -/
theorem read_text_isOk : ∀ id : ScriptNumber,
    (Script.read (text .sinclair id)).isOk ∧ (Script.read (text .amstrad id)).isOk := by
  decide +kernel

theorem read_entry {v : Variant} {e : Entry} (h : (Script.read (e.text v)).isOk) :
    Script.read (e.text v) = .ok (e.script v) := by
  unfold Entry.script
  cases hr : Script.read (e.text v) with
  | ok s => rfl
  | error f => simp [hr, Except.isOk, Except.toBool] at h

/-- A script is what its text says. -/
theorem read_text (v : Variant) (id : ScriptNumber) : Script.read (text v id) = .ok (script v id) := by
  have hs := read_entry (read_text_isOk id).1
  cases v with
  | none => simpa [text, Entry.text, script, sinclairScripts] using hs
  | sinclair => simpa [text, script, sinclairScripts] using hs
  | amstrad => simpa [text, script, amstradScripts] using read_entry (read_text_isOk id).2

end Standard

end SpectrumTiming
