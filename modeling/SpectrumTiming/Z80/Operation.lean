import SpectrumTiming.Z80.Block

/-!
# Operations of the processor

Everything an executor can have the processor do, as data, so that runs can be spoken about.
-/

namespace SpectrumTiming.Z80

/-- One thing to do. -/
inductive Op
  | begin
  | finish
  | spend (table : Opcode.Table) (op : UInt8)
  /-- Reports the T-states of taking an interrupt. -/
  | interrupt (cycles : Nat)
  | fetch
  | operand
  | operandWord
  | read (addr : UInt16)
  | write (addr : UInt16) (value : UInt8)
  | input (port : UInt16)
  | output (port : UInt16) (value : UInt8)
  | push (value : UInt16)
  | pop
  | jumpRelative
  | jumpRelativeIf (condition : Bool) (op : UInt8)
  | call
  | callIf (condition : Bool) (op : UInt8)
  | ret
  | retIf (condition : Bool) (op : UInt8)
  | block (b : Block)
  /-- Sets registers from outside. -/
  | assign (values : List (Register × UInt16))
  /-- Sets memory from outside, without a bus cycle. -/
  | load (addr : UInt16) (bytes : List UInt8)
  | report (op : Timer.Op)
deriving DecidableEq

namespace Op

/-- The work of an operation, with the byte or word that it gives back, if any. -/
def work : Op → Work (Option UInt16)
  | .begin => do Z80.begin; return none
  | .finish => do Z80.report .finish; return none
  | .spend table op => do Z80.spend table op; return none
  | .interrupt cycles => do Z80.report (.elapse .interrupt cycles); return none
  | .fetch => do return some (← Z80.fetch).toUInt16
  | .operand => do return some (← Z80.operand).toUInt16
  | .operandWord => do return some (← Z80.operandWord)
  | .read addr => do return some (← Z80.read addr).toUInt16
  | .write addr value => do Z80.write addr value; return none
  | .input port => do return some (← Z80.input port).toUInt16
  | .output port value => do Z80.output port value; return none
  | .push value => do Z80.push value; return none
  | .pop => do return some (← Z80.pop)
  | .jumpRelative => do Z80.jumpRelative; return none
  | .jumpRelativeIf condition op => do Z80.jumpRelativeIf condition op; return none
  | .call => do Z80.call; return none
  | .callIf condition op => do Z80.callIf condition op; return none
  | .ret => do Z80.ret; return none
  | .retIf condition op => do Z80.retIf condition op; return none
  | .block b => do Z80.block b; return none
  | .assign values => do update (·.setAll values); return none
  | .load addr bytes => fun s => (none, { s with memory := s.memory.load addr bytes }, [])
  | .report op => do Z80.report op; return none

end Op

end SpectrumTiming.Z80
