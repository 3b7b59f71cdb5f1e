import SpectrumTiming.Text.Hex

/-!
# Accesses

A record of one access an instruction makes to memory or to a port, with what it was for.

The marks of an access fill a byte. Five of its bits have a meaning; the three above them have none
and are kept as they are, so that no mark is lost between an access that is reported and the same
access in the log (`AccessMarks.toByte_ofByte`).
-/

namespace SpectrumTiming

/-- What kind of access it was, and whether it has been charged. -/
structure AccessMarks where
  read : Bool := false
  write : Bool := false
  port : Bool := false
  memory : Bool := false
  /-- Some element of the script has been charged for the access. -/
  charged : Bool := false
  /-- The three bits without a meaning. -/
  spare : Fin 8 := 0
deriving DecidableEq

namespace AccessMarks

/-- The marks in a byte. -/
def ofByte (b : UInt8) : AccessMarks where
  read := b.toNat.testBit 0
  write := b.toNat.testBit 1
  port := b.toNat.testBit 2
  memory := b.toNat.testBit 3
  charged := b.toNat.testBit 4
  spare := ⟨b.toNat / 32, by have := b.toNat_lt; omega⟩

/-- The marks as a number, the spare bits on top. -/
def toNat (m : AccessMarks) : Nat :=
  m.read.toNat + 2 * m.write.toNat + 4 * m.port.toNat + 8 * m.memory.toNat +
    16 * m.charged.toNat + 32 * m.spare.val

/-- The byte that holds the marks. -/
def toByte (m : AccessMarks) : UInt8 := .ofNat m.toNat

theorem toByte_ofByte (b : UInt8) : (ofByte b).toByte = b := by
  have h : ∀ n < 256, (ofByte (.ofNat n)).toByte = .ofNat n := by decide +kernel
  simpa using h b.toNat b.toNat_lt

theorem ofByte_toByte (m : AccessMarks) : ofByte m.toByte = m := by
  have h : ∀ (read write port memory charged : Bool) (spare : Fin 8),
      ofByte (toByte ⟨read, write, port, memory, charged, spare⟩) =
        ⟨read, write, port, memory, charged, spare⟩ := by decide +kernel
  exact h m.read m.write m.port m.memory m.charged m.spare

/-- The marks that are set, by name, the low bit first. Spare bits have no name and are shown as
one number. -/
def names (m : AccessMarks) : List String :=
  (if m.read then ["READ"] else []) ++ (if m.write then ["WRITE"] else []) ++
    (if m.port then ["IO_PORT"] else []) ++ (if m.memory then ["MEMORY"] else []) ++
    (if m.charged then ["PROCESSED"] else []) ++
    (if m.spare = 0 then [] else [hexNumber (32 * m.spare.val)])

/-- The marks as a report shows them. -/
def text (m : AccessMarks) : String :=
  match m.names with
  | [] => s!"AccessFlags({hexNumber 0})"
  | names => "AccessFlags(" ++ " | ".intercalate names ++ ")"

def memoryRead : AccessMarks := { read := true, memory := true }

def memoryWrite : AccessMarks := { write := true, memory := true }

def portRead : AccessMarks := { read := true, port := true }

def portWrite : AccessMarks := { write := true, port := true }

end AccessMarks

/-- One access of an instruction. -/
structure Access where
  addr : UInt16
  value : UInt8
  marks : AccessMarks
  /-- What the access was for. -/
  tag : String
deriving DecidableEq

namespace Access

/-- Marks an access as charged. -/
def charge (a : Access) : Access := { a with marks := { a.marks with charged := true } }

/-- Whether a write shows on the screen: the border port, or the pixels and attributes, which are
also at the top of memory while bank 5 is paged in there. -/
def visible (bank : Nat) (a : Access) : Bool :=
  a.marks.write &&
    if a.marks.port then a.addr.toUInt8 = 0xFE
    else a.marks.memory &&
      ((0x4000 ≤ a.addr && a.addr ≤ 0x5AFF) || (bank = 5 && 0xC000 ≤ a.addr && a.addr ≤ 0xDAFF))

end Access

end SpectrumTiming
