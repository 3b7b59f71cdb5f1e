import SpectrumTiming.Proofs.Encoding

/-!
# The classes of bytes as tables

An opcode byte can be of eight classes, and nothing keeps any of them out of any of the five tables
that bytes are looked up in. The definitions of the classes read a byte by its fields, and each has
a type that leaves out what does not stand there. Here are the tables themselves, in one type for all
five and sixteen entries a row. Every entry is held against the definition of its class
(`primaryTable_eq` and the others), and that settles which classes stand where.
-/

namespace SpectrumTiming.Checked

open Opcode

/-- What a byte may say, whatever stands in front of it. Scripts are plain numbers here. -/
inductive ByteClass
  | script (number : Nat)
  | bit
  | extended
  | index
  | indexedBit
  /-- Behind an index byte, the primary instruction on the index register. -/
  | standard
  /-- No documented instruction behind an index byte. -/
  | plain
  /-- No documented instruction behind `ED`. -/
  | undocumented
deriving DecidableEq

namespace ByteClass

/-! ## The tables -/

instance (number : Nat) : OfNat ByteClass number := ⟨.script number⟩

def std : ByteClass := .standard

def ill : ByteClass := .plain

def und : ByteClass := .undocumented

def primaryTable : List ByteClass :=
  [  0, 12,  7,  3,  0,  0,  6,  0,  0,  4,  7,  3,  0,  0,  6,  0,
    28, 12,  7,  3,  0,  0,  6,  0, 27,  4,  7,  3,  0,  0,  6,  0,
    27, 12, 16,  3,  0,  0,  6,  0, 27,  4, 16,  3,  0,  0,  6,  0,
    27, 12, 15,  3, 18, 18, 13,  0, 27,  4, 15,  3,  0,  0,  6,  0,
     0,  0,  0,  0,  0,  0,  7,  0,  0,  0,  0,  0,  0,  0,  7,  0,
     0,  0,  0,  0,  0,  0,  7,  0,  0,  0,  0,  0,  0,  0,  7,  0,
     0,  0,  0,  0,  0,  0,  7,  0,  0,  0,  0,  0,  0,  0,  7,  0,
     7,  7,  7,  7,  7,  7,  0,  7,  0,  0,  0,  0,  0,  0,  7,  0,
     0,  0,  0,  0,  0,  0,  8,  0,  0,  0,  0,  0,  0,  0,  8,  0,
     0,  0,  0,  0,  0,  0,  8,  0,  0,  0,  0,  0,  0,  0,  8,  0,
     0,  0,  0,  0,  0,  0,  8,  0,  0,  0,  0,  0,  0,  0,  8,  0,
     0,  0,  0,  0,  0,  0,  8,  0,  0,  0,  0,  0,  0,  0,  8,  0,
    24, 22, 12, 12, 26, 25,  6, 25, 24, 22, 12, .bit, 26, 26,  6, 25,
    24, 22, 12, 30, 26, 25,  6, 25, 24,  0, 12, 30, 26, .index,  6, 25,
    24, 22, 12, 32, 26, 25,  6, 25, 24,  0, 12,  0, 26, .extended,  6, 25,
    24, 22, 12,  0, 26, 25,  6, 25, 24,  3, 12,  0, 26, .index,  6, 25 ]

def bitTable : List ByteClass :=
  let rotate : List ByteClass := [1, 1, 1, 1, 1, 1, 19, 1, 1, 1, 1, 1, 1, 1, 19, 1]
  let test : List ByteClass := [1, 1, 1, 1, 1, 1, 10, 1, 1, 1, 1, 1, 1, 1, 10, 1]
  (List.replicate 4 rotate ++ List.replicate 4 test ++ List.replicate 8 rotate).flatten

def extendedTable : List ByteClass :=
  List.replicate 64 und ++
  [ 31, 31,  5, 17,  1, 23,  1,  2, 31, 31,  5, 17,  1, 23,  1,  2,
    31, 31,  5, 17,  1, 23,  1,  2, 31, 31,  5, 17,  1, 23,  1,  2,
    31, 31,  5, 17,  1, 23,  1, 29, 31, 31,  5, 17,  1, 23,  1, 29,
    31, 31,  5, 17,  1, 23,  1, und, 31, 31,  5, 17,  1, 23,  1, und ] ++
  List.replicate 32 und ++
  [ 33, 34, 35, 36, und, und, und, und, 33, 34, 35, 36, und, und, und, und,
    33, 34, 35, 36, und, und, und, und, 33, 34, 35, 36, und, und, und, und ] ++
  List.replicate 64 und

def indexedTable : List ByteClass :=
  [ ill, ill, ill, ill, ill, ill, ill, ill, ill, std, ill, ill, ill, ill, ill, ill,
    ill, ill, ill, ill, ill, ill, ill, ill, ill, std, ill, ill, ill, ill, ill, ill,
    ill, std, std, std, std, std, std, ill, ill, std, std, std, std, std, std, ill,
    ill, ill, ill, ill,  20,  20,  14, ill, ill, std, ill, ill, ill, ill, ill, ill,
    ill, ill, ill, ill, std, std,   9, ill, ill, ill, ill, ill, std, std,   9, ill,
    ill, ill, ill, ill, std, std,   9, ill, ill, ill, ill, ill, std, std,   9, ill,
    std, std, std, std, std, std,   9, std, std, std, std, std, std, std,   9, std,
      9,   9,   9,   9,   9,   9, ill,   9, ill, ill, ill, ill, std, std,   9, ill,
    ill, ill, ill, ill, std, std,   9, ill, ill, ill, ill, ill, std, std,   9, ill,
    ill, ill, ill, ill, std, std,   9, ill, ill, ill, ill, ill, std, std,   9, ill,
    ill, ill, ill, ill, std, std,   9, ill, ill, ill, ill, ill, std, std,   9, ill,
    ill, ill, ill, ill, std, std,   9, ill, ill, ill, ill, ill, std, std,   9, ill,
    ill, ill, ill, ill, ill, ill, ill, ill, ill, ill, ill, .indexedBit, ill, ill, ill, ill,
    ill, ill, ill, ill, ill, ill, ill, ill, ill, ill, ill, ill, ill, ill, ill, ill,
    ill, std, ill, std, ill, std, ill, ill, ill, std, ill, ill, ill, ill, ill, ill,
    ill, ill, ill, ill, ill, ill, ill, ill, ill, std, ill, ill, ill, ill, ill, ill ]

def indexedBitTable : List ByteClass :=
  List.replicate 64 21 ++ List.replicate 64 11 ++ List.replicate 128 21

/-! ## Every entry -/

def ofPrimary : Primary → ByteClass
  | .script id => .script id
  | .cb => .bit
  | .ed => .extended
  | .index => .index

def ofExtended : Extended → ByteClass
  | .script id => .script id
  | .undocumented => .undocumented

def ofIndexed : Indexed → ByteClass
  | .script id => .script id
  | .standard => .standard
  | .undocumented => .plain
  | .bit => .indexedBit

theorem primaryTable_eq : ∀ op : UInt8, primaryTable[op.toNat]? = some (ofPrimary (primary op)) :=
  forall_byte (by decide +kernel)

theorem bitTable_eq : ∀ op : UInt8, bitTable[op.toNat]? = some (.script (Opcode.bit op)) :=
  forall_byte (by decide +kernel)

theorem extendedTable_eq :
    ∀ op : UInt8, extendedTable[op.toNat]? = some (ofExtended (Opcode.extended op)) :=
  forall_byte (by decide +kernel)

theorem indexedTable_eq :
    ∀ op : UInt8, indexedTable[op.toNat]? = some (ofIndexed (Opcode.indexed op)) :=
  forall_byte (by decide +kernel)

theorem indexedBitTable_eq :
    ∀ op : UInt8, indexedBitTable[op.toNat]? = some (.script (Opcode.indexedBit op)) :=
  forall_byte (by decide +kernel)

end ByteClass

end SpectrumTiming.Checked
