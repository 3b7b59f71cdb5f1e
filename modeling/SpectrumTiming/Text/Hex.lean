/-!
# Hexadecimal text

Bytes are shown with two upper-case hexadecimal digits and words with four; a number of no fixed
width is shown with as few lower-case digits as it has, behind `0x`. Lists are shown in brackets,
their members parted by commas.

A byte is read from hexadecimal digits of either case, with any number of zeros in front and a plus
sign if one likes. The first digit that is none, or that takes the value past a byte, is what is
reported.
-/

namespace SpectrumTiming

/-- The upper-case hexadecimal digits of a number. -/
def upperDigits (n : Nat) : List Char := (Nat.toDigits 16 n).map Char.toUpper

/-- A number in hexadecimal, filled up with zeros in front. -/
def padHex (width n : Nat) : String :=
  let digits := upperDigits n
  String.ofList (List.replicate (width - digits.length) '0' ++ digits)

/-- A byte with two digits. -/
def hexByte (b : UInt8) : String := padHex 2 b.toNat

/-- A word with four digits. -/
def hexWord (w : UInt16) : String := padHex 4 w.toNat

/-- A number of no fixed width. -/
def hexNumber (n : Nat) : String := "0x" ++ String.ofList (Nat.toDigits 16 n)

/-- A list, in brackets. -/
def bracketed (items : List String) : String := "[" ++ ", ".intercalate items ++ "]"

/-- A list of numbers, in brackets. -/
def listText (ns : List Nat) : String := bracketed (ns.map toString)

/-- The value of a hexadecimal digit. -/
def hexDigit? (c : Char) : Option Nat :=
  if '0' ≤ c ∧ c ≤ '9' then some (c.toNat - '0'.toNat)
  else if 'a' ≤ c ∧ c ≤ 'f' then some (c.toNat - 'a'.toNat + 10)
  else if 'A' ≤ c ∧ c ≤ 'F' then some (c.toNat - 'A'.toNat + 10)
  else none

/-- Why a text is no hexadecimal byte. -/
inductive HexError
  | empty
  | invalidDigit
  /-- The value is more than a byte holds. -/
  | overflow
deriving DecidableEq

/-- Reads digits behind those that gave `value`. -/
def readHexDigits (value : Nat) : List Char → Except HexError Nat
  | [] => .ok value
  | c :: cs =>
    match hexDigit? c with
    | none => .error .invalidDigit
    | some d => if 16 * value + d < 256 then readHexDigits (16 * value + d) cs else .error .overflow

/-- Reads a byte. A sign without digits is not a digit either. -/
def readHexByte (cs : List Char) : Except HexError UInt8 :=
  match cs with
  | [] => .error .empty
  | ['+'] => .error .invalidDigit
  | '+' :: digits => (readHexDigits 0 digits).map UInt8.ofNat
  | digits => (readHexDigits 0 digits).map UInt8.ofNat

end SpectrumTiming
