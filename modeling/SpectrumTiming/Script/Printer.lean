import SpectrumTiming.Script.Reader

/-!
# Writing a script

The written form of a script gives every element in full: its source, its count, its factor even
when that is one, and brackets of its own when it is optional. The elements are parted by commas.
-/

namespace SpectrumTiming

def Source.print : Source → List Char
  | .memory slot | .port slot => Nat.toDigits 10 slot
  | .pair p => [p.letters.1, p.letters.2]
  | .idle => ['N']

namespace Element

/-- The written form of a count: a port cycle has its own word. -/
def printCount (e : Element) : List Char :=
  match e.source with
  | .port _ => ['I', 'O']
  | _ => Nat.toDigits 10 e.cycles

def print (e : Element) : List Char :=
  let body := e.source.print ++ ':' :: e.printCount ++ 'x' :: Nat.toDigits 10 e.repeats
  if e.optional then '[' :: body ++ [']'] else body

end Element

def Script.print (s : Script) : List Char :=
  List.intercalate [','] (s.elements.map Element.print)

end SpectrumTiming
