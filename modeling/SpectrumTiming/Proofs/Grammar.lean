import Mathlib.Algebra.GroupWithZero.Nat
import SpectrumTiming.Script.Reader

/-!
# The grammar of scripts

Which texts are scripts, and what they mean, without any reader:

    script  = gap* (element space* ending gap*)* (element space*)?
    element = source space* ':' space* count (space* 'x' space* digit)?
    source  = digit | 'ir' | 'bc' | 'N'
    count   = digit | digit digit | 'IO'

A gap is a space, a comma or a bracket; an element is ended by a comma, a closing bracket or the end
of the text; `IO` stands behind a digit only. The trees of each kind are just what the grammar
allows, so every tree has a text (`chars`), and an element is what its tree says (`Item.element`).
The one thing a tree does not say is whether its element is optional: the last bracket in front of
it does (`opened`).
-/

namespace SpectrumTiming

namespace Script

/-- The script of a list of elements. -/
def ofElements (es : List Element) : Script where
  elements := es
  mandatory := ((es.filter (!·.optional)).map Element.total).sum
  optional := ((es.filter (·.optional)).map Element.total).sum

theorem ofElements_concat (es : List Element) (e : Element) :
    ofElements (es ++ [e]) = (ofElements es).add e := by
  cases h : e.optional <;> simp [ofElements, add, h]

end Script

namespace Grammar

def blanks (n : Nat) : List Char := List.replicate n ' '

@[simp]
theorem blanks_zero : blanks 0 = [] := rfl

@[simp]
theorem blanks_succ (n : Nat) : blanks (n + 1) = blanks n ++ [' '] := List.replicate_succ'

/-! ## An element -/

inductive Head
  | slot (d : Fin 10)
  | pair (p : Pair)
  | idle

def Head.chars : Head → List Char
  | .slot d => [Nat.digitChar d]
  | .pair .ir => ['i', 'r']
  | .pair .bc => ['b', 'c']
  | .idle => ['N']

def Head.source : Head → Source
  | .slot d => .memory d
  | .pair p => .pair p
  | .idle => .idle

inductive Count
  | one (d : Fin 10)
  | two (d e : Fin 10)

@[simp]
def Count.chars : Count → List Char
  | .one d => [Nat.digitChar d]
  | .two d e => [Nat.digitChar d, Nat.digitChar e]

def Count.value : Count → Nat
  | .one d => d
  | .two d e => 10 * d + e

/-- A source and a count, with the spaces on either side of the colon. -/
inductive Body
  | timed (head : Head) (before after : Nat) (count : Count)
  | port (slot : Fin 10) (before after : Nat)

@[simp]
def Body.chars : Body → List Char
  | .timed h m n k => h.chars ++ blanks m ++ [':'] ++ blanks n ++ k.chars
  | .port d m n => (Head.slot d).chars ++ blanks m ++ [':'] ++ blanks n ++ ['I', 'O']

def Body.source : Body → Source
  | .timed h _ _ _ => h.source
  | .port d _ _ => .port d

def Body.cycles : Body → Nat
  | .timed _ _ _ k => k.value
  | .port _ _ _ => 4

/-- A factor, with the spaces on either side of its `x`. -/
structure Factor where
  before : Nat
  after : Nat
  digit : Fin 10

@[simp]
def Factor.chars (x : Factor) : List Char :=
  blanks x.before ++ ['x'] ++ blanks x.after ++ [Nat.digitChar x.digit]

structure Item where
  body : Body
  factor? : Option Factor := none

namespace Item

@[simp]
def chars (i : Item) : List Char := i.body.chars ++ i.factor?.elim [] Factor.chars

def element (i : Item) (optional : Bool) : Element where
  source := i.body.source
  cycles := i.body.cycles
  repeats := i.factor?.elim 1 fun x => x.digit
  optional := optional

end Item

/-! ## What stands between elements -/

inductive Ending
  | comma
  | closing

def Ending.char : Ending → Char
  | .comma => ','
  | .closing => ']'

inductive Gap
  | space
  | opening
  | ending (e : Ending)

def Gap.char : Gap → Char
  | .space => ' '
  | .opening => '['
  | .ending e => e.char

/-- The brackets of a text, in their order. -/
def brackets (cs : List Char) : List Char := cs.filter fun c => c == '[' || c == ']'

/-- The last bracket of a text opens: an element behind it is optional. -/
def opened (cs : List Char) : Bool := (brackets cs).getLast? == some '['

/-! ## A script -/

/-- The text in front of an element: `gap* (element space* ending gap*)*`. -/
inductive Front
  | start (gaps : List Gap)
  | close (front : Front) (item : Item) (spaces : Nat) (ending : Ending) (gaps : List Gap)

namespace Front

def chars : Front → List Char
  | .start gs => gs.map Gap.char
  | .close f i n e gs => f.chars ++ i.chars ++ blanks n ++ [e.char] ++ gs.map Gap.char

def elements : Front → List Element
  | .start _ => []
  | .close f i _ _ _ => f.elements ++ [i.element (opened f.chars)]

end Front

/-- A whole text: the last element may lack its ending. -/
inductive Form
  | ended (front : Front)
  | last (front : Front) (item : Item) (spaces : Nat)

namespace Form

def chars : Form → List Char
  | .ended f => f.chars
  | .last f i n => f.chars ++ i.chars ++ blanks n

/-- The elements in their order, each optional if the last bracket in front of it opens. -/
def elements : Form → List Element
  | .ended f => f.elements
  | .last f i _ => f.elements ++ [i.element (opened f.chars)]

end Form

/-! ## Brackets -/

theorem brackets_append (xs ys : List Char) : brackets (xs ++ ys) = brackets xs ++ brackets ys :=
  List.filter_append xs ys

theorem brackets_blanks (n : Nat) : brackets (blanks n) = [] := by
  rw [brackets, List.filter_eq_nil_iff]
  intro c hc
  rw [List.eq_of_mem_replicate hc]
  decide

theorem brackets_digitChar (d : Fin 10) : brackets [Nat.digitChar d] = [] := by
  revert d
  decide

theorem Head.brackets_chars (h : Head) : brackets h.chars = [] := by
  cases h with
  | slot d => exact brackets_digitChar d
  | pair p => cases p <;> decide
  | idle => decide

theorem Count.brackets_chars (k : Count) : brackets k.chars = [] := by
  cases k with
  | one d => exact brackets_digitChar d
  | two d e =>
    have happend : (two d e).chars = [Nat.digitChar d] ++ [Nat.digitChar e] := rfl
    rw [happend, brackets_append, brackets_digitChar, brackets_digitChar]
    rfl

theorem Body.brackets_chars (b : Body) : brackets b.chars = [] := by
  have hcolon : brackets [':'] = [] := rfl
  have hport : brackets ['I', 'O'] = [] := rfl
  cases b <;>
    simp only [chars, brackets_append, brackets_blanks, Head.brackets_chars, Count.brackets_chars,
      hcolon, hport, List.append_nil]

/-- An element has no brackets of its own. -/
theorem Item.brackets_chars (i : Item) : brackets i.chars = [] := by
  have htimes : brackets ['x'] = [] := rfl
  rcases i with ⟨b, none | x⟩ <;>
    simp only [chars, Factor.chars, Option.elim_none, Option.elim_some, brackets_append,
      brackets_blanks, brackets_digitChar, Body.brackets_chars, htimes, List.append_nil]

theorem opened_append {xs ys : List Char} (h : brackets ys = []) :
    opened (xs ++ ys) = opened xs := by
  rw [opened, brackets_append, h, List.append_nil]
  rfl

theorem opened_opening (xs : List Char) : opened (xs ++ ['[']) = true := by
  simp [opened, brackets]

theorem opened_closing (xs : List Char) : opened (xs ++ [']']) = false := by
  simp [opened, brackets]

end Grammar

end SpectrumTiming
