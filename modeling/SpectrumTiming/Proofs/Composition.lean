import SpectrumTiming.Proofs.Reading

/-!
# Putting scripts one behind the other

A closing bracket ends all that a text may have left open: an element without its separator, a count
that could have had a second digit, an optional part. So two texts that are read on their own are
read with a closing bracket between them as the elements of the one followed by those of the other
(`read_joined`), as far as a script has room for them.

On the side of the grammar this is a front put in front of a tree. What the tree behind it means
stays the same if no bracket is left open in the front. A tree with too many elements is refused for
just that reason (`readChars_of_tooMany`): in front of the first element too many all is in order.
-/

namespace SpectrumTiming

open Script (Reader elementLimit)

theorem Script.ofElements_append (es fs : List Element) :
    ofElements (es ++ fs) =
      { elements := es ++ fs
        mandatory := (ofElements es).mandatory + (ofElements fs).mandatory
        optional := (ofElements es).optional + (ofElements fs).optional } := by
  simp [ofElements]

namespace Grammar

/-! ## A tree behind a front -/

/-- Behind a text with no bracket left open, brackets mean what they mean at the beginning. -/
theorem opened_behind {xs : List Char} (h : opened xs = false) (ys : List Char) :
    opened (xs ++ ys) = opened ys := by
  unfold opened at h ⊢
  rw [brackets_append, List.getLast?_append]
  cases (brackets ys).getLast? with
  | none => exact h
  | some c => rfl

namespace Front

/-- One front behind another. -/
def append (f : Front) : Front → Front
  | .start gs => f.behind gs
  | .close g i n e gs => .close (f.append g) i n e gs

theorem chars_append (f g : Front) : (f.append g).chars = f.chars ++ g.chars := by
  induction g with
  | start gs => exact f.chars_behind gs
  | close g i n e gs ih => simp only [append, chars, ih, List.append_assoc]

theorem elements_append {f : Front} (h : opened f.chars = false) (g : Front) :
    (f.append g).elements = f.elements ++ g.elements := by
  induction g with
  | start gs =>
    rw [elements, List.append_nil]
    exact f.elements_behind gs
  | close g i n e gs ih =>
    simp only [append, elements, ih, chars_append, opened_behind h, List.append_assoc]

end Front

namespace Form

/-- A tree with a front in front of it. -/
def behind (f : Front) : Form → Form
  | .ended g => .ended (f.append g)
  | .last g i n => .last (f.append g) i n

theorem chars_behind (f : Front) (t : Form) : (t.behind f).chars = f.chars ++ t.chars := by
  cases t <;> simp only [behind, chars, f.chars_append, List.append_assoc]

theorem elements_behind {f : Front} (h : opened f.chars = false) (t : Form) :
    (t.behind f).elements = f.elements ++ t.elements := by
  cases t with
  | ended g => exact Front.elements_append h g
  | last g i n =>
    simp only [behind, elements, Front.elements_append h, f.chars_append, opened_behind h,
      List.append_assoc]

/-- The front that a text is with a separator behind it. -/
def close : Form → Ending → Front
  | .ended f, e => f.behind [.ending e]
  | .last f i n, e => .close f i n e []

theorem chars_close (t : Form) (e : Ending) : (t.close e).chars = t.chars ++ [e.char] := by
  cases t with
  | ended f => exact f.chars_behind _
  | last f i n => simp [close, Front.chars, chars]

theorem elements_close (t : Form) (e : Ending) : (t.close e).elements = t.elements := by
  cases t with
  | ended f => exact f.elements_behind _
  | last f i n => rfl

theorem opened_close_closing (t : Form) : opened (t.close .closing).chars = false := by
  rw [chars_close]
  exact opened_closing t.chars

end Form

/-! ## Too many elements -/

/-- These characters begin an element where the script is full. -/
def Overflows (r : Reader) (cs : List Char) : Prop := cs.foldlM Reader.step r = .error .tooMany

theorem Overflows.append {r : Reader} {xs : List Char} (h : Overflows r xs) (ys : List Char) :
    Overflows r (xs ++ ys) := by
  unfold Overflows at *
  rw [List.foldlM_append, h]
  rfl

theorem Leads.overflows {r r' : Reader} {xs ys : List Char} (h : Leads r xs r')
    (h' : Overflows r' ys) : Overflows r (xs ++ ys) := by
  unfold Leads at h
  unfold Overflows at *
  rw [List.foldlM_append, h]
  exact h'

theorem Overflows.one {r : Reader} {c : Char} (h : r.step c = .error .tooMany) :
    Overflows r [c] := by
  simp only [Overflows, List.foldlM_cons, h]
  rfl

theorem start_of_full {r : Reader} (h : elementLimit ≤ r.script.size) (s : Source) :
    r.start s = .error .tooMany :=
  if_neg (Nat.not_lt_of_le h)

theorem Body.exists_head (b : Body) : ∃ (h : Head) (rest : List Char), b.chars = h.chars ++ rest := by
  cases b with
  | timed h m n k =>
    exact ⟨h, blanks m ++ ([':'] ++ (blanks n ++ k.chars)), by simp only [chars, List.append_assoc]⟩
  | port d m n =>
    exact ⟨.slot d, blanks m ++ ([':'] ++ (blanks n ++ ['I', 'O'])),
      by simp only [chars, List.append_assoc]⟩

namespace Front

variable {f : Front}

theorem overflows_head (h : Head) (hfull : elementLimit ≤ f.elements.length) :
    Overflows (f.reader .nothing) h.chars := by
  have hstart (p : Part) (s : Source) : (f.reader p).start s = .error .tooMany :=
    start_of_full (r := f.reader p) hfull s
  cases h with
  | slot d => exact .one ((step_digit _ d).trans (hstart .nothing _))
  | pair p =>
    have hhalf : (f.reader .nothing).step p.letters.1 = .ok (f.reader (.half p)) :=
      step_next rfl (by cases p <;> rfl)
    have hwhole : (f.reader (.half p)).step p.letters.2 = (f.reader (.half p)).start (.pair p) := by
      cases p <;> rfl
    rw [Part.chars_pair]
    exact (Leads.one hhalf).overflows (.one (hwhole.trans (hstart _ _)))
  | idle => exact .one (hstart .nothing .idle)

theorem overflows_item (i : Item) (hfull : elementLimit ≤ f.elements.length) :
    Overflows (f.reader .nothing) i.chars := by
  obtain ⟨h, rest, hchars⟩ := i.body.exists_head
  rw [Item.chars, hchars]
  exact ((overflows_head h hfull).append rest).append _

theorem overflows_behind (i : Item) (hsize : elementLimit < f.elements.length + 1)
    (hfront : elementLimit < f.elements.length → Overflows {} f.chars) :
    Overflows {} (f.chars ++ i.chars) := by
  rcases Nat.lt_or_ge elementLimit f.elements.length with h | h
  · exact (hfront h).append i.chars
  · exact (leads_front f h).overflows (overflows_item i (Nat.le_of_lt_succ hsize))

/-- A front is read up to the first element too many. -/
theorem overflows (f : Front) (hsize : elementLimit < f.elements.length) : Overflows {} f.chars := by
  induction f with
  | start gs => exact absurd hsize (Nat.not_lt_zero _)
  | close f i n e gs ih =>
    rw [elements, List.length_append] at hsize
    have hchars : (close f i n e gs).chars =
        f.chars ++ i.chars ++ (blanks n ++ [e.char] ++ gs.map Gap.char) := by
      simp only [chars, List.append_assoc]
    rw [hchars]
    exact (overflows_behind i hsize ih).append _

end Front

/-- A text whose tree has too many elements is refused for that. -/
theorem readChars_of_tooMany (t : Form) (hsize : elementLimit < t.elements.length) :
    Script.readChars t.chars = .error .tooMany := by
  have hoverflows : Overflows {} t.chars := by
    cases t with
    | ended f => exact f.overflows hsize
    | last f i n =>
      rw [Form.elements, List.length_append] at hsize
      exact (Front.overflows_behind i hsize f.overflows).append (blanks n)
  rw [Script.readChars, hoverflows]
  rfl

/--
**Scripts compose.** Two texts that are scripts, with a closing bracket between them, are the script
with the elements of the first followed by those of the second and with their sums added up. Only if
that is more than nine elements the text is refused, as one with too many.
-/
theorem read_joined {first second : String} {s t : Script} (hs : Script.read first = .ok s)
    (ht : Script.read second = .ok t) :
    Script.read (first ++ "]" ++ second) =
      if s.size + t.size ≤ 9 then
        .ok { elements := s.elements ++ t.elements
              mandatory := s.mandatory + t.mandatory
              optional := s.optional + t.optional }
      else .error .tooMany := by
  obtain ⟨a, ha, -, rfl⟩ := exists_form_of_readChars hs
  obtain ⟨b, hb, -, rfl⟩ := exists_form_of_readChars ht
  have hchars : (b.behind (a.close .closing)).chars = (first ++ "]" ++ second).toList := by
    rw [Form.chars_behind, Form.chars_close, ha, hb, String.toList_append, String.toList_append]
    rfl
  have helements : (b.behind (a.close .closing)).elements = a.elements ++ b.elements := by
    rw [Form.elements_behind a.opened_close_closing, Form.elements_close]
  rw [Script.read, ← hchars]
  split
  · rename_i hroom
    rw [readChars_form _ (by rw [helements, List.length_append]; exact hroom), helements,
      Script.ofElements_append]
    rfl
  · rename_i hfull
    exact readChars_of_tooMany _ (by rw [helements, List.length_append]; exact Nat.lt_of_not_le hfull)

/-- A bracket left open in front of the seam does not reach behind it, and five elements twice are
one too many. -/
theorem read_joined_open :
    Script.read ("0:4,[1:1" ++ "]" ++ "2:3x2") =
        .ok { elements := [⟨.memory 0, 4, 1, false⟩, ⟨.memory 1, 1, 1, true⟩, ⟨.memory 2, 3, 2, false⟩]
              mandatory := 10
              optional := 1 } ∧
      Script.read ("N:1,N:1,N:1,N:1,N:1" ++ "]" ++ "N:1,N:1,N:1,N:1,N:1") = .error .tooMany := by
  have hopen : Script.read "0:4,[1:1" =
      .ok (.ofElements [⟨.memory 0, 4, 1, false⟩, ⟨.memory 1, 1, 1, true⟩]) := by
    rfl
  have hbehind : Script.read "2:3x2" = .ok (.ofElements [⟨.memory 2, 3, 2, false⟩]) := by
    rfl
  have hfive : Script.read "N:1,N:1,N:1,N:1,N:1" =
      .ok (.ofElements (List.replicate 5 ⟨.idle, 1, 1, false⟩)) := by
    rfl
  exact ⟨read_joined hopen hbehind, read_joined hfive hfive⟩

end Grammar

end SpectrumTiming
