import SpectrumTiming.Proofs.Reading

/-!
# Spaces carry no meaning

A space can part what has to touch: `0:1 1` is refused and `0:11` is not. But a text that is read has
its spaces only where there may be any number of them, so without them it is read as the same script
(`read_withoutSpaces`).

In the grammar the spaces of a text are numbers in its tree, and gaps. Setting the numbers to zero and
leaving these gaps out gives the tree of the text without spaces. Its characters are those that are
left, in their order, so nothing that was apart becomes one: a count keeps its digits, and a pair of
letters its letters. Its brackets are the same ones, so the same elements are optional.
-/

namespace SpectrumTiming

namespace Grammar

/-- The characters that are left without the spaces. -/
def unspaced (cs : List Char) : List Char := cs.filter (· != ' ')

theorem unspaced_append (xs ys : List Char) : unspaced (xs ++ ys) = unspaced xs ++ unspaced ys :=
  List.filter_append xs ys

theorem unspaced_blanks (n : Nat) : unspaced (blanks n) = [] := by
  rw [unspaced, List.filter_eq_nil_iff]
  intro c hc
  rw [List.eq_of_mem_replicate hc]
  decide

theorem unspaced_digitChar (d : Fin 10) : unspaced [Nat.digitChar d] = [Nat.digitChar d] := by
  revert d
  decide

/-- No bracket is lost. -/
theorem opened_unspaced (cs : List Char) : opened (unspaced cs) = opened cs := by
  have hbrackets : brackets (unspaced cs) = brackets cs := by
    rw [brackets, unspaced, List.filter_filter]
    refine List.filter_congr fun c _ => ?_
    by_cases hc : c = ' '
    · subst hc
      rfl
    · simp [hc]
  rw [opened, hbrackets]
  rfl

/-! ## Trees without spaces -/

theorem Head.unspaced_chars (h : Head) : unspaced h.chars = h.chars := by
  cases h with
  | slot d => exact unspaced_digitChar d
  | pair p => cases p <;> decide
  | idle => decide

theorem Count.unspaced_chars (k : Count) : unspaced k.chars = k.chars := by
  cases k with
  | one d => exact unspaced_digitChar d
  | two d e =>
    have happend : (two d e).chars = [Nat.digitChar d] ++ [Nat.digitChar e] := rfl
    rw [happend, unspaced_append, unspaced_digitChar, unspaced_digitChar]

def Body.unspaced : Body → Body
  | .timed h _ _ k => .timed h 0 0 k
  | .port d _ _ => .port d 0 0

theorem Body.chars_unspaced (b : Body) : b.unspaced.chars = Grammar.unspaced b.chars := by
  have hcolon : Grammar.unspaced [':'] = [':'] := rfl
  have hport : Grammar.unspaced ['I', 'O'] = ['I', 'O'] := rfl
  cases b <;>
    simp only [unspaced, chars, unspaced_append, unspaced_blanks, Head.unspaced_chars,
      Count.unspaced_chars, hcolon, hport, blanks_zero]

def Factor.unspaced (x : Factor) : Factor := ⟨0, 0, x.digit⟩

theorem Factor.chars_unspaced (x : Factor) : x.unspaced.chars = Grammar.unspaced x.chars := by
  have htimes : Grammar.unspaced ['x'] = ['x'] := rfl
  simp only [unspaced, chars, unspaced_append, unspaced_blanks, unspaced_digitChar, htimes,
    blanks_zero]

namespace Item

def unspaced (i : Item) : Item := ⟨i.body.unspaced, i.factor?.map Factor.unspaced⟩

theorem chars_unspaced (i : Item) : i.unspaced.chars = Grammar.unspaced i.chars := by
  rcases i with ⟨b, none | x⟩
  · have hfree : (Item.mk b none).chars = b.chars := List.append_nil _
    rw [hfree, ← b.chars_unspaced]
    exact List.append_nil _
  · have hfactor : (Item.mk b (some x)).chars = b.chars ++ x.chars := rfl
    rw [hfactor, unspaced_append, ← b.chars_unspaced, ← x.chars_unspaced]
    rfl

theorem element_unspaced (i : Item) (optional : Bool) :
    i.unspaced.element optional = i.element optional := by
  rcases i with ⟨_ | _, none | x⟩ <;> rfl

end Item

/-- Gaps without the spaces among them. -/
def unspacedGaps (gs : List Gap) : List Gap := gs.filter (·.char != ' ')

theorem chars_unspacedGaps (gs : List Gap) :
    (unspacedGaps gs).map Gap.char = unspaced (gs.map Gap.char) := by
  rw [unspaced, List.filter_map]
  rfl

theorem Ending.unspaced_char (e : Ending) : unspaced [e.char] = [e.char] := by
  cases e <;> rfl

namespace Front

def unspaced : Front → Front
  | .start gs => .start (unspacedGaps gs)
  | .close f i _ e gs => .close f.unspaced i.unspaced 0 e (unspacedGaps gs)

theorem chars_unspaced (f : Front) : f.unspaced.chars = Grammar.unspaced f.chars := by
  induction f with
  | start gs => exact chars_unspacedGaps gs
  | close f i n e gs ih =>
    simp only [unspaced, chars, unspaced_append, ih, i.chars_unspaced, unspaced_blanks,
      e.unspaced_char, chars_unspacedGaps, blanks_zero]

theorem elements_unspaced (f : Front) : f.unspaced.elements = f.elements := by
  induction f with
  | start gs => rfl
  | close f i n e gs ih =>
    simp only [unspaced, elements, ih, chars_unspaced, opened_unspaced, i.element_unspaced]

end Front

namespace Form

def unspaced : Form → Form
  | .ended f => .ended f.unspaced
  | .last f i _ => .last f.unspaced i.unspaced 0

theorem chars_unspaced (t : Form) : t.unspaced.chars = Grammar.unspaced t.chars := by
  cases t with
  | ended f => exact f.chars_unspaced
  | last f i n =>
    simp only [unspaced, chars, unspaced_append, f.chars_unspaced, i.chars_unspaced,
      unspaced_blanks, blanks_zero]

theorem elements_unspaced (t : Form) : t.unspaced.elements = t.elements := by
  cases t with
  | ended f => exact f.elements_unspaced
  | last f i n =>
    simp only [unspaced, elements, f.elements_unspaced, f.chars_unspaced, opened_unspaced,
      i.element_unspaced]

end Form

/-! ## Texts without spaces -/

/-- A text without its spaces. -/
def withoutSpaces (text : String) : String := .ofList (unspaced text.toList)

theorem read_unspaced {text : String} {s : Script} (h : Script.read text = .ok s) :
    Script.read (withoutSpaces text) = .ok s := by
  obtain ⟨t, hchars, hsize, rfl⟩ := exists_form_of_readChars h
  have hform : (withoutSpaces text).toList = t.unspaced.chars := by
    rw [withoutSpaces, String.toList_ofList, t.chars_unspaced, hchars]
  rw [Script.read, hform, readChars_form _ (by rw [t.elements_unspaced]; exact hsize),
    t.elements_unspaced]

/--
**Spaces carry no meaning.** A text that is read is read as the same script without its spaces. So two
texts that are both read, and that are the same but for spaces, are read as the same script.
-/
theorem read_withoutSpaces {text : String} {s : Script} (h : Script.read text = .ok s) :
    Script.read (withoutSpaces text) = .ok s ∧
    ∀ (other : String) (t : Script), Script.read other = .ok t →
      withoutSpaces other = withoutSpaces text → t = s := by
  refine ⟨read_unspaced h, fun other t ht hsame => ?_⟩
  have hother := read_unspaced ht
  rw [hsame, read_unspaced h] at hother
  exact (Except.ok.inj hother).symm

/-- Spaces in every place where there may be some, and in a single one. -/
theorem read_withoutSpaces_everywhere :
    withoutSpaces " 0 : 4 x 2 , [ ir : 11 ] 1:IO " = "0:4x2,[ir:11]1:IO" ∧
      ∃ s, Script.read "0:4x2,[ir:11]1:IO" = .ok s ∧
        Script.read " 0 : 4 x 2 , [ ir : 11 ] 1:IO " = .ok s ∧
        Script.read "0:4x2,[ir:11]1 :IO" = .ok s := by
  have htext : Script.read " 0 : 4 x 2 , [ ir : 11 ] 1:IO " = .ok (.ofElements
      [⟨.memory 0, 4, 2, false⟩, ⟨.pair .ir, 11, 1, true⟩, ⟨.port 1, 4, 1, false⟩]) := by
    rfl
  have hbare : withoutSpaces " 0 : 4 x 2 , [ ir : 11 ] 1:IO " = "0:4x2,[ir:11]1:IO" := by decide
  obtain ⟨hsame, hothers⟩ := read_withoutSpaces htext
  obtain ⟨t, ht⟩ : ∃ t, Script.read "0:4x2,[ir:11]1 :IO" = .ok t := ⟨_, rfl⟩
  refine ⟨hbare, _, hbare ▸ hsame, htext, ?_⟩
  rw [ht, hothers "0:4x2,[ir:11]1 :IO" t ht (by decide)]

end Grammar

end SpectrumTiming
