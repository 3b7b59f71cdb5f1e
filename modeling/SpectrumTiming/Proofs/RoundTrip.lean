import SpectrumTiming.Proofs.Composition
import SpectrumTiming.Proofs.WellFormed
import SpectrumTiming.Script.Printer

/-!
# Writing a script and reading it again

The written form of a well-formed script has a tree: every element has one of its own, and they are
put one behind the other with commas in between (`exists_form_print`). An optional element brings
both of its brackets along, so a bracket is never left open and no element changes what the elements
behind it mean.

So a script that is written and read again is the same script, and to be well formed is not more than
that needs (`read_print_iff`).
-/

namespace SpectrumTiming

open Script (elementLimit)

namespace Grammar

theorem exists_count {n : Nat} (h : n ≤ 99) :
    ∃ k : Count, k.value = n ∧ k.chars = Nat.toDigits 10 n := by
  rcases Nat.lt_or_ge n 10 with hone | htwo
  · exact ⟨.one ⟨n, hone⟩, rfl, (Nat.toDigits_of_lt_base hone).symm⟩
  · have hquotient : n / 10 < 10 := by omega
    have hremainder : n % 10 < 10 := Nat.mod_lt n (by omega)
    refine ⟨.two ⟨n / 10, hquotient⟩ ⟨n % 10, hremainder⟩, Nat.div_add_mod n 10, ?_⟩
    rw [Nat.toDigits_of_base_le (by omega) htwo, Nat.toDigits_of_lt_base hquotient]
    rfl

theorem exists_slot {n : Nat} (h : n ≤ 9) :
    ∃ d : Fin 10, d.val = n ∧ [Nat.digitChar d] = Nat.toDigits 10 n :=
  ⟨⟨n, Nat.lt_succ_of_le h⟩, rfl, (Nat.toDigits_of_lt_base (Nat.lt_succ_of_le h)).symm⟩

theorem Body.chars_timed (h : Head) (k : Count) :
    (Body.timed h 0 0 k).chars = h.chars ++ ':' :: k.chars := by
  simp only [chars, blanks_zero, List.append_nil, List.append_assoc, List.singleton_append]

theorem Body.chars_port (d : Fin 10) :
    (Body.port d 0 0).chars = (Head.slot d).chars ++ [':', 'I', 'O'] := by
  simp only [chars, blanks_zero, List.append_nil, List.append_assoc, List.singleton_append]

/-- The source and the count of a well-formed element have a tree. -/
theorem exists_body {e : Element} (h : e.WellFormed) :
    ∃ b : Body, b.source = e.source ∧ b.cycles = e.cycles ∧
      b.chars = e.source.print ++ ':' :: e.printCount := by
  obtain ⟨k, hvalue, hcount⟩ := exists_count h.cycles_le
  cases hs : e.source with
  | memory slot =>
    obtain ⟨d, rfl, hslot⟩ := exists_slot (h.slot_le slot (by rw [Element.slot?, hs]))
    refine ⟨.timed (.slot d) 0 0 k, rfl, hvalue, ?_⟩
    rw [Body.chars_timed, hcount, Head.chars, hslot, Element.printCount, hs]
    rfl
  | port slot =>
    obtain ⟨d, rfl, hslot⟩ := exists_slot (h.slot_le slot (by rw [Element.slot?, hs]))
    have hcycles := h.cycles_port (by rw [Element.isPort, hs])
    refine ⟨.port d 0 0, rfl, hcycles.symm, ?_⟩
    rw [Body.chars_port, Head.chars, hslot, Element.printCount, hs]
    rfl
  | pair p =>
    refine ⟨.timed (.pair p) 0 0 k, rfl, hvalue, ?_⟩
    rw [Body.chars_timed, hcount, Element.printCount, hs]
    cases p <;> rfl
  | idle =>
    refine ⟨.timed .idle 0 0 k, rfl, hvalue, ?_⟩
    rw [Body.chars_timed, hcount, Element.printCount, hs]
    rfl

theorem exists_item_print {e : Element} (h : e.WellFormed) :
    ∃ i : Item, i.element e.optional = e ∧
      e.print = if e.optional then '[' :: i.chars ++ [']'] else i.chars := by
  obtain ⟨b, hsource, hcycles, hbody⟩ := exists_body h
  obtain ⟨d, hrepeats, hfactor⟩ := exists_slot h.repeats_le
  have hchars : (Item.mk b (some ⟨0, 0, d⟩)).chars =
      e.source.print ++ ':' :: e.printCount ++ 'x' :: Nat.toDigits 10 e.repeats := by
    rw [Item.chars, hbody, ← hfactor]
    rfl
  refine ⟨⟨b, some ⟨0, 0, d⟩⟩, ?_, ?_⟩
  · simp only [Item.element, hsource, hcycles, Option.elim_some, hrepeats]
  · rw [hchars]
    rfl

/-- The written form of an element is a text of its own. -/
theorem exists_form_element {e : Element} (h : e.WellFormed) :
    ∃ t : Form, t.chars = e.print ∧ t.elements = [e] ∧ opened t.chars = false := by
  obtain ⟨i, helement, hprint⟩ := exists_item_print h
  cases ho : e.optional with
  | true =>
    rw [ho] at helement hprint
    have hchars : (Form.ended (.close (.start [.opening]) i 0 .closing [])).chars =
        '[' :: i.chars ++ [']'] := by
      simp [Form.chars, Front.chars, Gap.char, Ending.char]
    refine ⟨.ended (.close (.start [.opening]) i 0 .closing []), ?_, ?_, ?_⟩
    · rw [hchars, hprint]
      rfl
    · exact congrArg (fun e => [e]) helement
    · rw [hchars]
      exact opened_closing ('[' :: i.chars)
  | false =>
    rw [ho] at helement hprint
    have hchars : (Form.last (.start []) i 0).chars = i.chars := by
      simp [Form.chars, Front.chars]
    refine ⟨.last (.start []) i 0, ?_, ?_, ?_⟩
    · rw [hchars, hprint]
      rfl
    · exact congrArg (fun e => [e]) helement
    · rw [hchars, opened, i.brackets_chars]
      rfl

/-- The written forms of elements with commas in between are a text. -/
theorem exists_form_print (es : List Element) (h : ∀ e ∈ es, e.WellFormed) :
    ∃ t : Form, t.chars = List.intercalate [','] (es.map Element.print) ∧ t.elements = es := by
  induction es with
  | nil => exact ⟨.ended (.start []), rfl, rfl⟩
  | cons e es ih =>
    obtain ⟨he, hes⟩ := List.forall_mem_cons.mp h
    obtain ⟨t, hchars, helements, hclosed⟩ := exists_form_element he
    obtain ⟨rest, hrest, hbehind⟩ := ih hes
    cases es with
    | nil => exact ⟨t, by rw [hchars]; exact List.intercalate_singleton.symm, helements⟩
    | cons f fs =>
      -- a comma leaves the brackets as they are
      have hcomma : opened (t.close .comma).chars = false := by
        rw [Form.chars_close, opened_append rfl]
        exact hclosed
      refine ⟨rest.behind (t.close .comma), ?_, ?_⟩
      · rw [Form.chars_behind, Form.chars_close, hchars, hrest]
        exact List.intercalate_cons_cons.symm
      · rw [Form.elements_behind hcomma, Form.elements_close, helements, hbehind]
        rfl

theorem read_print_of_wellFormed {s : Script} (h : s.WellFormed) :
    Script.read (.ofList s.print) = .ok s := by
  obtain ⟨t, hchars, helements⟩ := exists_form_print s.elements h.elements
  have hsize : t.elements.length ≤ elementLimit := by
    rw [helements]
    exact h.size_le
  have hprint : s.print = t.chars := hchars.symm
  rw [Script.read, String.toList_ofList, hprint, readChars_form t hsize, helements]
  exact congrArg Except.ok h.eq_ofElements.symm

/--
**What is written is read as what was written.** A script with no more than nine elements whose
places, counts, factors and sums are within bounds is read from its written form as the same script,
and no other script is. Whatever text a script is read from, its written form says the same.
-/
theorem read_print_iff (s : Script) :
    (Script.read (.ofList s.print) = .ok s ↔ s.WellFormed) ∧
    ∀ text : String, Script.read text = .ok s → Script.read (.ofList s.print) = .ok s :=
  ⟨⟨Script.wellFormed_of_read, read_print_of_wellFormed⟩,
    fun _ h => read_print_of_wellFormed (Script.wellFormed_of_read h)⟩

/-- A text with spaces and a bracket left open, in its written form. -/
theorem read_print_iff_bounds :
    let s : Script := .ofElements [⟨.memory 0, 4, 1, false⟩, ⟨.pair .bc, 1, 5, true⟩,
      ⟨.port 9, 4, 0, false⟩, ⟨.idle, 99, 9, true⟩]
    s.print = "0:4x1,[bc:1x5],9:IOx0,[N:99x9]".toList ∧ Script.read (.ofList s.print) = .ok s := by
  intro s
  exact ⟨by decide, (read_print_iff s).2 " 0:4 ,[bc : 1x5],] 9:IO x 0,[N:99x9" (by rfl)⟩

end Grammar

end SpectrumTiming
