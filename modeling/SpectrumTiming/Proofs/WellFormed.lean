import Mathlib.Algebra.Group.Action.Defs
import Mathlib.Algebra.Order.BigOperators.Group.List
import Mathlib.Algebra.Order.Ring.Nat
import Mathlib.Data.List.Induction
import SpectrumTiming.Proofs.Reading
import SpectrumTiming.Proofs.Scripts

/-!
# Well-formed scripts

A script is a list of elements with two sums, and its type allows any numbers in it. What is read
from a text keeps within bounds that follow from how it is written: a place in the log and a factor
are one digit, a count is two at the most, a port cycle has no count of its own, and the sums are
those of the elements (`Script.wellFormed_of_read`).
-/

namespace SpectrumTiming

/-- An element that can be written. -/
structure Element.WellFormed (e : Element) : Prop where
  slot_le : ∀ slot, e.slot? = some slot → slot ≤ 9
  cycles_le : e.cycles ≤ 99
  repeats_le : e.repeats ≤ 9
  /-- A port cycle lasts as long as all of them do. -/
  cycles_port : e.isPort = true → e.cycles = 4

/-- A script that can be written. -/
structure Script.WellFormed (s : Script) : Prop where
  size_le : s.size ≤ 9
  elements : ∀ e ∈ s.elements, e.WellFormed
  mandatory_eq : s.mandatory = ((s.elements.filter (!·.optional)).map Element.total).sum
  optional_eq : s.optional = ((s.elements.filter (·.optional)).map Element.total).sum

/-! ## What a tree says -/

namespace Grammar

theorem Count.value_le (k : Count) : k.value ≤ 99 := by
  cases k with
  | one d =>
    rw [value]
    omega
  | two d e =>
    rw [value]
    omega

theorem Item.repeats_le (i : Item) (optional : Bool) : (i.element optional).repeats ≤ 9 := by
  rcases i with ⟨b, none | x⟩
  · exact Nat.le_of_ble_eq_true rfl
  · exact Nat.le_of_lt_succ x.digit.isLt

theorem Item.wellFormed (i : Item) (optional : Bool) : (i.element optional).WellFormed := by
  have hrepeats := i.repeats_le optional
  rcases i with ⟨⟨h, m, n, k⟩ | ⟨d, m, n⟩, x?⟩
  · refine ⟨fun slot hs => ?_, k.value_le, hrepeats, fun hport => ?_⟩
    · cases h with
      | slot d =>
        cases hs
        exact Nat.le_of_lt_succ d.isLt
      | pair p => cases hs
      | idle => cases hs
    · cases h <;> cases hport
  · refine ⟨fun slot hs => ?_, Nat.le_of_ble_eq_true rfl, hrepeats, fun _ => rfl⟩
    cases hs
    exact Nat.le_of_lt_succ d.isLt

theorem Front.exists_item {f : Front} {e : Element} (he : e ∈ f.elements) :
    ∃ (i : Item) (optional : Bool), e = i.element optional := by
  induction f with
  | start gs => cases he
  | close f i n ending gs ih =>
    rcases List.mem_append.mp he with he | he
    · exact ih he
    · exact ⟨i, _, List.mem_singleton.mp he⟩

theorem Form.exists_item {t : Form} {e : Element} (he : e ∈ t.elements) :
    ∃ (i : Item) (optional : Bool), e = i.element optional := by
  cases t with
  | ended f => exact f.exists_item he
  | last f i n =>
    rcases List.mem_append.mp he with he | he
    · exact f.exists_item he
    · exact ⟨i, _, List.mem_singleton.mp he⟩

end Grammar

/-! ## What is read -/

namespace Script

theorem wellFormed_of_read {text : String} {s : Script} (h : read text = .ok s) : s.WellFormed := by
  obtain ⟨t, -, hsize, rfl⟩ := Grammar.exists_form_of_readChars h
  refine ⟨hsize, fun e he => ?_, rfl, rfl⟩
  obtain ⟨i, optional, rfl⟩ := Grammar.Form.exists_item (t := t) he
  exact i.wellFormed optional

theorem total_ofElements (es : List Element) :
    (ofElements es).total = (es.map Element.total).sum := by
  induction es using List.reverseRecOn with
  | nil => rfl
  | append_singleton es e ih =>
    rw [ofElements_concat, total_add, ih, List.map_append, List.sum_append, List.map_singleton,
      List.sum_singleton]

namespace WellFormed

variable {s : Script}

theorem eq_ofElements (h : s.WellFormed) : s = ofElements s.elements := by
  have hsums := congr (congrArg (Script.mk s.elements) h.mandatory_eq) h.optional_eq
  exact hsums

theorem total_eq (h : s.WellFormed) : s.total = (s.elements.map Element.total).sum := by
  rw [h.eq_ofElements]
  exact total_ofElements s.elements

theorem total_le (h : s.WellFormed) : s.total ≤ 8019 := by
  have hmost : ∀ n ∈ s.elements.map Element.total, n ≤ 99 * 9 := by
    intro n hn
    obtain ⟨e, he, rfl⟩ := List.mem_map.mp hn
    exact Nat.mul_le_mul (h.elements e he).cycles_le (h.elements e he).repeats_le
  have hsum := List.sum_le_card_nsmul _ _ hmost
  have hsize : s.elements.length ≤ 9 := h.size_le
  rw [List.length_map, smul_eq_mul] at hsum
  rw [h.total_eq]
  omega

theorem slots_le (h : s.WellFormed) : s.slots ≤ 10 :=
  slots_le_iff.mpr fun e he slot hs => Nat.lt_succ_of_le ((h.elements e he).slot_le slot hs)

end WellFormed

end Script

end SpectrumTiming
