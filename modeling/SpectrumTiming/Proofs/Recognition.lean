import SpectrumTiming.Capture

/-!
# What the first bytes of an instruction settle

A finding other than "more bytes are needed" is final: bytes that arrive later do not change it
(`recognize_append`). So the index bytes in front that collapse can be taken off as soon as they are
seen to, or all at once at the end, and what is left is the same (`splitCollapsing_append`).

This is what lets a capture shift its log while the instruction is still running: the part that is
left behaves as if the bytes taken off had never been logged.
-/

namespace SpectrumTiming

namespace Opcode

/-- **A finding is final.** -/
theorem recognize_append {xs : List UInt8} (ys : List UInt8) (h : recognize xs ≠ .pending) :
    recognize (xs ++ ys) = recognize xs := by
  cases xs with
  | nil => exact absurd rfl h
  | cons op rest =>
    simp only [List.cons_append, recognize] at h ⊢
    cases hp : primary op with
    | script id => rfl
    | cb =>
      rw [hp] at h
      cases rest with
      | nil => exact absurd rfl h
      | cons b rest => rfl
    | ed =>
      rw [hp] at h
      cases rest with
      | nil => exact absurd rfl h
      | cons b rest => rfl
    | index =>
      rw [hp] at h
      cases rest with
      | nil => exact absurd rfl h
      | cons b rest =>
        simp only [List.cons_append, recognizeIndexed] at h ⊢
        cases hb : indexed b with
        | script id => rfl
        | standard => rfl
        | undocumented => rfl
        | bit =>
          rw [hb] at h
          -- the displacement and the opcode behind it have to be there
          match rest, h with
          | [], h => exact absurd rfl h
          | [_], h => exact absurd rfl h
          | _ :: _ :: _, _ => rfl

/-- Three bytes may leave an instruction open, four never do. -/
theorem length_le_of_recognize_pending {xs : List UInt8} (h : recognize xs = .pending) :
    xs.length ≤ 3 := by
  match xs, h with
  | [], _ => simp
  | [_], _ => simp
  | [_, _], _ => simp
  | [_, _, _], _ => simp
  | op :: b :: d :: sub :: rest, h =>
    exfalso
    simp only [recognize] at h
    cases hp : primary op with
    | script id => simp [hp] at h
    | cb => simp [hp, recognizeBit] at h
    | ed =>
      simp only [hp, recognizeExtended] at h
      split at h <;> simp at h
    | index =>
      simp only [hp, recognizeIndexed] at h
      split at h <;> simp [recognizeIndexedBit] at h

end Opcode

namespace Capture

/-- Only the bytes count. -/
theorem recognize_congr {xs ys : List Access} (h : xs.map Access.value = ys.map Access.value) :
    recognize xs = recognize ys := by
  unfold recognize
  rw [h]

theorem recognize_log_append {xs : List Access} (ys : List Access)
    (h : recognize xs ≠ .pending) : recognize (xs ++ ys) = recognize xs := by
  unfold recognize at h ⊢
  rw [List.map_append]
  exact Opcode.recognize_append _ h

/-! ## Taking the index bytes off -/

theorem splitCollapsing_of_collapse {a : Access} {rest : List Access}
    (h : recognize (a :: rest) = .collapse) :
    splitCollapsing (a :: rest) =
      (a :: (splitCollapsing rest).1, (splitCollapsing rest).2) := by
  rw [splitCollapsing, h]

theorem splitCollapsing_of_ne {xs : List Access} (h : recognize xs ≠ .collapse) :
    splitCollapsing xs = ([], xs) := by
  cases xs with
  | nil => rfl
  | cons a rest =>
    rw [splitCollapsing]
    split
    · rename_i hc; exact absurd hc h
    · rfl

/-- Nothing is lost. -/
theorem splitCollapsing_eq (xs : List Access) :
    (splitCollapsing xs).1 ++ (splitCollapsing xs).2 = xs := by
  induction xs with
  | nil => rfl
  | cons a rest ih =>
    by_cases h : recognize (a :: rest) = .collapse
    · rw [splitCollapsing_of_collapse h, List.cons_append, ih]
    · rw [splitCollapsing_of_ne h, List.nil_append]

/-- What is left does not begin with an index byte that collapses. -/
theorem recognize_splitCollapsing (xs : List Access) :
    recognize (splitCollapsing xs).2 ≠ .collapse := by
  induction xs with
  | nil => simp [splitCollapsing, recognize, Opcode.recognize]
  | cons a rest ih =>
    by_cases h : recognize (a :: rest) = .collapse
    · rw [splitCollapsing_of_collapse h]; exact ih
    · rw [splitCollapsing_of_ne h]; exact h

/-- **Index bytes may be taken off at any time.** Those of `xs` first, and then those that the
accesses behind it reveal. -/
theorem splitCollapsing_append (xs ys : List Access) :
    splitCollapsing (xs ++ ys) =
      ((splitCollapsing xs).1 ++ (splitCollapsing ((splitCollapsing xs).2 ++ ys)).1,
        (splitCollapsing ((splitCollapsing xs).2 ++ ys)).2) := by
  induction xs with
  | nil => simp [splitCollapsing]
  | cons a rest ih =>
    by_cases h : recognize (a :: rest) = .collapse
    · have happ : recognize (a :: (rest ++ ys)) = .collapse := by
        rw [← List.cons_append, recognize_log_append ys (by simp [h]), h]
      rw [splitCollapsing_of_collapse h, List.cons_append, splitCollapsing_of_collapse happ, ih]
      rfl
    · rw [splitCollapsing_of_ne h, List.nil_append]

end Capture

end SpectrumTiming
