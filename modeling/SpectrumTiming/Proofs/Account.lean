import SpectrumTiming.Proofs.Scripts
import SpectrumTiming.Proofs.Settling

/-!
# What a capture owes, and what it has paid

The five moving parts of a capture (its log, the marks on it, the script, the cursor and the charged
T-states) tell one story. Every access that was reported is in the log, or was an index byte and has
been taken off it and paid for. Until the script is known nothing else has been charged. From then
on the cursor says it all: the elements before it have been charged, each for its own T-states, and
their accesses are the ones that are marked; the element at it waits for something.

What was reported of the instruction is not all to be seen in the capture, and what was charged is
to be seen in 32 bits only. A `Tally` keeps count of both from outside.
-/

namespace SpectrumTiming

open Capture

theorem getElem?_length_takeWhile {α : Type} {p : α → Bool} {l : List α} {x : α}
    (h : l[(l.takeWhile p).length]? = some x) : p x = false := by
  induction l with
  | nil => simp at h
  | cons y l ih =>
    cases hy : p y with
    | false =>
      simp only [List.takeWhile_cons, hy, Bool.false_eq_true, if_false, List.length_nil,
        List.getElem?_cons_zero, Option.some.injEq] at h
      rw [← h]
      exact hy
    | true =>
      simp only [List.takeWhile_cons, hy, if_true, List.length_cons, List.getElem?_cons_succ] at h
      exact ih h

/-- T-states that are charged for an element. A port cycle is paid once, whatever the factor. -/
def Element.charge (e : Element) : Nat := if e.isPort then Script.portCycles else e.total

theorem Element.charge_eq_total (e : Element) (h : e.isPort = true → e.total = Script.portCycles) :
    e.charge = e.total := by
  unfold charge
  split
  · rename_i hport
    exact (h hport).symm
  · rfl

namespace Capture

variable {ι : Type}

/-- The script has been charged up to the cursor, on top of `paid`, and no further. That comes to
`charged` in all. -/
structure Walked (s : Script) (paid charged : Nat) (c : Capture ι) : Prop where
  cursor_le : c.cursor ≤ s.size
  charged_eq : charged = paid + ((s.elements.take c.cursor).map Element.total).sum
  /-- Nothing was charged for an access that is not there. -/
  logged : ∀ e ∈ s.elements.take c.cursor, ∀ slot, e.slot? = some slot → slot < c.log.length
  /-- An access is marked exactly if an element that was charged names its slot. -/
  marked : ∀ i a, c.log[i]? = some a →
    (a.marks.charged = true ↔ ∃ e ∈ s.elements.take c.cursor, e.slot? = some i)

/-- The element at the cursor waits for an access or for the optional path. -/
def Stopped (s : Script) (c : Capture ι) : Prop :=
  ∀ e, s.elements[c.cursor]? = some e →
    (∃ slot, e.slot? = some slot ∧ c.log.length ≤ slot) ∨ (e.optional = true ∧ c.taken = false)

theorem Walked.start {s : Script} {paid : Nat} {c : Capture ι} (hcursor : c.cursor = 0)
    (hmarks : ∀ a ∈ c.log, a.marks.charged = false) : c.Walked s paid paid where
  cursor_le := by rw [hcursor]; exact Nat.zero_le _
  charged_eq := by simp [hcursor]
  logged := by intro e he; simp [hcursor] at he
  marked := by
    intro i a ha
    have hfalse := hmarks a (List.mem_of_getElem? ha)
    simp [hcursor, hfalse]

theorem Walked.push {s : Script} {paid charged : Nat} {c : Capture ι} (h : c.Walked s paid charged)
    {a : Access} (ha : a.marks.charged = false) : (c.push a).Walked s paid charged where
  cursor_le := h.cursor_le
  charged_eq := h.charged_eq
  logged := by
    intro e he slot hs
    have := h.logged e he slot hs
    simp only [Capture.push, List.length_append, List.length_singleton]
    omega
  marked := by
    intro i b hb
    simp only [Capture.push] at hb ⊢
    rcases Nat.lt_or_ge i c.log.length with hi | hi
    · rw [List.getElem?_append_left hi] at hb
      exact h.marked i b hb
    · -- the new access: no element before the cursor can have named its slot
      have hb' : b = a := by
        rw [List.getElem?_append_right hi, List.getElem?_singleton] at hb
        split at hb
        · exact (Option.some.inj hb).symm
        · exact absurd hb (by simp)
      subst hb'
      rw [ha]
      refine ⟨fun hf => absurd hf (by simp), ?_⟩
      rintro ⟨e, he, hs⟩
      have := h.logged e he i hs
      omega

/-- What is paid on the side is owed on the side. -/
theorem Walked.congr {s : Script} {paid charged : Nat} {c d : Capture ι}
    (h : c.Walked s paid charged) (hlog : d.log = c.log) (hcursor : d.cursor = c.cursor) (x : Nat) :
    d.Walked s (paid + x) (charged + x) where
  cursor_le := by rw [hcursor]; exact h.cursor_le
  charged_eq := by rw [hcursor, h.charged_eq, Nat.add_right_comm]
  logged := by rw [hcursor, hlog]; exact h.logged
  marked := by rw [hcursor, hlog]; exact h.marked

theorem total_replicate (n : Nat) (x : Cost) : Cost.total (List.replicate n x) = x.cycles * n := by
  induction n with
  | zero => rfl
  | succ n ih => rw [List.replicate_succ, Cost.total, ih, Nat.mul_succ, Nat.add_comm]

/-- What an element costs does not depend on its address. -/
theorem total_costs_eq_charge (c : Capture ι) (e : Element) :
    Cost.total (c.costs e) = e.charge := by
  unfold costs Element.charge Element.isPort
  cases e.source with
  | memory slot => exact total_replicate ..
  | port slot => rfl
  | pair p => exact total_replicate ..
  | idle => exact total_replicate ..

theorem total_flatMap_costs_eq_charge (c : Capture ι) (es : List Element) :
    Cost.total (es.flatMap c.costs) = (es.map Element.charge).sum := by
  induction es with
  | nil => rfl
  | cons e es ih =>
    rw [List.flatMap_cons, Cost.total_append, total_costs_eq_charge, ih, List.map_cons,
      List.sum_cons]

theorem total_flatMap_costs (c : Capture ι) {es : List Element}
    (hport : ∀ e ∈ es, e.isPort = true → e.total = Script.portCycles) :
    Cost.total (es.flatMap c.costs) = (es.map Element.total).sum := by
  rw [total_flatMap_costs_eq_charge, List.map_congr_left fun e he => e.charge_eq_total (hport e he)]

/-- A walk moves the cursor over the elements it charges. -/
theorem take_cursor_walk (c : Capture ι) (s : Script) :
    s.elements.take (c.walk s).1.cursor = s.elements.take c.cursor ++ c.ready s := by
  have hpre : c.ready s <+: s.elements.drop c.cursor := List.takeWhile_prefix _
  show s.elements.take (c.cursor + (c.ready s).length) = _
  rw [List.take_add, ← List.prefix_iff_eq_take.mp hpre]

/-- **A walk keeps the account**, and goes on until the next element is not there yet. -/
theorem Walked.walk {s : Script} {paid charged : Nat} {c : Capture ι} (h : c.Walked s paid charged)
    (hport : ∀ e ∈ s.elements, e.isPort = true → e.total = Script.portCycles) :
    (c.walk s).1.Walked s paid (charged + Cost.total (c.walk s).2) ∧ (c.walk s).1.Stopped s := by
  have htake := take_cursor_walk c s
  refine ⟨⟨?_, ?_, ?_, ?_⟩, ?_⟩
  · have := ready_length_le c s
    have := h.cursor_le
    show c.cursor + (c.ready s).length ≤ s.size
    unfold Script.size at *
    omega
  · have hsub : ∀ e ∈ c.ready s, e.isPort = true → e.total = Script.portCycles := by
      intro e he
      exact hport e (List.drop_subset _ _ ((List.takeWhile_sublist _).subset he))
    have hsum := total_flatMap_costs c hsub
    rw [htake, List.map_append, List.sum_append, ← Nat.add_assoc, ← h.charged_eq, ← hsum]
    rfl
  · intro e he slot hs
    rw [htake] at he
    rw [length_walk]
    rcases List.mem_append.mp he with he | he
    · exact h.logged e he slot hs
    · exact slot_lt_of_unlocks (unlocks_of_mem_ready he) hs
  · intro i b hb
    have hb' : (c.mark (c.ready s)).log[i]? = some b := hb
    rw [mark_log_getElem?] at hb'
    obtain ⟨a, ha, rfl⟩ := Option.map_eq_some_iff.mp hb'
    have hbefore := h.marked i a ha
    rw [htake]
    simp only [List.mem_append]
    by_cases hany : (c.ready s).any (·.slot? = some i) = true
    · rw [if_pos hany]
      obtain ⟨e, he, hs⟩ := List.any_eq_true.mp hany
      exact ⟨fun _ => ⟨e, Or.inr he, by simpa using hs⟩, fun _ => rfl⟩
    · rw [if_neg hany, hbefore]
      constructor
      · rintro ⟨e, he, hs⟩
        exact ⟨e, Or.inl he, hs⟩
      · rintro ⟨e, he | he, hs⟩
        · exact ⟨e, he, hs⟩
        · exact absurd (List.any_eq_true.mpr ⟨e, he, by simpa using hs⟩) hany
  · intro e he
    have hnext : (s.elements.drop c.cursor)[(c.ready s).length]? = some e := by
      rw [List.getElem?_drop]
      exact he
    have hlock : c.unlocks e = false := getElem?_length_takeWhile hnext
    rw [length_walk]
    unfold unlocks at hlock
    rcases Bool.and_eq_false_iff.mp hlock with hslot | hopt
    · left
      cases hs : e.slot? with
      | none => rw [hs] at hslot; simp at hslot
      | some slot =>
        rw [hs] at hslot
        exact ⟨slot, rfl, by simpa using hslot⟩
    · refine Or.inr (show e.optional = true ∧ c.taken = false from ?_)
      simpa [Bool.or_eq_false_iff] using hopt

end Capture

/-! ## Keeping count -/

/-- What was reported of an instruction, and what became of it. -/
structure Tally where
  /-- Accesses that were reported. -/
  accesses : Nat := 0
  /-- Index bytes that were taken off the log. -/
  dropped : Nat := 0
  /-- T-states that were reported as charged already. -/
  base : Nat := 0
  /-- T-states that were charged in all, however many. -/
  charged : Nat := 0
deriving DecidableEq

namespace Capture

/-- The index bytes that settling takes off the log. -/
def collapsing (c : Capture ScriptNumber) : List Access :=
  match c.script? with
  | some _ => []
  | none => (splitCollapsing c.log).1

/-- The account of a capture, whether or not it has settled. -/
structure Charged (v : Variant) (n : Tally) (c : Capture ScriptNumber) : Prop where
  /-- Every access is in the log or has been taken off it. -/
  accesses : c.log.length + n.dropped = n.accesses
  /-- The capture shows what was charged, in 32 bits. -/
  consumed : c.consumed = UInt32.ofNat n.charged
  /-- Without a script only index bytes are paid for. -/
  unknown : c.script? = none → c.cursor = 0 ∧ (∀ a ∈ c.log, a.marks.charged = false) ∧
    n.charged = indexCycles * n.dropped + n.base
  known : ∀ id, c.script? = some id →
    c.Walked (Standard.script v id) (indexCycles * n.dropped + n.base) n.charged

/-- The account of a capture that has settled. -/
structure Accounted (v : Variant) (n : Tally) (c : Capture ScriptNumber) : Prop
    extends Charged v n c where
  fits : c.log.length ≤ logCapacity
  /-- Without a script the log tells nothing yet. -/
  pending : c.script? = none → recognize c.log = .pending
  stopped : ∀ id, c.script? = some id → c.Stopped (Standard.script v id)

theorem accounted_begin (v : Variant) (tstate : Nat) (bc ir : UInt16) :
    Accounted v {} (begin tstate bc ir) where
  accesses := rfl
  consumed := rfl
  unknown := by intro _; exact ⟨rfl, by simp [begin], rfl⟩
  known := by intro id h; simp [begin] at h
  fits := Nat.zero_le _
  pending := by intro _; rfl
  stopped := by intro id h; simp [begin] at h

theorem Charged.push {v : Variant} {n : Tally} {c : Capture ScriptNumber} (h : c.Charged v n)
    {a : Access} (ha : a.marks.charged = false) :
    (c.push a).Charged v { n with accesses := n.accesses + 1 } where
  accesses := by
    have := h.accesses
    simp only [Capture.push, List.length_append, List.length_singleton]
    omega
  consumed := h.consumed
  unknown := by
    intro hs
    obtain ⟨hcursor, hmarks, hcharged⟩ := h.unknown hs
    refine ⟨hcursor, ?_, hcharged⟩
    intro b hb
    rcases List.mem_append.mp hb with hb | hb
    · exact hmarks b hb
    · rw [List.mem_singleton.mp hb]
      exact ha
  known := fun id hs => (h.known id hs).push ha

theorem Charged.confirm {v : Variant} {n : Tally} {c : Capture ScriptNumber} (h : c.Charged v n) :
    ({ c with taken := true } : Capture ScriptNumber).Charged v n where
  accesses := h.accesses
  consumed := h.consumed
  unknown := h.unknown
  known := by
    intro id hs
    have hlog : ({ c with taken := true } : Capture ScriptNumber).log = c.log := rfl
    exact (h.known id hs).congr hlog rfl 0

/-- Taking index bytes off pays for each of them. -/
theorem Charged.collapse {v : Variant} {n : Tally} {c : Capture ScriptNumber} (h : c.Charged v n)
    (hs : c.script? = none) :
    c.collapse.1.Charged v
      { n with
        dropped := n.dropped + (splitCollapsing c.log).1.length
        charged := n.charged + Cost.total c.collapse.2 } where
  accesses := by
    have hsplit := congrArg List.length (splitCollapsing_eq c.log)
    have := h.accesses
    rw [List.length_append] at hsplit
    show (splitCollapsing c.log).2.length + _ = _
    simp only
    omega
  consumed := by rw [total_collapse, h.consumed, ← UInt32.ofNat_add]
  unknown := by
    intro _
    obtain ⟨hcursor, hmarks, hcharged⟩ := h.unknown hs
    refine ⟨hcursor, ?_, ?_⟩
    · intro a ha
      refine hmarks a ?_
      rw [← splitCollapsing_eq c.log]
      exact List.mem_append_right _ ha
    · show n.charged + Cost.total ((splitCollapsing c.log).1.map _) = _
      rw [hcharged, total_index, Nat.mul_add, Nat.add_right_comm]
  known := by
    intro id hid
    have hnone : c.collapse.1.script? = none := hs
    rw [hnone] at hid
    exact absurd hid (by simp)

/-- With the script known, the rest is one walk. -/
theorem Charged.walk {v : Variant} {n : Tally} {c : Capture ScriptNumber} {id : ScriptNumber}
    (h : c.Charged v n) (hs : c.script? = some id) (hfits : c.log.length ≤ logCapacity) :
    (c.walk (Standard.script v id)).1.Accounted v
      { n with charged := n.charged + Cost.total (c.walk (Standard.script v id)).2 } := by
  obtain ⟨hwalk, hstop⟩ := (h.known id hs).walk (Standard.regular v id).port_total
  have hsum : (c.walk (Standard.script v id)).1.consumed =
      UInt32.ofNat (n.charged + Cost.total (c.walk (Standard.script v id)).2) := by
    rw [UInt32.ofNat_add, ← h.consumed]
    rfl
  have hid : (c.walk (Standard.script v id)).1.script? = some id := hs
  refine ⟨⟨by rw [length_walk]; exact h.accesses, hsum, ?_, ?_⟩,
    by rw [length_walk]; exact hfits, ?_, ?_⟩
  · intro hnone
    rw [hid] at hnone
    exact absurd hnone (by simp)
  · intro id' hid'
    rw [hid] at hid'
    cases hid'
    exact hwalk
  · intro hnone
    rw [hid] at hnone
    exact absurd hnone (by simp)
  · intro id' hid'
    rw [hid] at hid'
    cases hid'
    exact hstop

/-- Nothing of a script has been charged when it is found. -/
theorem Charged.found {v : Variant} {n : Tally} {c : Capture ScriptNumber} (h : c.Charged v n)
    (hs : c.script? = none) (id : ScriptNumber) (taken : Bool) :
    ({ c with script? := some id, taken } : Capture ScriptNumber).Charged v n := by
  obtain ⟨hcursor, hmarks, hcharged⟩ := h.unknown hs
  refine ⟨h.accesses, h.consumed, fun hnone => absurd hnone (by simp), ?_⟩
  intro id' _
  rw [hcharged]
  exact Walked.start hcursor hmarks

/-- **Settling keeps the account.** -/
theorem Charged.settle {v : Variant} {n : Tally} {c : Capture ScriptNumber} (h : c.Charged v n)
    (hfits : c.log.length ≤ logCapacity) :
    (settle v c).1.Accounted v
      { n with
        dropped := n.dropped + c.collapsing.length
        charged := n.charged + Cost.total (settle v c).2 } := by
  cases hs : c.script? with
  | some id =>
    have hcol : c.collapsing = [] := by simp [collapsing, hs]
    rw [hcol, settle_of_known v hs]
    exact h.walk hs hfits
  | none =>
    have hcol : c.collapsing = (splitCollapsing c.log).1 := by simp [collapsing, hs]
    have hcollapse := h.collapse hs
    have hroom : c.collapse.1.log.length ≤ logCapacity :=
      Nat.le_trans (length_collapse_le c) hfits
    rw [hcol]
    rcases resolve_cases hs with ⟨hr, hres⟩ | ⟨id, taken, _, hres⟩
    · -- the log tells nothing yet
      have hnone : c.resolve.1.script? = none := by rw [hres]; exact hs
      rw [settle_of_none v hnone, hres]
      refine ⟨hcollapse, hroom, fun _ => hr, ?_⟩
      intro id hid
      exact absurd (hid.symm.trans hs) (by simp)
    · have hsome : c.resolve.1.script? = some id := by rw [hres]
      rw [settle_of_some v hsome, hres]
      have hwalk := (hcollapse.found hs id (c.taken || taken)).walk rfl hroom
      rwa [Nat.add_assoc, ← Cost.total_append] at hwalk

/-- Operations that leave the log, the script and the cursor alone. -/
theorem Charged.congr {v : Variant} {n : Tally} {c d : Capture ScriptNumber} {x : Nat}
    (h : c.Charged v n) (hlog : d.log = c.log) (hscript : d.script? = c.script?)
    (hcursor : d.cursor = c.cursor) (hconsumed : d.consumed = c.consumed + UInt32.ofNat x) :
    d.Charged v { n with base := n.base + x, charged := n.charged + x } where
  accesses := by rw [hlog]; exact h.accesses
  consumed := by rw [hconsumed, h.consumed, ← UInt32.ofNat_add]
  unknown := by
    intro hs
    obtain ⟨h1, h2, h3⟩ := h.unknown (hscript.symm.trans hs)
    exact ⟨hcursor.trans h1, by rw [hlog]; exact h2, by rw [h3, Nat.add_assoc]⟩
  known := by
    intro id hs
    rw [← Nat.add_assoc]
    exact (h.known id (hscript.symm.trans hs)).congr hlog hcursor x

theorem Accounted.congr {v : Variant} {n : Tally} {c d : Capture ScriptNumber} {x : Nat}
    (h : c.Accounted v n) (hlog : d.log = c.log) (hscript : d.script? = c.script?)
    (hcursor : d.cursor = c.cursor) (htaken : d.taken = c.taken)
    (hconsumed : d.consumed = c.consumed + UInt32.ofNat x) :
    d.Accounted v { n with base := n.base + x, charged := n.charged + x } where
  toCharged := h.toCharged.congr hlog hscript hcursor hconsumed
  fits := by rw [hlog]; exact h.fits
  pending := by rw [hlog, hscript]; exact h.pending
  stopped := by
    intro id hs e he
    rw [hcursor] at he
    rw [hlog, htaken]
    exact h.stopped id (hscript.symm.trans hs) e he

end Capture

end SpectrumTiming
