import SpectrumTiming.Proofs.Evidence
import SpectrumTiming.Proofs.Recognition

/-!
# Settling early and settling late

A capture settles whenever it learns something: it takes off the index bytes that collapse, finds the
script once the bytes tell it, and walks as far as it can. None of this depends on when it happens.
To settle, learn more and settle again is to learn everything first and settle once
(`settle_learn`), in what is charged and in the order of it.
-/

namespace SpectrumTiming

namespace Capture

/-! ## Finding the script -/

theorem collapse_of_ne {c : Capture ScriptNumber} (h : recognize c.log ≠ .collapse) :
    c.collapse = (c, []) := by
  simp [collapse, splitCollapsing_of_ne h, consume]

theorem length_collapse_le (c : Capture ScriptNumber) :
    c.collapse.1.log.length ≤ c.log.length := by
  have hsplit := congrArg List.length (splitCollapsing_eq c.log)
  rw [List.length_append] at hsplit
  show (splitCollapsing c.log).2.length ≤ c.log.length
  omega

theorem collapse_learn (c : Capture ScriptNumber) (ev : Evidence) :
    (c.learn ev).collapse =
      ((c.collapse.1.learn ev).collapse.1, c.collapse.2 ++ (c.collapse.1.learn ev).collapse.2) := by
  have hsplit := splitCollapsing_append c.log ev.accesses
  simp only [collapse, learn, consume, hsplit, List.map_append, List.length_append, Nat.mul_add,
    sum_add]

theorem assign_of_script {c : Capture ScriptNumber} {id : ScriptNumber} {taken : Bool}
    (h : recognize c.log = .script id taken) :
    c.assign = { c with script? := some id, taken := c.taken || taken } := by
  simp [assign, h]

theorem assign_of_pending {c : Capture ScriptNumber} (h : recognize c.log = .pending) :
    c.assign = c := by
  simp [assign, h]

theorem resolve_of_some {c : Capture ScriptNumber} {i : ScriptNumber} (h : c.script? = some i) :
    c.resolve = (c, []) := by
  simp [resolve, h]

theorem resolve_of_none {c : Capture ScriptNumber} (h : c.script? = none) :
    c.resolve = (c.collapse.1.assign, c.collapse.2) := by
  simp [resolve, h]

/-- The index bytes in front of the log, and what the rest of it tells. -/
theorem resolve_cases {c : Capture ScriptNumber} (h : c.script? = none) :
    (recognize (splitCollapsing c.log).2 = .pending ∧ c.resolve = c.collapse) ∨
      ∃ id taken, recognize (splitCollapsing c.log).2 = .script id taken ∧
        c.resolve = ({ c.collapse.1 with script? := some id, taken := c.taken || taken },
          c.collapse.2) := by
  rw [resolve_of_none h]
  cases hr : recognize (splitCollapsing c.log).2 with
  | pending => exact Or.inl ⟨rfl, by rw [assign_of_pending hr]⟩
  | script id taken => exact Or.inr ⟨id, taken, rfl, by rw [assign_of_script hr]; rfl⟩
  | collapse => exact absurd hr (recognize_splitCollapsing c.log)

theorem resolve_learn (c : Capture ScriptNumber) (ev : Evidence) :
    (c.learn ev).resolve =
      ((c.resolve.1.learn ev).resolve.1, c.resolve.2 ++ (c.resolve.1.learn ev).resolve.2) := by
  cases h : c.script? with
  | some id => rw [resolve_of_some h]; rfl
  | none =>
    have h' : (c.learn ev).script? = none := h
    rcases resolve_cases h with ⟨_, hres⟩ | ⟨id, taken, hr, hres⟩
    · have hc : (c.collapse.1.learn ev).script? = none := h
      rw [hres, resolve_of_none h', resolve_of_none hc, collapse_learn]
    · -- the script is found already, so nothing that is learned later can collapse
      have happ : recognize (c.collapse.1.learn ev).log = .script id taken := by
        show recognize ((splitCollapsing c.log).2 ++ ev.accesses) = _
        rw [recognize_log_append _ (by simp [hr]), hr]
      rw [hres, resolve_of_none h', collapse_learn, collapse_of_ne (by simp [happ]),
        assign_of_script happ, resolve_of_some (i := id) rfl]
      simp [learn, collapse, consume, Bool.or_right_comm]

/-! ## Settling -/

theorem settle_of_none {c : Capture ScriptNumber} (v : Variant)
    (h : c.resolve.1.script? = none) : settle v c = c.resolve := by
  simp [settle, h]

theorem settle_of_some {c : Capture ScriptNumber} {id : ScriptNumber} (v : Variant)
    (h : c.resolve.1.script? = some id) :
    settle v c =
      ((c.resolve.1.walk (Standard.script v id)).1,
        c.resolve.2 ++ (c.resolve.1.walk (Standard.script v id)).2) := by
  simp [settle, h]

/-- With its script known, a capture settles by walking it. -/
theorem settle_of_known {c : Capture ScriptNumber} {id : ScriptNumber} (v : Variant)
    (h : c.script? = some id) : settle v c = c.walk (Standard.script v id) := by
  rw [settle_of_some v (by rw [resolve_of_some h]; exact h), resolve_of_some h]
  rfl

/-- **It does not matter when a capture settles.** -/
theorem settle_learn (v : Variant) (c : Capture ScriptNumber) (ev : Evidence) :
    settle v (c.learn ev) =
      ((settle v ((settle v c).1.learn ev)).1,
        (settle v c).2 ++ (settle v ((settle v c).1.learn ev)).2) := by
  cases h : c.resolve.1.script? with
  | none =>
    rw [settle_of_none v h]
    have hres := resolve_learn c ev
    cases hq : (c.resolve.1.learn ev).resolve.1.script? with
    | none =>
      rw [settle_of_none v hq, settle_of_none v (by rw [hres]; exact hq), hres]
    | some id =>
      rw [settle_of_some v hq, settle_of_some v (by rw [hres]; exact hq), hres, List.append_assoc]
  | some id =>
    have hres : (c.learn ev).resolve = (c.resolve.1.learn ev, c.resolve.2) := by
      rw [resolve_learn, resolve_of_some (c := c.resolve.1.learn ev) h]
      simp
    have hwalk : ((c.resolve.1.walk (Standard.script v id)).1.learn ev).script? = some id := h
    rw [settle_of_some v h, settle_of_known v hwalk, settle_of_some v (by rw [hres]; exact h), hres,
      walk_learn, List.append_assoc]

/-- A capture that has charged all that its log allows. -/
def Settled (v : Variant) (c : Capture ScriptNumber) : Prop := settle v c = (c, [])

theorem settled_settle (v : Variant) (c : Capture ScriptNumber) :
    (settle v c).1.Settled v := by
  have h := settle_learn v c {}
  simp only [learn_empty] at h
  have hcosts : (settle v (settle v c).1).2 = [] := by
    simpa using congrArg Prod.snd h
  exact Prod.ext (congrArg Prod.fst h).symm hcosts

theorem settled_begin (v : Variant) (tstate : Nat) (bc ir : UInt16) :
    (begin tstate bc ir : Capture ScriptNumber).Settled v := rfl

/-- While the script of a settled capture is unknown, its log tells nothing. -/
theorem Settled.pending {v : Variant} {c : Capture ScriptNumber} (h : c.Settled v)
    (hs : c.script? = none) : recognize c.log = .pending := by
  rcases resolve_cases hs with ⟨hr, hres⟩ | ⟨id, taken, _, hres⟩
  · have hn : c.resolve.1.script? = none := by rw [hres]; exact hs
    have hset : c.collapse = (c, []) := by rw [← hres, ← settle_of_none v hn]; exact h
    have hlog : (splitCollapsing c.log).2 = c.log := congrArg (fun q => q.1.log) hset
    rwa [hlog] at hr
  · exfalso
    have hn : c.resolve.1.script? = some id := by rw [hres]
    have hset := congrArg (fun q => q.1.script?) ((settle_of_some v hn).symm.trans h)
    simp only [walk, mark, consume] at hset
    rw [hn, hs] at hset
    exact absurd hset (by simp)

/-- What settling leaves alone. -/
theorem settle_frame (v : Variant) (c : Capture ScriptNumber) :
    (settle v c).1.active = c.active ∧ (settle v c).1.start = c.start ∧
      (settle v c).1.bc = c.bc ∧ (settle v c).1.ir = c.ir ∧
      (settle v c).1.predicted = c.predicted := by
  have hres : c.resolve.1.active = c.active ∧ c.resolve.1.start = c.start ∧
      c.resolve.1.bc = c.bc ∧ c.resolve.1.ir = c.ir ∧ c.resolve.1.predicted = c.predicted := by
    cases h : c.script? with
    | some id => rw [resolve_of_some h]; simp
    | none =>
      rcases resolve_cases h with ⟨_, hres⟩ | ⟨id, taken, _, hres⟩ <;> rw [hres] <;>
        simp [collapse, consume]
  cases h : c.resolve.1.script? with
  | none => rw [settle_of_none v h]; exact hres
  | some id => rw [settle_of_some v h]; exact hres

/-- Settling never makes the log longer. -/
theorem settle_length_le (v : Variant) (c : Capture ScriptNumber) :
    (settle v c).1.log.length ≤ c.log.length := by
  have hres : c.resolve.1.log.length ≤ c.log.length := by
    cases h : c.script? with
    | some id => exact Nat.le_of_eq (by rw [resolve_of_some h])
    | none =>
      rcases resolve_cases h with ⟨_, hres⟩ | ⟨id, taken, _, hres⟩ <;> rw [hres] <;>
        exact length_collapse_le c
  cases h : c.resolve.1.script? with
  | none => rw [settle_of_none v h]; exact hres
  | some id =>
    rw [settle_of_some v h]
    rw [length_walk]
    exact hres

/-- Once a settled log is longer than three, its script is known and nothing is taken off it. -/
theorem Settled.length_learn {v : Variant} {c : Capture ScriptNumber} (h : c.Settled v)
    (hlen : 3 < c.log.length) (ev : Evidence) :
    (settle v (c.learn ev)).1.log.length = c.log.length + ev.accesses.length := by
  cases hs : c.script? with
  | none =>
    have := Opcode.length_le_of_recognize_pending (h.pending hs)
    rw [List.length_map] at this
    omega
  | some id =>
    have hs' : (c.learn ev).script? = some id := hs
    rw [settle_of_known v hs', length_walk]
    simp [learn]

/-- T-states that are added to the sums change nothing about settling. -/
theorem settle_sums (v : Variant) (c : Capture ScriptNumber) (documented base : Nat) :
    settle v ((c.predict documented).consume base) =
      (((settle v c).1.predict documented).consume base, (settle v c).2) := by
  have hcol : ((c.predict documented).consume base).collapse =
      ((c.collapse.1.predict documented).consume base, c.collapse.2) := by
    simp only [collapse, predict, consume, sum_right_comm]
  have hwalk (d : Capture ScriptNumber) (s : Script) :
      ((d.predict documented).consume base).walk s =
        (((d.walk s).1.predict documented).consume base, (d.walk s).2) := by
    refine Prod.ext ?_ rfl
    show ({ (d.walk s).1 with
      predicted := d.predicted + documented
      consumed := d.consumed + base + Cost.total (d.walk s).2 } : Capture ScriptNumber) = _
    rw [sum_right_comm]
    rfl
  have hres : ((c.predict documented).consume base).resolve =
      ((c.resolve.1.predict documented).consume base, c.resolve.2) := by
    cases h : c.script? with
    | some id =>
      rw [resolve_of_some h, resolve_of_some (c := (c.predict documented).consume base) h]
    | none =>
      have h' : ((c.predict documented).consume base).script? = none := h
      rw [resolve_of_none h, resolve_of_none h', hcol]
      cases hr : recognize c.collapse.1.log <;> simp [assign, predict, consume, hr]
  cases h : c.resolve.1.script? with
  | none => rw [settle_of_none v h, settle_of_none v (by rw [hres]; exact h), hres]
  | some id =>
    rw [settle_of_some v h, settle_of_some v (by rw [hres]; exact h), hres, hwalk]

/-- Documented T-states are only added up. -/
theorem settle_predict (v : Variant) (c : Capture ScriptNumber) (cycles : Nat) :
    settle v (c.predict cycles) = ((settle v c).1.predict cycles, (settle v c).2) := by
  simpa using settle_sums v c cycles 0

theorem settle_consume (v : Variant) (c : Capture ScriptNumber) (cycles : Nat) :
    settle v (c.consume cycles) = ((settle v c).1.consume cycles, (settle v c).2) := by
  simpa using settle_sums v c 0 cycles

/-! ## What settling charges -/

theorem total_index (xs : List Access) :
    Cost.total (xs.map fun a => .memory a.addr indexCycles) = indexCycles * xs.length := by
  induction xs with
  | nil => rfl
  | cons a xs ih =>
    rw [List.map_cons, Cost.total, ih, List.length_cons, Nat.mul_succ, Nat.add_comm]
    rfl

theorem total_collapse (c : Capture ScriptNumber) :
    c.collapse.1.consumed = c.consumed + UInt32.ofNat (Cost.total c.collapse.2) := by
  show c.consumed + UInt32.ofNat (indexCycles * (splitCollapsing c.log).1.length) = _
  rw [← total_index]
  rfl

/-- What settling charges is what it costs. -/
theorem consumed_settle (v : Variant) (c : Capture ScriptNumber) :
    (settle v c).1.consumed = c.consumed + UInt32.ofNat (Cost.total (settle v c).2) := by
  have hres : c.resolve.1.consumed = c.consumed + UInt32.ofNat (Cost.total c.resolve.2) := by
    cases h : c.script? with
    | some id => rw [resolve_of_some h]; exact (UInt32.add_zero c.consumed).symm
    | none =>
      rcases resolve_cases h with ⟨_, hres⟩ | ⟨id, taken, _, hres⟩ <;> rw [hres] <;>
        exact total_collapse c
  cases h : c.resolve.1.script? with
  | none => rw [settle_of_none v h]; exact hres
  | some id =>
    rw [settle_of_some v h, Cost.total_append, sum_add, ← hres]
    rfl

end Capture

end SpectrumTiming
