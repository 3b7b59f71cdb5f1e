import Mathlib.Algebra.GroupWithZero.Nat
import Mathlib.Data.List.Basic
import SpectrumTiming.Timer

/-!
# What a capture is told, and when

An executor tells a capture three things: accesses, that the optional path is taken, and documented
T-states. `Evidence` is what it has told over some stretch of time, with no regard to the order in
which things of different kinds came, and `Capture.learn` lets a capture take note of it without
charging anything.

The main statement is that a walk may be suspended anywhere: to walk a script, learn more and walk
on charges the same elements, at the same costs in the same order, as to learn everything first and
walk once (`walk_learn`). An element that is charged early is charged for an access that is already
in the log, and what comes later is logged behind it.
-/

namespace SpectrumTiming

/-- What a capture has been told. -/
structure Evidence where
  accesses : List Access := []
  /-- Whether the optional path was said to be taken. -/
  taken : Bool := false
  /-- T-states the instruction is documented to take. -/
  documented : Nat := 0

namespace Evidence

/-- First the one and then the other. -/
def andThen (e f : Evidence) : Evidence where
  accesses := e.accesses ++ f.accesses
  taken := e.taken || f.taken
  documented := e.documented + f.documented

@[simp] theorem empty_andThen (e : Evidence) : andThen {} e = e := by
  simp [andThen]

end Evidence

namespace Timer.Op

/-- The access an operation reports. -/
def access? : Op → Option Access
  | .record a => some a
  | _ => none

/-- The documented T-states an operation reports. -/
def documented : Op → Nat
  | .elapse .documented cycles => cycles
  | _ => 0

/-- The operations that tell a capture something and do nothing else. -/
def informs : Op → Bool
  | .record _ | .confirm | .elapse .documented _ => true
  | _ => false

end Timer.Op

namespace Evidence

/-- What operations tell all together. -/
def ofOps (ops : List Timer.Op) : Evidence where
  accesses := ops.filterMap Timer.Op.access?
  taken := ops.contains .confirm
  documented := (ops.map Timer.Op.documented).sum

@[simp] theorem ofOps_record (a : Access) : ofOps [.record a] = { accesses := [a] } := rfl

@[simp] theorem ofOps_confirm : ofOps [.confirm] = { taken := true } := rfl

@[simp] theorem ofOps_documented (cycles : Nat) :
    ofOps [.elapse .documented cycles] = { documented := cycles } := by
  simp [ofOps, Timer.Op.access?, Timer.Op.documented]

theorem ofOps_append (xs ys : List Timer.Op) :
    ofOps (xs ++ ys) = (ofOps xs).andThen (ofOps ys) := by
  simp [ofOps, andThen, List.contains_eq_mem]

end Evidence

namespace Capture

variable {ι : Type}

/-- Takes note of evidence, without charging anything for it. -/
def learn (c : Capture ι) (e : Evidence) : Capture ι :=
  { c with
    log := c.log ++ e.accesses
    taken := c.taken || e.taken
    predicted := c.predicted + e.documented }

@[simp] theorem learn_empty (c : Capture ι) : c.learn {} = c := by
  simp [learn]

theorem learn_learn (c : Capture ι) (e f : Evidence) :
    (c.learn e).learn f = c.learn (e.andThen f) := by
  simp [learn, Evidence.andThen, List.append_assoc, Bool.or_assoc, UInt32.add_assoc]

/-! ## Which elements can be charged -/

/-- Learning something never locks an element. -/
theorem unlocks_learn {c : Capture ι} (ev : Evidence) {e : Element} (h : c.unlocks e) :
    (c.learn ev).unlocks e := by
  simp only [unlocks, Bool.and_eq_true, Option.all_eq_true, Bool.or_eq_true] at h ⊢
  refine ⟨fun slot hs => ?_, ?_⟩
  · have := h.1 slot hs
    simp only [learn, List.length_append, decide_eq_true_eq] at this ⊢
    omega
  · rcases h.2 with ho | ht
    · exact Or.inl ho
    · exact Or.inr (by simp [learn, ht])

/-- Elements wait for the length of the log and for the optional path, and for nothing else. -/
theorem unlocks_congr {c d : Capture ι} (hlog : c.log.length = d.log.length)
    (htaken : c.taken = d.taken) : c.unlocks = d.unlocks := by
  funext e
  simp [unlocks, hlog, htaken]

theorem slot_lt_of_unlocks {c : Capture ι} {e : Element} {slot : Nat} (h : c.unlocks e)
    (hs : e.slot? = some slot) : slot < c.log.length := by
  simp only [unlocks, hs, Option.all_some, Bool.and_eq_true, decide_eq_true_eq] at h
  exact h.1

theorem unlocks_of_mem_ready {c : Capture ι} {s : Script} {e : Element} (h : e ∈ c.ready s) :
    c.unlocks e := by
  have hall := List.all_takeWhile (p := c.unlocks) (l := s.elements.drop c.cursor)
  exact List.all_eq_true.mp hall e h

theorem ready_length_le (c : Capture ι) (s : Script) :
    (c.ready s).length ≤ s.elements.length - c.cursor := by
  have := (List.takeWhile_sublist (l := s.elements.drop c.cursor) c.unlocks).length_le
  simpa [ready] using this

theorem takeWhile_of_imp {α : Type} {p q : α → Bool} (h : ∀ x, p x → q x) (l : List α) :
    l.takeWhile q = l.takeWhile p ++ (l.drop (l.takeWhile p).length).takeWhile q := by
  induction l with
  | nil => rfl
  | cons x l ih =>
    cases hp : p x with
    | false => simp [List.takeWhile_cons, hp]
    | true => simpa [List.takeWhile_cons, hp, h x hp] using ih

/-! ## Marks and addresses -/

@[simp] theorem length_mark (c : Capture ι) (es : List Element) :
    (c.mark es).log.length = c.log.length := by
  simp [mark]

theorem mark_log_getElem? (c : Capture ι) (es : List Element) (i : Nat) :
    (c.mark es).log[i]? =
      c.log[i]?.map fun a => if es.any (·.slot? = some i) then a.charge else a := by
  simp [mark]

theorem addr_eq (c : Capture ι) (slot : Nat) :
    c.addr slot = ((c.log.map Access.addr)[slot]?).getD 0 := by
  simp [addr]

/-- Marks leave alone whatever charging an access leaves alone. -/
theorem map_mark {β : Type} {f : Access → β} (hf : ∀ a, f a.charge = f a) (c : Capture ι)
    (es : List Element) : (c.mark es).log.map f = c.log.map f := by
  apply List.ext_getElem?
  intro i
  rw [List.getElem?_map, List.getElem?_map, mark_log_getElem?, Option.map_map]
  congr 1
  funext a
  simp only [Function.comp_apply]
  split
  · exact hf a
  · rfl

@[simp] theorem map_addr_mark (c : Capture ι) (es : List Element) :
    (c.mark es).log.map Access.addr = c.log.map Access.addr := map_mark (fun _ => rfl) c es

theorem addr_learn {c : Capture ι} (ev : Evidence) {slot : Nat} (h : slot < c.log.length) :
    (c.learn ev).addr slot = c.addr slot := by
  simp [addr, learn, List.getElem?_append_left h]

/-- Accesses that are logged later are not marked for elements that were charged before. -/
theorem mark_learn {c : Capture ι} (ev : Evidence) {es fs : List Element}
    (h : ∀ e ∈ es, ∀ slot, e.slot? = some slot → slot < c.log.length) :
    ((c.learn ev).mark (es ++ fs)).log = (((c.mark es).learn ev).mark fs).log := by
  apply List.ext_getElem?
  intro i
  simp only [mark_log_getElem?, learn]
  rcases Nat.lt_or_ge i c.log.length with hi | hi
  · rw [List.getElem?_append_left hi, List.getElem?_append_left (by simpa using hi),
      mark_log_getElem?, Option.map_map]
    congr 1
    funext a
    simp only [List.any_append, Function.comp_apply]
    cases es.any (·.slot? = some i) <;> cases fs.any (·.slot? = some i) <;> rfl
  · have hes : es.any (·.slot? = some i) = false := by
      rw [List.any_eq_false]
      intro e he hs
      have := h e he i (by simpa using hs)
      omega
    rw [List.getElem?_append_right hi, List.getElem?_append_right (by simpa using hi), length_mark]
    simp only [List.any_append, hes, Bool.false_or]

/-- An element costs the same wherever its address and the register pairs are the same. -/
theorem costs_congr {c d : Capture ι} {e : Element}
    (haddr : ∀ slot, e.slot? = some slot → c.addr slot = d.addr slot)
    (hpair : c.pair = d.pair) : c.costs e = d.costs e := by
  unfold costs
  unfold Element.slot? at haddr
  cases hs : e.source with
  | memory slot => simp only [haddr slot (by simp [hs])]
  | port slot => simp only [haddr slot (by simp [hs])]
  | pair p => simp only [hpair]
  | idle => rfl

/-! ## Suspending a walk -/

theorem ready_learn (c : Capture ι) (ev : Evidence) (s : Script) :
    (c.learn ev).ready s = c.ready s ++ ((c.walk s).1.learn ev).ready s := by
  have hun : ((c.walk s).1.learn ev).unlocks = (c.learn ev).unlocks :=
    unlocks_congr (by simp [walk, learn, consume]) rfl
  unfold ready
  rw [takeWhile_of_imp (fun e => unlocks_learn (e := e) ev) (s.elements.drop (c.learn ev).cursor),
    hun, List.drop_drop]
  rfl

theorem costs_learn {c : Capture ι} (ev : Evidence) {s : Script} {e : Element}
    (h : e ∈ c.ready s) : (c.learn ev).costs e = c.costs e :=
  costs_congr (fun _ hs => addr_learn ev (slot_lt_of_unlocks (unlocks_of_mem_ready h) hs)) rfl

@[simp] theorem length_walk (c : Capture ι) (s : Script) :
    (c.walk s).1.log.length = c.log.length := length_mark c _

theorem costs_walk_learn (c : Capture ι) (ev : Evidence) (s : Script) :
    ((c.walk s).1.learn ev).costs = (c.learn ev).costs := by
  funext e
  refine costs_congr (fun slot _ => ?_) rfl
  have hlog : ((c.walk s).1.learn ev).log = (c.mark (c.ready s)).log ++ ev.accesses := rfl
  rw [addr_eq, addr_eq, hlog, List.map_append, map_addr_mark, ← List.map_append]
  rfl

/-- Marks do not change what an element costs. -/
theorem costs_walk (c : Capture ι) (s : Script) : (c.walk s).1.costs = c.costs := by
  have hsame := costs_walk_learn c {} s
  rwa [learn_empty, learn_empty] at hsame

/-- **A walk may be suspended anywhere.** Walking, learning more and walking on is learning
everything first and walking once. -/
theorem walk_learn (c : Capture ι) (ev : Evidence) (s : Script) :
    (c.learn ev).walk s =
      ((((c.walk s).1.learn ev).walk s).1,
        (c.walk s).2 ++ (((c.walk s).1.learn ev).walk s).2) := by
  have hcosts : ((c.learn ev).ready s).flatMap (c.learn ev).costs =
      (c.walk s).2 ++ (((c.walk s).1.learn ev).walk s).2 := by
    have hfirst : (c.ready s).flatMap (c.learn ev).costs = (c.ready s).flatMap c.costs :=
      List.flatMap_congr fun e he => costs_learn ev he
    rw [ready_learn, List.flatMap_append, hfirst, ← costs_walk_learn c ev s]
    rfl
  have hlog : ((c.learn ev).mark ((c.learn ev).ready s)).log =
      (((c.walk s).1.learn ev).mark (((c.walk s).1.learn ev).ready s)).log := by
    rw [ready_learn]
    exact mark_learn ev fun e he slot hs => slot_lt_of_unlocks (unlocks_of_mem_ready he) hs
  refine Prod.ext ?_ hcosts
  -- both sides differ from `c` in the log, the sums, the cursor and what was learned
  have hsum : (c.learn ev).consumed +
      UInt32.ofNat (Cost.total (((c.learn ev).ready s).flatMap (c.learn ev).costs)) =
      (((c.walk s).1.learn ev).walk s).1.consumed := by
    rw [hcosts, Cost.total_append, sum_add]
    rfl
  have hcursor : (c.learn ev).cursor + ((c.learn ev).ready s).length =
      (((c.walk s).1.learn ev).walk s).1.cursor := by
    rw [ready_learn, List.length_append, ← Nat.add_assoc]
    rfl
  show ({ ((c.learn ev).mark ((c.learn ev).ready s)).consume _ with
    cursor := (c.learn ev).cursor + ((c.learn ev).ready s).length } : Capture ι) = _
  simp only [consume, mark] at hlog hsum hcursor ⊢
  rw [hsum, hcursor, hlog]
  rfl

end Capture

end SpectrumTiming
