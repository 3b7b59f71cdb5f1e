import SpectrumTiming.Proofs.Checked
import SpectrumTiming.Proofs.Encoding

/-!
# IX and IY

The instructions on IX begin with `DD`, those on IY with `FD`, and that is all that tells them apart.
The classes of opcodes do not tell the two bytes apart, so nothing that is made from classes does.

The argument is about any change of values that keeps every class (`KeepsClass`). A timer does not
notice it: whatever it does to the clock and to the capture, it does to the same timer with the values
on its log changed (`run_mapValues`). To exchange the index bytes is one such change, and to write
`DD` for both of them is another. Where the second one is made the first makes no difference, which is
why a run on exchanged bytes ends as the run itself does, even if the log it sets out with is left as
it is (`index_bytes_alike`).
-/

namespace SpectrumTiming

open Capture

namespace Opcode

/-! ## Changes that keep the class -/

/-- Every class a byte has in one of the five sets stays what it is. -/
structure KeepsClass (f : UInt8 → UInt8) : Prop where
  primary (b : UInt8) : primary (f b) = primary b
  alwaysTaken (b : UInt8) : alwaysTaken (f b) = alwaysTaken b
  bit (b : UInt8) : bit (f b) = bit b
  extended (b : UInt8) : extended (f b) = extended b
  indexed (b : UInt8) : indexed (f b) = indexed b
  indexedBit (b : UInt8) : indexedBit (f b) = indexedBit b

variable {f : UInt8 → UInt8}

theorem recognizeIndexed_map (h : KeepsClass f) (bytes : List UInt8) :
    recognizeIndexed (bytes.map f) = recognizeIndexed bytes := by
  cases bytes with
  | nil => rfl
  | cons op rest =>
    simp only [List.map_cons, recognizeIndexed, h.indexed]
    cases indexed op with
    | bit =>
      rcases rest with _ | ⟨displacement, _ | ⟨op, rest⟩⟩
      · rfl
      · rfl
      · simp only [List.map_cons, recognizeIndexedBit, h.indexedBit]
    | _ => rfl

/-- **What is recognized is a matter of classes.** -/
theorem recognize_map (h : KeepsClass f) (bytes : List UInt8) :
    recognize (bytes.map f) = recognize bytes := by
  cases bytes with
  | nil => rfl
  | cons op rest =>
    simp only [List.map_cons, recognize, h.primary, h.alwaysTaken]
    cases primary op with
    | script id => rfl
    | cb => cases rest <;> simp only [List.map_nil, List.map_cons, recognizeBit, h.bit]
    | ed => cases rest <;> simp only [List.map_nil, List.map_cons, recognizeExtended, h.extended]
    | index => exact recognizeIndexed_map h rest

theorem scriptOf?_map (h : KeepsClass f) (bytes : List UInt8) :
    scriptOf? (bytes.map f) = scriptOf? bytes := by
  induction bytes with
  | nil => rfl
  | cons op rest ih =>
    have hsame := recognize_map h (op :: rest)
    rw [List.map_cons] at hsame ⊢
    simp only [scriptOf?, hsame, ih]

end Opcode

/-! ## Changing the values on a log -/

/-- The access with another value. -/
def Access.mapValue (f : UInt8 → UInt8) (a : Access) : Access := { a with value := f a.value }

namespace Capture

section

variable {ι : Type} (f : UInt8 → UInt8)

def mapValues (c : Capture ι) : Capture ι := { c with log := c.log.map (Access.mapValue f) }

theorem push_mapValues (c : Capture ι) (a : Access) :
    (c.mapValues f).push (a.mapValue f) = (c.push a).mapValues f := by
  simp [push, mapValues]

theorem isFull_mapValues (c : Capture ι) : (c.mapValues f).isFull = c.isFull := by
  simp [isFull, mapValues]

theorem firstUncharged?_mapValues (c : Capture ι) :
    (c.mapValues f).firstUncharged? = c.firstUncharged? := by
  simp only [firstUncharged?, mapValues, List.findIdx?_map]
  rfl

theorem addr_mapValues (c : Capture ι) (slot : Nat) : (c.mapValues f).addr slot = c.addr slot := by
  simp [addr, mapValues, Access.mapValue, Function.comp_def]

theorem ready_mapValues (c : Capture ι) (s : Script) : (c.mapValues f).ready s = c.ready s := by
  have hunlocks : (c.mapValues f).unlocks = c.unlocks := unlocks_congr (by simp [mapValues]) rfl
  simp only [ready, hunlocks]
  rfl

theorem costs_mapValues (c : Capture ι) : (c.mapValues f).costs = c.costs := by
  funext e
  exact costs_congr (fun slot _ => c.addr_mapValues f slot) rfl

theorem mark_mapValues (c : Capture ι) (es : List Element) :
    (c.mapValues f).mark es = (c.mark es).mapValues f := by
  have hlog : ((c.mapValues f).mark es).log = (c.mark es).log.map (Access.mapValue f) := by
    apply List.ext_getElem?
    intro i
    rw [mark_log_getElem?, List.getElem?_map, mark_log_getElem?, mapValues, List.getElem?_map,
      Option.map_map, Option.map_map]
    congr 1
    funext a
    simp only [Function.comp_apply]
    split <;> rfl
  show ({ c with log := ((c.mapValues f).mark es).log } : Capture ι) = _
  rw [hlog]
  rfl

theorem walk_mapValues (c : Capture ι) (s : Script) :
    (c.mapValues f).walk s = ((c.walk s).1.mapValues f, (c.walk s).2) := by
  simp only [walk, ready_mapValues, costs_mapValues, mark_mapValues]
  rfl

end

variable {f : UInt8 → UInt8}

theorem recognize_mapValue (h : Opcode.KeepsClass f) (log : List Access) :
    recognize (log.map (Access.mapValue f)) = recognize log := by
  have hvalues : (log.map (Access.mapValue f)).map Access.value = (log.map Access.value).map f := by
    rw [List.map_map, List.map_map]
    rfl
  unfold recognize
  rw [hvalues, Opcode.recognize_map h]

theorem splitCollapsing_mapValue (h : Opcode.KeepsClass f) (log : List Access) :
    splitCollapsing (log.map (Access.mapValue f)) =
      ((splitCollapsing log).1.map (Access.mapValue f),
        (splitCollapsing log).2.map (Access.mapValue f)) := by
  induction log with
  | nil => rfl
  | cons a rest ih =>
    have hsame := recognize_mapValue h (a :: rest)
    by_cases hr : recognize (a :: rest) = .collapse
    · rw [splitCollapsing_of_collapse hr, List.map_cons,
        splitCollapsing_of_collapse (hsame.trans hr), ih]
      rfl
    · rw [splitCollapsing_of_ne hr, splitCollapsing_of_ne (by rw [hsame]; exact hr)]
      rfl

theorem collapse_mapValues (h : Opcode.KeepsClass f) (c : Capture ScriptNumber) :
    (c.mapValues f).collapse = (c.collapse.1.mapValues f, c.collapse.2) := by
  simp only [collapse, mapValues, splitCollapsing_mapValue h, consume, List.length_map,
    List.map_map]
  rfl

theorem assign_mapValues (h : Opcode.KeepsClass f) (c : Capture ScriptNumber) :
    (c.mapValues f).assign = c.assign.mapValues f := by
  have hsame : recognize (c.mapValues f).log = recognize c.log := recognize_mapValue h c.log
  simp only [assign, hsame]
  cases recognize c.log <;> rfl

theorem resolve_mapValues (h : Opcode.KeepsClass f) (c : Capture ScriptNumber) :
    (c.mapValues f).resolve = (c.resolve.1.mapValues f, c.resolve.2) := by
  cases hs : c.script? with
  | some id => rw [resolve_of_some hs, resolve_of_some (c := c.mapValues f) hs]
  | none =>
    rw [resolve_of_none hs, resolve_of_none (c := c.mapValues f) hs, collapse_mapValues h,
      assign_mapValues h]

/-- **What is charged does not depend on the values**, so far as their classes are the same. -/
theorem settle_mapValues (h : Opcode.KeepsClass f) (v : Variant) (c : Capture ScriptNumber) :
    settle v (c.mapValues f) = ((settle v c).1.mapValues f, (settle v c).2) := by
  have hres := resolve_mapValues h c
  cases hs : c.resolve.1.script? with
  | none => rw [settle_of_none v hs, settle_of_none v (by rw [hres]; exact hs), hres]
  | some id =>
    rw [settle_of_some v hs, settle_of_some v (by rw [hres]; exact hs), hres, walk_mapValues]

end Capture

/-! ## Runs -/

namespace Timer

variable (f : UInt8 → UInt8)

def mapValues (t : Timer) : Timer := { t with capture := t.capture.mapValues f }

/-- The operation, reporting another value. -/
def Op.mapValue : Op → Op
  | .record a => .record (a.mapValue f)
  | op => op

variable {f}

theorem settle_mapValues (h : Opcode.KeepsClass f) (t : Timer) :
    (t.mapValues f).settle = t.settle.mapValues f := by
  have hsettle := Capture.settle_mapValues h t.ula.variant t.capture
  show ({ t with
    capture := (Capture.settle t.ula.variant (t.capture.mapValues f)).1
    clock := t.clock.payAll t.ula (Capture.settle t.ula.variant (t.capture.mapValues f)).2 } :
      Timer) = _
  rw [hsettle]
  rfl

theorem record_mapValues (h : Opcode.KeepsClass f) (t : Timer) (a : Access) :
    (t.mapValues f).record (a.mapValue f) = (t.record a).map (mapValues f) := by
  cases hactive : t.capture.active with
  | false => rw [record_of_idle hactive, record_of_idle (t := t.mapValues f) hactive]; rfl
  | true =>
    have hsame : (t.mapValues f).capture.isFull = t.capture.isFull := t.capture.isFull_mapValues f
    cases hfull : t.capture.isFull with
    | true =>
      rw [record_of_full hactive hfull,
        record_of_full (t := t.mapValues f) hactive (hsame.trans hfull)]
      rfl
    | false =>
      have hpush := Capture.push_mapValues f t.capture a
      rw [record_of_room hactive hfull,
        record_of_room (t := t.mapValues f) hactive (hsame.trans hfull)]
      refine congrArg Except.ok (Eq.trans ?_ (settle_mapValues h _))
      rw [show (t.mapValues f).capture.push (a.mapValue f) = (t.capture.push a).mapValues f
        from hpush]
      rfl

theorem finish_mapValues (t : Timer) :
    (t.mapValues f).finish = t.finish.map (mapValues f) := by
  have hreconciles : (t.mapValues f).reconciles = t.reconciles := by
    unfold reconciles
    rw [show (t.mapValues f).capture.firstUncharged? = t.capture.firstUncharged?
      from t.capture.firstUncharged?_mapValues f]
    rfl
  have hactive : (t.mapValues f).capture.active = t.capture.active := rfl
  unfold finish
  rw [hreconciles, hactive]
  cases t.capture.active with
  | false => rfl
  | true => cases t.reconciles <;> rfl

theorem confirm_mapValues (h : Opcode.KeepsClass f) (t : Timer) :
    (t.mapValues f).confirm = t.confirm.mapValues f := by
  cases hactive : t.capture.active with
  | false => rw [confirm_of_idle hactive, confirm_of_idle (t := t.mapValues f) hactive]; rfl
  | true =>
    rw [confirm_of_active hactive, confirm_of_active (t := t.mapValues f) hactive]
    exact settle_mapValues h { t with capture := { t.capture with taken := true } }

theorem elapse_mapValues (t : Timer) (kind : TimeKind) (cycles : Nat) :
    (t.mapValues f).elapse kind cycles = (t.elapse kind cycles).mapValues f := by
  have hactive : (t.mapValues f).capture.active = t.capture.active := rfl
  cases kind <;> simp only [elapse, hactive] <;> cases t.capture.active <;> rfl

theorem begin_mapValues (t : Timer) (bc ir : UInt16) :
    (t.mapValues f).begin bc ir = (t.begin bc ir).mapValues f := by
  have hula : (t.mapValues f).ula = t.ula := rfl
  unfold begin
  rw [hula]
  cases t.ula.variant.contends <;> rfl

/-- **One operation.** -/
theorem step_mapValues (h : Opcode.KeepsClass f) (t : Timer) (op : Op) :
    (t.mapValues f).step (op.mapValue f) = (t.step op).map (mapValues f) := by
  cases op with
  | begin bc ir => exact congrArg Except.ok (begin_mapValues t bc ir)
  | finish => exact finish_mapValues t
  | elapse kind cycles => exact congrArg Except.ok (elapse_mapValues t kind cycles)
  | record a => exact record_mapValues h t a
  | confirm => exact congrArg Except.ok (confirm_mapValues h t)
  | _ => rfl

/-- **A timer does the same to the clock and the capture, whatever the values**, so far as their
classes are the same. -/
theorem run_mapValues (h : Opcode.KeepsClass f) (t : Timer) (ops : List Op) :
    (t.mapValues f).run (ops.map (Op.mapValue f)) = (t.run ops).map (mapValues f) := by
  induction ops generalizing t with
  | nil => rfl
  | cons op ops ih =>
    rw [List.map_cons, run_cons, run_cons, step_mapValues h]
    cases t.step op with
    | error fault => rfl
    | ok after => exact ih after

end Timer

/-! ## Exchanging the index bytes -/

namespace Opcode

/-- A change that puts index bytes in the place of index bytes, and nothing else. -/
def MovesIndex (f : UInt8 → UInt8) : Prop :=
  ∀ b, f b = b ∨ isIndexByte b = true ∧ isIndexByte (f b) = true

/-- What does not tell the two index bytes apart does not see the change. -/
theorem MovesIndex.apply_eq {α : Type} {f : UInt8 → UInt8} (hf : MovesIndex f) {g : UInt8 → α}
    (hg : g 0xDD = g 0xFD) (b : UInt8) : g (f b) = g b := by
  have hindex {p : UInt8} (hp : isIndexByte p = true) : g p = g 0xDD := by
    simp only [isIndexByte, Bool.or_eq_true, decide_eq_true_eq] at hp
    rcases hp with rfl | rfl
    · rfl
    · exact hg.symm
  rcases hf b with heq | ⟨hb, hfb⟩
  · rw [heq]
  · rw [hindex hb, hindex hfb]

/-- **No class tells the index bytes apart.** -/
theorem MovesIndex.keepsClass {f : UInt8 → UInt8} (hf : MovesIndex f) : KeepsClass f where
  primary := hf.apply_eq (by decide)
  alwaysTaken := hf.apply_eq (by decide)
  bit := hf.apply_eq (by decide)
  extended := hf.apply_eq (by decide)
  indexed := hf.apply_eq (by decide)
  indexedBit := hf.apply_eq (by decide)

/-- Nor does any documented duration. -/
theorem MovesIndex.duration_eq {f : UInt8 → UInt8} (hf : MovesIndex f) (table : Table) (b : UInt8) :
    duration table (f b) = duration table b :=
  hf.apply_eq (by cases table <;> decide) b

/-- Each index byte becomes the other one. -/
def swapIndex (b : UInt8) : UInt8 := if b = 0xDD then 0xFD else if b = 0xFD then 0xDD else b

/-- Both index bytes become `DD`. -/
def unifyIndex (b : UInt8) : UInt8 := if isIndexByte b then 0xDD else b

theorem movesIndex_swapIndex : MovesIndex swapIndex := forall_byte (by decide +kernel)

theorem movesIndex_unifyIndex : MovesIndex unifyIndex := forall_byte (by decide +kernel)

end Opcode

namespace Timer

/-- The timer without the values on its log. -/
def withoutValues : Timer → Timer := mapValues fun _ => 0

theorem withoutValues_mapValues (f : UInt8 → UInt8) (t : Timer) :
    (t.mapValues f).withoutValues = t.withoutValues := by
  simp only [withoutValues, mapValues, Capture.mapValues, List.map_map]
  rfl

theorem map_unifyIndex_swapIndex (ops : List Op) :
    (ops.map (Op.mapValue Opcode.swapIndex)).map (Op.mapValue Opcode.unifyIndex) =
      ops.map (Op.mapValue Opcode.unifyIndex) := by
  rw [List.map_map]
  refine List.map_congr_left fun op _ => ?_
  cases op with
  | record a =>
    have hvalue : Opcode.unifyIndex (Opcode.swapIndex a.value) = Opcode.unifyIndex a.value :=
      Opcode.movesIndex_swapIndex.apply_eq rfl a.value
    simp only [Function.comp_apply, Op.mapValue, Access.mapValue, hvalue]
  | _ => rfl

/-- **What a run leads to, but for the values, does not change** if index bytes are exchanged on the
way. Both runs become the same if all index bytes are written as `DD`. -/
theorem run_swapIndex (t : Timer) (ops : List Op) :
    (t.run (ops.map (Op.mapValue Opcode.swapIndex))).map withoutValues =
      (t.run ops).map withoutValues := by
  have hforget (x : Except Fault Timer) :
      (x.map (mapValues Opcode.unifyIndex)).map withoutValues = x.map withoutValues := by
    cases x with
    | error fault => rfl
    | ok after => exact congrArg Except.ok (withoutValues_mapValues _ after)
  have hunify := run_mapValues Opcode.movesIndex_unifyIndex.keepsClass t
  calc (t.run (ops.map (Op.mapValue Opcode.swapIndex))).map withoutValues
      = (((t.mapValues Opcode.unifyIndex).run
          ((ops.map (Op.mapValue Opcode.swapIndex)).map
            (Op.mapValue Opcode.unifyIndex))).map withoutValues) := by rw [hunify, hforget]
    _ = (((t.mapValues Opcode.unifyIndex).run
          (ops.map (Op.mapValue Opcode.unifyIndex))).map withoutValues) := by
        rw [map_unifyIndex_swapIndex]
    _ = (t.run ops).map withoutValues := by rw [hunify, hforget]

/--
**Instructions on IX and on IY take the same time.**

Exchange `DD` and `FD` wherever they stand. A string of bytes keeps its script and the number of its
index bytes. A run, whatever its timer, does the same after each of its operations, but for the values
on the log: the same fault or none, the same clock, the same capture; and the values are the exchanged
ones if those the run sets out with are exchanged too. A timer that checks what it does is stopped by
the same hazards. All documented durations are the same.
-/
theorem index_bytes_alike :
    (∀ bytes, Opcode.scriptOf? (bytes.map Opcode.swapIndex) = Opcode.scriptOf? bytes) ∧
    (∀ (t : Timer) (ops : List Op) (n : Nat),
      (t.run ((ops.map (Op.mapValue Opcode.swapIndex)).take n)).map withoutValues =
        (t.run (ops.take n)).map withoutValues ∧
      (Checked.run t ((ops.map (Op.mapValue Opcode.swapIndex)).take n)).map withoutValues =
        (Checked.run t (ops.take n)).map withoutValues ∧
      (t.mapValues Opcode.swapIndex).run ((ops.map (Op.mapValue Opcode.swapIndex)).take n) =
        (t.run (ops.take n)).map (mapValues Opcode.swapIndex)) ∧
    ∀ table op, Opcode.duration table (Opcode.swapIndex op) = Opcode.duration table op := by
  have hchecked (t : Timer) (ops : List Op) : (Checked.run t ops).map withoutValues =
      ((t.run ops).map withoutValues).mapError .fault := by
    rw [Checked.run_eq]
    cases t.run ops <;> rfl
  have hswap := Opcode.movesIndex_swapIndex
  refine ⟨Opcode.scriptOf?_map hswap.keepsClass, ?_, hswap.duration_eq⟩
  intro t ops n
  rw [← List.map_take]
  refine ⟨run_swapIndex t _, ?_, run_mapValues hswap.keepsClass t _⟩
  rw [hchecked, hchecked, run_swapIndex]

end Timer

end SpectrumTiming
