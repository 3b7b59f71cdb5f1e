import SpectrumTiming.Proofs.Schedule

/-!
# Index bytes that collapse

An index byte in front of an opcode that has no indexed form is timed on its own, but only once the
byte behind it is known: then it is charged, and taken off the log. Everything that looks at the log
afterwards (its length, the slots of the script, what is left to be found) sees it without that byte.

So an instruction with such a byte in front is the instruction without it, begun after a delay at
the address of the byte and four T-states more (`run_indexCollapse`). For a chain of index bytes this
repeats, each byte with the delay that is due when the bytes before it have been paid.
-/

namespace SpectrumTiming

open Capture

/-- What an index byte that collapses costs. -/
def Access.indexCost (a : Access) : Cost := .memory a.addr indexCycles

/-- One of the bytes `DD` and `FD`. -/
def Opcode.isIndexByte (b : UInt8) : Bool := b = 0xDD || b = 0xFD

/-- A byte in front of which an index byte collapses. -/
def Opcode.collapses (b : UInt8) : Bool :=
  Opcode.indexed b = .standard || Opcode.indexed b = .undocumented

namespace Opcode

theorem primary_of_isIndexByte {b : UInt8} (h : isIndexByte b = true) : primary b = .index := by
  simp only [isIndexByte, Bool.or_eq_true, decide_eq_true_eq] at h
  rcases h with rfl | rfl <;> decide

/-- An index byte in front of another one collapses. -/
theorem collapses_of_isIndexByte {b : UInt8} (h : isIndexByte b = true) : collapses b = true := by
  simp only [isIndexByte, Bool.or_eq_true, decide_eq_true_eq] at h
  rcases h with rfl | rfl <;> decide

theorem recognize_of_collapses {p b : UInt8} (rest : List UInt8) (hp : isIndexByte p = true)
    (hb : collapses b = true) : recognize (p :: b :: rest) = .collapse := by
  simp only [collapses, Bool.or_eq_true, decide_eq_true_eq] at hb
  simp only [recognize, primary_of_isIndexByte hp, recognizeIndexed]
  rcases hb with hb | hb <;> simp only [hb]

end Opcode

namespace Capture

/-- Charging one thing more in front changes what is charged, and nothing else. -/
theorem settle_of_resolve_cons {v : Variant} {c d : Capture ScriptNumber} {x : Cost}
    (h : c.resolve = (d.resolve.1, x :: d.resolve.2)) :
    settle v c = ((settle v d).1, x :: (settle v d).2) := by
  have hfst : c.resolve.1 = d.resolve.1 := by rw [h]
  have hsnd : c.resolve.2 = x :: d.resolve.2 := by rw [h]
  cases hs : d.resolve.1.script? with
  | none =>
    rw [settle_of_none v hs, settle_of_none v (by rw [hfst]; exact hs), h]
  | some id =>
    rw [settle_of_some v hs, settle_of_some v (by rw [hfst]; exact hs), hfst, hsnd, List.cons_append]

/-- **An index byte in front**: settling pays for it first and goes on without it. -/
theorem settle_index (v : Variant) {c : Capture ScriptNumber} (hlog : c.log = [])
    (hs : c.script? = none) {a : Access} {ev : Evidence}
    (h : recognize (a :: ev.accesses) = .collapse) :
    settle v (c.learn (.andThen { accesses := [a] } ev)) =
      ((settle v ((c.consume indexCycles).learn ev)).1,
        .memory a.addr indexCycles :: (settle v ((c.consume indexCycles).learn ev)).2) := by
  apply settle_of_resolve_cons
  have hsplit := splitCollapsing_of_collapse h
  rw [resolve_of_none (c := c.learn _) hs, resolve_of_none (c := (c.consume indexCycles).learn ev) hs]
  simp only [collapse, learn, consume, Evidence.andThen, hlog, List.nil_append, List.cons_append,
    hsplit, List.length_cons, List.map_cons, Bool.false_or, Nat.zero_add, Nat.mul_succ,
    Nat.add_comm _ indexCycles, sum_add]

/-- **Index bytes in front**: settling pays for one after the other and goes on without them. -/
theorem settle_chain (v : Variant) {c : Capture ScriptNumber} (hlog : c.log = [])
    (hs : c.script? = none) {front : List Access} {b : Access} {ev : Evidence}
    (hfront : ∀ a ∈ front, Opcode.isIndexByte a.value = true)
    (hb : ev.accesses.head? = some b) (hc : front = [] ∨ Opcode.collapses b.value = true) :
    settle v (c.learn (.andThen { accesses := front } ev)) =
      ((settle v ((c.consume (indexCycles * front.length)).learn ev)).1,
        front.map Access.indexCost ++
          (settle v ((c.consume (indexCycles * front.length)).learn ev)).2) := by
  induction front generalizing c with
  | nil =>
    rw [Evidence.empty_andThen, List.length_nil, Nat.mul_zero, consume_zero]
    rfl
  | cons a front ih =>
    obtain ⟨ha, hrest⟩ := List.forall_mem_cons.mp hfront
    have hcollapses : Opcode.collapses b.value = true := hc.resolve_left (List.cons_ne_nil _ _)
    -- behind `a` comes another index byte, or else the byte the chain collapses in front of
    obtain ⟨next, hnext, hcol⟩ : ∃ next : Access,
        (Evidence.andThen { accesses := front } ev).accesses.head? = some next ∧
          Opcode.collapses next.value = true := by
      cases front with
      | nil => exact ⟨b, hb, hcollapses⟩
      | cons a' front =>
        exact ⟨a', rfl, Opcode.collapses_of_isIndexByte (hrest a' (List.mem_cons_self ..))⟩
    have hassoc : Evidence.andThen { accesses := a :: front } ev =
        .andThen { accesses := [a] } (.andThen { accesses := front } ev) := by
      simp [Evidence.andThen]
    obtain ⟨tail, htail⟩ := List.head?_eq_some_iff.mp hnext
    have hrec : recognize (a :: (Evidence.andThen { accesses := front } ev).accesses) =
        .collapse := by
      rw [htail]
      exact Opcode.recognize_of_collapses _ ha hcol
    rw [hassoc, settle_index v hlog hs hrec,
      ih (c := c.consume indexCycles) hlog hs hrest (.inr hcollapses), consume_consume,
      List.length_cons, Nat.mul_succ, Nat.add_comm (indexCycles * front.length)]
    rfl

end Capture

namespace Clock

/-- A memory cycle is the delay at its address and then its own T-states. -/
theorem pay_memory (u : Ula) (c : Clock) (addr : UInt16) (cycles : Nat) :
    c.pay u (.memory addr cycles) = (c.advance u (c.delayAt u addr)).advance u cycles := by
  rw [advance_advance]
  rfl

end Clock

namespace Timer

/-- Lets the delay at an address pass, and then the T-states of an index byte. -/
def payIndex (t : Timer) (addr : UInt16) : Timer :=
  (t.elapse .delay (t.clock.delayAt t.ula addr)).elapse .base indexCycles

/-- A timer at the beginning of an instruction, before any access. -/
structure Fresh (t : Timer) : Prop where
  active : t.capture.active = true
  log : t.capture.log = []
  script? : t.capture.script? = none

theorem fresh_begin (t : Timer) (hv : t.ula.variant.contends = true) (bc ir : UInt16) :
    (t.begin bc ir).Fresh := by
  unfold begin
  rw [if_pos hv]
  exact ⟨rfl, rfl, rfl⟩

theorem Fresh.ready {t : Timer} (h : t.Fresh) : t.Ready where
  active := h.active
  settled := by
    have hr : recognize t.capture.log = .pending := by rw [h.log]; rfl
    have hcol : t.capture.collapse = (t.capture, []) := collapse_of_ne (by simp [hr])
    have hres : t.capture.resolve = (t.capture, []) := by
      rw [resolve_of_none h.script?, hcol, assign_of_pending hr]
    show Capture.settle t.ula.variant t.capture = _
    rw [settle_of_none _ (by rw [hres]; exact h.script?), hres]
  fits := by rw [h.log]; exact Nat.zero_le _

theorem Fresh.payIndex_eq {t : Timer} (h : t.Fresh) (addr : UInt16) :
    t.payIndex addr =
      { t with
        clock := t.clock.pay t.ula (.memory addr indexCycles)
        capture := t.capture.consume indexCycles } := by
  rw [Clock.pay_memory]
  simp [payIndex, elapse, advance, h.active]

theorem Fresh.payIndex {t : Timer} (h : t.Fresh) (addr : UInt16) : (t.payIndex addr).Fresh := by
  rw [h.payIndex_eq]
  exact ⟨h.active, h.log, h.script?⟩

/-- Paying for index bytes moves the clock and adds to what has been charged. -/
theorem Fresh.foldl_payIndex {t : Timer} (h : t.Fresh) (front : List Access) :
    (front.map Access.addr).foldl Timer.payIndex t =
      { t with
        clock := t.clock.payAll t.ula (front.map Access.indexCost)
        capture := t.capture.consume (indexCycles * front.length) } := by
  induction front generalizing t with
  | nil =>
    rw [List.length_nil, Nat.mul_zero, consume_zero]
    rfl
  | cons a front ih =>
    rw [List.map_cons, List.foldl_cons, ih (h.payIndex a.addr), h.payIndex_eq, List.length_cons,
      Nat.mul_succ, Nat.add_comm (indexCycles * front.length), ← consume_consume]
    rfl

/-- The index bytes in front are paid for, if there are any. -/
theorem Fresh.absorb_chain {t : Timer} (h : t.Fresh) {front : List Access} {b : Access}
    {ev : Evidence} (hfront : ∀ a ∈ front, Opcode.isIndexByte a.value = true)
    (hb : ev.accesses.head? = some b) (hc : front = [] ∨ Opcode.collapses b.value = true) :
    t.absorb (.andThen { accesses := front } ev) =
      ((front.map Access.addr).foldl Timer.payIndex t).absorb ev := by
  have hsettle : (t.learn (.andThen { accesses := front } ev)).settle =
      (((front.map Access.addr).foldl Timer.payIndex t).learn ev).settle := by
    rw [h.foldl_payIndex]
    simp only [settle, learn, settle_chain t.ula.variant h.log h.script? hfront hb hc,
      Clock.payAll_append]
  unfold absorb
  rw [hsettle]

end Timer

/-- Reports that come between accesses change nothing about the order of these. -/
theorem Evidence.ofOps_chain (front : List (Access × List Timer.Op)) (ops : List Timer.Op)
    (hquiet : ∀ p ∈ front, ∀ op ∈ p.2, op.access? = none) :
    ofOps (front.flatMap (fun p => .record p.1 :: p.2) ++ ops) =
      andThen { accesses := front.map Prod.fst } (ofOps (front.flatMap Prod.snd ++ ops)) := by
  induction front with
  | nil => rw [List.map_nil, empty_andThen]; rfl
  | cons p front ih =>
    obtain ⟨hhead, hrest⟩ := List.forall_mem_cons.mp hquiet
    have hp : (ofOps p.2).accesses = [] := by
      show p.2.filterMap Timer.Op.access? = []
      rw [List.filterMap_eq_nil_iff]
      exact hhead
    rw [List.flatMap_cons, List.flatMap_cons, List.cons_append, List.cons_append, List.append_assoc,
      List.append_assoc, ← List.singleton_append, ofOps_append, ofOps_append, ih hrest,
      ofOps_append p.2]
    simp [andThen, hp]

namespace Timer

theorem run_elapse_index (t : Timer) (addr : UInt16) (ops : List Op) :
    t.run (.elapse .delay (t.clock.delayAt t.ula addr) :: .elapse .base indexCycles :: ops) =
      (t.payIndex addr).run ops := rfl

theorem Fresh.run_chain {t : Timer} (h : t.Fresh) {front : List (Access × List Op)} {ops : List Op}
    {b : Access} (hindex : ∀ p ∈ front, Opcode.isIndexByte p.1.value = true)
    (hquiet : ∀ p ∈ front, ∀ op ∈ p.2, op.informs = true ∧ op.access? = none)
    (hops : ∀ op ∈ ops, op.informs = true)
    (hb : (ops.filterMap Op.access?).head? = some b) (hc : Opcode.collapses b.value = true) :
    t.run (front.flatMap (fun p => .record p.1 :: p.2) ++ ops) =
      ((front.map (·.1.addr)).foldl Timer.payIndex t).run (front.flatMap Prod.snd ++ ops) := by
  have hbehind : ∀ op ∈ front.flatMap Prod.snd, op.informs = true ∧ op.access? = none := by
    intro op hop
    obtain ⟨p, hp, hop⟩ := List.mem_flatMap.mp hop
    exact hquiet p hp op hop
  have hleft : ∀ op ∈ front.flatMap (fun p => .record p.1 :: p.2) ++ ops, op.informs = true := by
    intro op hop
    rcases List.mem_append.mp hop with hop | hop
    · obtain ⟨p, hp, hop⟩ := List.mem_flatMap.mp hop
      rcases List.mem_cons.mp hop with rfl | hop
      · rfl
      · exact (hquiet p hp op hop).1
    · exact hops op hop
  have hright : ∀ op ∈ front.flatMap Prod.snd ++ ops, op.informs = true := by
    intro op hop
    rcases List.mem_append.mp hop with hop | hop
    · exact (hbehind op hop).1
    · exact hops op hop
  have hhead : (Evidence.ofOps (front.flatMap Prod.snd ++ ops)).accesses.head? = some b := by
    have hnil : (front.flatMap Prod.snd).filterMap Op.access? = [] := by
      rw [List.filterMap_eq_nil_iff]
      exact fun op hop => (hbehind op hop).2
    simpa [Evidence.ofOps, hnil] using hb
  have hfresh : ((front.map (·.1.addr)).foldl Timer.payIndex t).Fresh :=
    List.foldlRecOn _ _ h fun t' h' addr _ => h'.payIndex addr
  have hfetched : ∀ a ∈ front.map Prod.fst, Opcode.isIndexByte a.value = true := by
    intro a ha
    obtain ⟨p, hp, rfl⟩ := List.mem_map.mp ha
    exact hindex p hp
  rw [run_eq_absorb h.ready hleft, run_eq_absorb hfresh.ready hright,
    Evidence.ofOps_chain front ops fun p hp op hop => (hquiet p hp op hop).2,
    h.absorb_chain hfetched hhead (.inr hc), List.map_map]
  rfl

/--
**An index byte that collapses is a delay and four T-states in front of the instruction.**

Let the first byte reported behind an index byte be one that it collapses in front of. Then the
instruction ends as if the byte had never been logged and its own memory cycle had been let pass
before, in the clock, the capture and any fault. A chain of index bytes, with reports of any other
kind between them, is paid for byte by byte in the same way.
-/
theorem run_indexCollapse (t : Timer) (hv : t.ula.variant.contends = true) (bc ir : UInt16) :
    (∀ (a b : Access) (ops : List Op), Opcode.isIndexByte a.value = true →
      (∀ op ∈ ops, op.informs = true) → (ops.filterMap Op.access?).head? = some b →
      Opcode.collapses b.value = true →
      (t.begin bc ir).run (.record a :: ops) =
        (t.begin bc ir).run (.elapse .delay (t.clock.delayAt t.ula a.addr) ::
          .elapse .base indexCycles :: ops)) ∧
    ∀ (front : List (Access × List Op)) (b : Access) (ops : List Op),
      (∀ p ∈ front, Opcode.isIndexByte p.1.value = true) →
      (∀ p ∈ front, ∀ op ∈ p.2, op.informs = true ∧ op.access? = none) →
      (∀ op ∈ ops, op.informs = true) → (ops.filterMap Op.access?).head? = some b →
      Opcode.collapses b.value = true →
      (t.begin bc ir).run (front.flatMap (fun p => .record p.1 :: p.2) ++ ops) =
        ((front.map (·.1.addr)).foldl payIndex (t.begin bc ir)).run
          (front.flatMap Prod.snd ++ ops) := by
  have hfresh := fresh_begin t hv bc ir
  refine ⟨?_, ?_⟩
  · intro a b ops ha hops hb hc
    have hclock : (t.begin bc ir).clock = t.clock := by
      unfold begin
      split <;> rfl
    have hula : (t.begin bc ir).ula = t.ula := by
      unfold begin
      split <;> rfl
    have hindex : ∀ p ∈ [(a, ([] : List Op))], Opcode.isIndexByte p.1.value = true := by
      simpa using ha
    have hrun := hfresh.run_chain hindex (by simp) hops hb hc
    rw [← hclock, ← hula, run_elapse_index]
    simpa using hrun
  · intro front b ops hindex hquiet hops hb hc
    exact hfresh.run_chain hindex hquiet hops hb hc

/-- `LD IX,nn`, alone and behind another index byte. -/
theorem run_indexCollapse_load :
    (begin { ula := .spectrum48k } 0 0).run
        [.record ⟨0x4000, 0xDD, .memoryRead, ""⟩, .record ⟨0x4001, 0x21, .memoryRead, ""⟩,
          .elapse .documented 14] =
      (begin { ula := .spectrum48k } 0 0).run
        [.elapse .delay (Clock.delayAt .spectrum48k {} 0x4000), .elapse .base indexCycles,
          .record ⟨0x4001, 0x21, .memoryRead, ""⟩, .elapse .documented 14] ∧
    (begin { ula := .spectrum48k } 0 0).run
        [.record ⟨0x4000, 0xFD, .memoryRead, ""⟩, .record ⟨0x4001, 0xDD, .memoryRead, ""⟩,
          .elapse .documented 4, .record ⟨0x4002, 0x21, .memoryRead, ""⟩,
          .elapse .documented 14] =
      (((begin { ula := .spectrum48k } 0 0).payIndex 0x4000).payIndex 0x4001).run
        [.elapse .documented 4, .record ⟨0x4002, 0x21, .memoryRead, ""⟩,
          .elapse .documented 14] := by
  have h := run_indexCollapse { ula := .spectrum48k } (by decide) 0 0
  refine ⟨?_, ?_⟩
  · exact h.1 ⟨0x4000, 0xDD, .memoryRead, ""⟩ ⟨0x4001, 0x21, .memoryRead, ""⟩ _ (by decide)
      (by decide) rfl (by decide)
  · exact h.2 [(⟨0x4000, 0xFD, .memoryRead, ""⟩, []),
        (⟨0x4001, 0xDD, .memoryRead, ""⟩, [.elapse .documented 4])]
      ⟨0x4002, 0x21, .memoryRead, ""⟩
      [.record ⟨0x4002, 0x21, .memoryRead, ""⟩, .elapse .documented 14] (by decide) (by decide)
      (by decide) rfl (by decide)

end Timer

end SpectrumTiming
