import SpectrumTiming.Proofs.IndexBytes
import SpectrumTiming.Proofs.Reachable

/-!
# Classifying an instruction while it runs

`scriptOf?` sees all bytes of an instruction at once. A timer sees one access after the other: it
decides after each, takes index bytes off its log on the way and never looks at them again. Both come
to the same script and count the same index bytes (`run_classifies`).

What carries the agreement from one access to the next is that the log tells as much as all the bytes
that were reported: whatever follows, the script behind the bytes taken off is the script of the
whole, and the count of these bytes makes up the difference (`Follows.told`).
-/

namespace SpectrumTiming

open Capture

namespace Opcode

theorem scriptOf?_of_pending {xs : List UInt8} (h : recognize xs = .pending) :
    scriptOf? xs = none := by
  cases xs with
  | nil => rfl
  | cons op rest => simp only [scriptOf?, h]

theorem scriptOf?_of_script {xs : List UInt8} {id : ScriptNumber} {taken : Bool}
    (h : recognize xs = .script id taken) : scriptOf? xs = some (id, 0) := by
  cases xs with
  | nil => exact absurd h (by simp [recognize])
  | cons op rest => simp only [scriptOf?, h]

theorem scriptOf?_of_collapse {op : UInt8} {rest : List UInt8}
    (h : recognize (op :: rest) = .collapse) :
    scriptOf? (op :: rest) = (scriptOf? rest).map fun (id, n) => (id, n + 1) := by
  simp only [scriptOf?, h]

/-- Index bytes alone are no instruction. -/
theorem scriptOf?_of_isIndexByte {xs : List UInt8} (h : ∀ b ∈ xs, isIndexByte b = true) :
    scriptOf? xs = none := by
  induction xs with
  | nil => rfl
  | cons p rest ih =>
    obtain ⟨hp, hrest⟩ := List.forall_mem_cons.mp h
    cases rest with
    | nil =>
      refine scriptOf?_of_pending ?_
      simp only [recognize, primary_of_isIndexByte hp, recognizeIndexed]
    | cons q rest =>
      have hq : collapses q = true := collapses_of_isIndexByte (hrest q (List.mem_cons_self ..))
      rw [scriptOf?_of_collapse (recognize_of_collapses rest hp hq), ih hrest]
      rfl

end Opcode

namespace Capture

/-- Taking index bytes off is counting them, whatever bytes follow. -/
theorem scriptOf?_splitCollapsing (log : List Access) (later : List UInt8) :
    Opcode.scriptOf? (log.map Access.value ++ later) =
      (Opcode.scriptOf? ((splitCollapsing log).2.map Access.value ++ later)).map
        fun (id, n) => (id, n + (splitCollapsing log).1.length) := by
  induction log with
  | nil => simp [splitCollapsing]
  | cons a rest ih =>
    by_cases h : recognize (a :: rest) = .collapse
    · have hall : Opcode.recognize ((a :: rest).map Access.value ++ later) = .collapse := by
        rw [Opcode.recognize_append]
        · exact h
        · exact fun hp => absurd (h.symm.trans hp) (by simp)
      rw [splitCollapsing_of_collapse h]
      rw [List.map_cons, List.cons_append] at hall ⊢
      rw [Opcode.scriptOf?_of_collapse hall, ih, Option.map_map]
      rfl
    · rw [splitCollapsing_of_ne h]
      simp

/-- The capture holds the bytes `seen` without the first `dropped` of them, and these index bytes
tell nothing but their number. -/
structure Holds (seen : List UInt8) (dropped : Nat) (c : Capture ScriptNumber) : Prop where
  log : c.log.map Access.value = seen.drop dropped
  le : dropped ≤ seen.length
  told : ∀ later, Opcode.scriptOf? (seen ++ later) =
    (Opcode.scriptOf? (c.log.map Access.value ++ later)).map fun (id, n) => (id, n + dropped)
  known : ∀ id, c.script? = some id → ∃ taken, recognize c.log = .script id taken

/-- Moreover the script is known as soon as the bytes tell it. -/
structure Follows (seen : List UInt8) (dropped : Nat) (c : Capture ScriptNumber) : Prop
    extends Holds seen dropped c where
  unknown : c.script? = none → recognize c.log = .pending

theorem follows_begin (tstate : Nat) (bc ir : UInt16) : Follows [] 0 (begin tstate bc ir) where
  log := rfl
  le := Nat.le_refl 0
  told := by intro later; simp [begin]
  known := by intro id h; simp [begin] at h
  unknown := by intro _; rfl

theorem Holds.push {seen : List UInt8} {dropped : Nat} {c : Capture ScriptNumber}
    (h : c.Holds seen dropped) (a : Access) : (c.push a).Holds (seen ++ [a.value]) dropped where
  log := by
    rw [List.drop_append_of_le_length h.le, ← h.log]
    simp [Capture.push]
  le := by
    rw [List.length_append]
    exact Nat.le_add_right_of_le h.le
  told := by
    intro later
    have hlater := h.told (a.value :: later)
    simpa [Capture.push] using hlater
  known := by
    intro id hid
    obtain ⟨taken, hr⟩ := h.known id hid
    exact ⟨taken, (recognize_log_append [a] (by simp [hr])).trans hr⟩

/-- Whatever does not touch the log and the script leaves what is held. -/
theorem Holds.congr {seen : List UInt8} {dropped : Nat} {c d : Capture ScriptNumber}
    (h : c.Holds seen dropped) (hlog : d.log = c.log) (hscript : d.script? = c.script?) :
    d.Holds seen dropped where
  log := by rw [hlog]; exact h.log
  le := h.le
  told := by rw [hlog]; exact h.told
  known := by rw [hlog, hscript]; exact h.known

theorem Follows.congr {seen : List UInt8} {dropped : Nat} {c d : Capture ScriptNumber}
    (h : c.Follows seen dropped) (hlog : d.log = c.log) (hscript : d.script? = c.script?) :
    d.Follows seen dropped where
  toHolds := h.toHolds.congr hlog hscript
  unknown := by rw [hlog, hscript]; exact h.unknown

theorem Holds.walk {seen : List UInt8} {dropped : Nat} {c : Capture ScriptNumber}
    (h : c.Holds seen dropped) (s : Script) : (c.walk s).1.Holds seen dropped := by
  have hlog : (c.walk s).1.log.map Access.value = c.log.map Access.value :=
    map_mark (fun _ => rfl) c _
  refine ⟨by rw [hlog]; exact h.log, h.le, by rw [hlog]; exact h.told, ?_⟩
  intro id hid
  rw [recognize_congr hlog]
  exact h.known id hid

theorem Holds.collapse {seen : List UInt8} {dropped : Nat} {c : Capture ScriptNumber}
    (h : c.Holds seen dropped) (hs : c.script? = none) :
    c.collapse.1.Holds seen (dropped + (splitCollapsing c.log).1.length) := by
  have hsplit := congrArg (List.map Access.value) (splitCollapsing_eq c.log)
  rw [List.map_append] at hsplit
  have hlen := congrArg List.length (hsplit.trans h.log)
  rw [List.length_append, List.length_map, List.length_map, List.length_drop] at hlen
  refine ⟨?_, ?_, ?_, fun id hid => absurd (hs.symm.trans hid) (by simp)⟩
  · show (splitCollapsing c.log).2.map Access.value = _
    rw [← List.drop_drop, ← h.log, ← hsplit]
    simp
  · have := h.le
    omega
  · intro later
    rw [h.told later, scriptOf?_splitCollapsing, Option.map_map]
    congr 1
    funext p
    simp only [Function.comp_apply, Nat.add_assoc, Nat.add_comm dropped]

/-- **To settle is to follow.** -/
theorem Holds.settle {seen : List UInt8} {dropped : Nat} {c : Capture ScriptNumber}
    (h : c.Holds seen dropped) (v : Variant) :
    (settle v c).1.Follows seen (dropped + c.collapsing.length) := by
  refine ⟨?_, (settled_settle v c).pending⟩
  cases hs : c.script? with
  | some id =>
    have hcol : c.collapsing = [] := by simp [collapsing, hs]
    rw [hcol, settle_of_known v hs]
    exact h.walk _
  | none =>
    have hcol : c.collapsing = (splitCollapsing c.log).1 := by simp [collapsing, hs]
    have hcollapse := h.collapse hs
    rw [hcol]
    rcases resolve_cases hs with ⟨_, hres⟩ | ⟨id, taken, hr, hres⟩
    · have hnone : c.resolve.1.script? = none := by rw [hres]; exact hs
      rw [settle_of_none v hnone, hres]
      exact hcollapse
    · have hsome : c.resolve.1.script? = some id := by rw [hres]
      rw [settle_of_some v hsome, hres]
      refine Holds.walk (c := { c.collapse.1 with script? := some id, taken := c.taken || taken })
        ⟨hcollapse.log, hcollapse.le, hcollapse.told, ?_⟩ _
      intro id' hid'
      rw [← Option.some.inj hid']
      exact ⟨taken, hr⟩

/-- What is known and what was dropped is what all the bytes together say. -/
theorem Follows.scriptOf?_eq {seen : List UInt8} {dropped : Nat} {c : Capture ScriptNumber}
    (h : c.Follows seen dropped) :
    Opcode.scriptOf? seen = c.script?.map fun id => (id, dropped) := by
  have htold := h.told []
  rw [List.append_nil, List.append_nil] at htold
  cases hs : c.script? with
  | none =>
    have hpending : Opcode.recognize (c.log.map Access.value) = .pending := h.unknown hs
    rw [htold, Opcode.scriptOf?_of_pending hpending]
    rfl
  | some id =>
    obtain ⟨taken, hr⟩ := h.known id hs
    have hscript : Opcode.recognize (c.log.map Access.value) = .script id taken := hr
    rw [htold, Opcode.scriptOf?_of_script hscript]
    simp

/-- While only index bytes have been seen, the log has room. -/
theorem Follows.isFull_eq_false {seen : List UInt8} {dropped : Nat} {c : Capture ScriptNumber}
    (h : c.Follows seen dropped) (hseen : ∀ b ∈ seen, Opcode.isIndexByte b = true) :
    c.isFull = false := by
  have hnone : c.script? = none := by
    have heq := h.scriptOf?_eq
    rw [Opcode.scriptOf?_of_isIndexByte hseen] at heq
    exact Option.map_eq_none_iff.mp heq.symm
  have hlen := Opcode.length_le_of_recognize_pending (h.unknown hnone)
  rw [List.length_map] at hlen
  unfold isFull
  rw [decide_eq_false_iff_not]
  unfold logCapacity
  omega

end Capture

namespace Timer

/-- What an executor can report of the instruction that is running. -/
def Op.reports : Op → Bool
  | .record _ | .confirm | .elapse _ _ => true
  | _ => false

/-- The bytes of the accesses that are reported. -/
def reportedBytes (ops : List Op) : List UInt8 := (ops.filterMap Op.access?).map Access.value

/-- **Every report is followed**, or finds the log full. -/
theorem follows_step {seen : List UInt8} {n : Tally} {t : Timer} {op : Op}
    (hactive : t.capture.active = true) (h : t.capture.Follows seen n.dropped)
    (hop : op.reports = true) :
    (t.capture.isFull = true ∧ t.step op = .error .logFull) ∨
      ∃ after, t.step op = .ok after ∧ after.capture.active = true ∧
        after.capture.Follows (seen ++ reportedBytes [op]) (t.count n op).dropped := by
  have hsettled (c : Capture ScriptNumber) (hc : c.active = true) :
      (settle { t with capture := c }).capture.active = true := by
    show (Capture.settle t.ula.variant c).1.active = true
    rw [(settle_frame _ _).1]
    exact hc
  cases op with
  | record a =>
    cases hfull : t.capture.isFull with
    | true => exact Or.inl ⟨rfl, record_of_full hactive hfull a⟩
    | false =>
      have hcount : (t.count n (.record a)).dropped =
          n.dropped + (t.capture.push a).collapsing.length := by
        simp [count, drops, hactive, hfull]
      refine Or.inr ⟨_, record_of_room hactive hfull a, hsettled _ hactive, ?_⟩
      rw [hcount]
      exact (h.toHolds.push a).settle t.ula.variant
  | confirm =>
    have hcount : (t.count n .confirm).dropped = n.dropped + t.capture.collapsing.length := by
      simp [count, drops, hactive]
    have hbytes : reportedBytes [.confirm] = [] := rfl
    have hholds : Holds seen n.dropped { t.capture with taken := true } :=
      h.toHolds.congr rfl rfl
    refine Or.inr ⟨_, congrArg Except.ok (confirm_of_active hactive), hsettled _ hactive, ?_⟩
    rw [hcount, hbytes, List.append_nil]
    exact hholds.settle t.ula.variant
  | elapse kind cycles =>
    have hcount : (t.count n (.elapse kind cycles)).dropped = n.dropped := rfl
    have hbytes : reportedBytes [.elapse kind cycles] = [] := rfl
    refine Or.inr ⟨t.elapse kind cycles, rfl, ?_, ?_⟩
    · cases kind <;> simp [elapse, advance, hactive, predict, consume]
    · rw [hcount, hbytes, List.append_nil]
      refine h.congr ?_ ?_ <;> cases kind <;> simp [elapse, advance, hactive, predict, consume]
  | _ => simp [Op.reports] at hop

theorem reportedBytes_cons (op : Op) (ops : List Op) :
    reportedBytes (op :: ops) = reportedBytes [op] ++ reportedBytes ops := by
  rw [← List.singleton_append]
  simp only [reportedBytes, List.filterMap_append, List.map_append]

/-- Reports are followed to the end, or up to an access that finds the log full. -/
theorem follows_run : ∀ (ops : List Op) {seen : List UInt8} {n : Tally} {t : Timer},
    t.capture.active = true → t.capture.Follows seen n.dropped →
      (∀ op ∈ ops, op.reports = true) →
      (∃ after, t.run ops = .ok after ∧
        after.capture.Follows (seen ++ reportedBytes ops) (t.tally n ops).dropped) ∨
      t.run ops = .error .logFull ∧ ∃ (xs : List Op) (dropped : Nat) (c : Capture ScriptNumber),
        xs <+: ops ∧ c.isFull = true ∧ c.Follows (seen ++ reportedBytes xs) dropped := by
  intro ops
  induction ops with
  | nil =>
    intro seen n t _ h _
    refine Or.inl ⟨t, rfl, ?_⟩
    rw [show reportedBytes [] = [] from rfl, List.append_nil]
    exact h
  | cons op ops ih =>
    intro seen n t hactive h hops
    obtain ⟨hop, hrest⟩ := List.forall_mem_cons.mp hops
    rcases follows_step hactive h hop with ⟨hfull, hs⟩ | ⟨next, hs, hactive', h'⟩
    · refine Or.inr ⟨by rw [run_cons, hs]; rfl, [], n.dropped, t.capture, List.nil_prefix, hfull, ?_⟩
      rw [show reportedBytes [] = [] from rfl, List.append_nil]
      exact h
    · have hrun : t.run (op :: ops) = next.run ops := by rw [run_cons, hs]; rfl
      have htally : t.tally n (op :: ops) = next.tally (t.count n op) ops := by
        simp [tally, hs]
      rw [hrun, htally, reportedBytes_cons, ← List.append_assoc]
      rcases ih hactive' h' hrest with hok | ⟨herr, xs, dropped, c, hxs, hfull, hc⟩
      · exact Or.inl hok
      · refine Or.inr ⟨herr, op :: xs, dropped, c, List.cons_prefix_cons.mpr ⟨rfl, hxs⟩, hfull, ?_⟩
        rw [reportedBytes_cons, ← List.append_assoc]
        exact hc

/--
**Online and offline classification agree.** Report anything of an instruction that has just begun.
If the log does not overflow, then the script that was found and the number of index bytes that were
taken off the log on the way are what `scriptOf?` finds in all the bytes at once, and the log holds
the bytes behind them. As long as only index bytes are reported, the log does not overflow.
-/
theorem run_classifies (t : Timer) (hv : t.ula.variant.contends = true) (bc ir : UInt16)
    {ops : List Op} (hops : ∀ op ∈ ops, op.reports = true) :
    (∀ after, (t.begin bc ir).run ops = .ok after →
      (∀ id k, (after.capture.script? = some id ∧ ((t.begin bc ir).tally {} ops).dropped = k) ↔
        Opcode.scriptOf? (reportedBytes ops) = some (id, k)) ∧
      (after.capture.script? = none ↔ Opcode.scriptOf? (reportedBytes ops) = none) ∧
      ∃ front, front.length = ((t.begin bc ir).tally {} ops).dropped ∧
        reportedBytes ops = front ++ after.capture.log.map Access.value) ∧
    ((∀ b ∈ reportedBytes ops, Opcode.isIndexByte b = true) →
      ∃ after, (t.begin bc ir).run ops = .ok after) := by
  have hbegin : (t.begin bc ir).capture = Capture.begin t.clock.counter bc ir := by
    unfold begin
    rw [if_pos hv]
  have hactive : (t.begin bc ir).capture.active = true := by rw [hbegin]; rfl
  have hstart : (t.begin bc ir).capture.Follows [] ({} : Tally).dropped := by
    rw [hbegin]
    exact follows_begin _ _ _
  have hfollow := follows_run ops hactive hstart hops
  simp only [List.nil_append] at hfollow
  refine ⟨?_, ?_⟩
  · intro after hrun
    have h : after.capture.Follows (reportedBytes ops) ((t.begin bc ir).tally {} ops).dropped := by
      rcases hfollow with ⟨after', hrun', h⟩ | ⟨herr, _⟩
      · rw [hrun] at hrun'
        cases hrun'
        exact h
      · rw [hrun] at herr
        exact absurd herr (by simp)
    refine ⟨?_, ?_, (reportedBytes ops).take ((t.begin bc ir).tally {} ops).dropped, ?_, ?_⟩
    · intro id k
      rw [h.scriptOf?_eq, Option.map_eq_some_iff]
      simp only [Prod.mk.injEq]
      constructor
      · rintro ⟨hid, hk⟩
        exact ⟨id, hid, rfl, hk⟩
      · rintro ⟨id', hid, rfl, hk⟩
        exact ⟨hid, hk⟩
    · rw [h.scriptOf?_eq, Option.map_eq_none_iff]
    · exact List.length_take_of_le h.le
    · rw [h.log, List.take_append_drop]
  · intro hindex
    rcases hfollow with ⟨after, hrun, _⟩ | ⟨_, xs, dropped, c, ⟨ys, hys⟩, hfull, hc⟩
    · exact ⟨after, hrun⟩
    · have hroom := hc.isFull_eq_false fun b hb => hindex b (by
        rw [← hys]
        simp only [reportedBytes, List.filterMap_append, List.map_append]
        exact List.mem_append_left _ hb)
      rw [hfull] at hroom
      exact absurd hroom (by simp)

/-- `LD IX,nn` behind another index byte, with its time and a wait between the bytes. -/
theorem run_classifies_load :
    ∃ after, (begin { ula := .spectrum48k } 0 0).run
        [.record ⟨0x4000, 0xFD, .memoryRead, ""⟩, .elapse .base 2,
          .record ⟨0x4001, 0xDD, .memoryRead, ""⟩, .confirm, .elapse .documented 14,
          .record ⟨0x4002, 0x21, .memoryRead, ""⟩] = .ok after ∧
      after.capture.script? = some 12 := by
  have hok : ((begin { ula := .spectrum48k } 0 0).run
      [.record ⟨0x4000, 0xFD, .memoryRead, ""⟩, .elapse .base 2,
        .record ⟨0x4001, 0xDD, .memoryRead, ""⟩, .confirm, .elapse .documented 14,
        .record ⟨0x4002, 0x21, .memoryRead, ""⟩]).isOk = true := by
    decide +kernel
  obtain ⟨after, hrun⟩ := exists_of_isOk hok
  have h := (run_classifies { ula := .spectrum48k } (by decide) 0 0 (by decide)).1 after hrun
  exact ⟨after, hrun, ((h.1 12 2).mpr (by decide)).1⟩

end Timer

end SpectrumTiming
