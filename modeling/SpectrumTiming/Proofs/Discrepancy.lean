import SpectrumTiming.Proofs.Overflow
import SpectrumTiming.Proofs.Reconciliation

/-!
# Lost and surplus accesses

At the end of an instruction the timer compares two sums and looks for accesses that have not been
charged. It does not look at the cursor, so it cannot see directly whether the script was charged to
its end. It need not: every element of a script costs something (`Standard.total_pos`), so a walk
that stopped for want of an access has charged too little (`total_walk_lt`), by less than would make
the sums wrap round and meet again (`Standard.totalOn_le`); and no script has an element for an
access beyond its last slot, so that one stays uncharged (`walk_log_surplus`).

An instruction whose bytes have been fetched therefore ends well only with exactly as many accesses
as its script needs (`run_unreconciled`).
-/

namespace SpectrumTiming

open Capture Standard

/-- No element is free. -/
theorem Standard.total_pos (v : Variant) (id : ScriptNumber) :
    ∀ e ∈ (script v id).elements, 0 < e.total := by
  have hall : ∀ id : ScriptNumber, (∀ e ∈ (script .sinclair id).elements, 0 < e.total) ∧
      ∀ e ∈ (script .amstrad id).elements, 0 < e.total := by
    decide +kernel
  cases v with
  | none => exact (hall id).1
  | sinclair => exact (hall id).1
  | amstrad => exact (hall id).2

/-- No instruction takes longer than this. -/
theorem Standard.totalOn_le (v : Variant) (id : ScriptNumber) (taken : Bool) :
    (script v id).totalOn taken ≤ 23 := by
  rw [totalOn_script]
  revert id taken
  decide

namespace Capture

variable {ι : Type}

/-- What is charged first lies on the path. -/
theorem path_eq_ready_append {s : Script} (hs : s.Regular) {c : Capture ι}
    (hcursor : c.cursor = 0) : ∃ rest, s.path c.taken = c.ready s ++ rest := by
  have himp : ∀ e, c.unlocks e = true → (!e.optional || c.taken) = true := by
    intro e he
    exact (Bool.and_eq_true_iff.mp he).2
  have hready : c.ready s = s.elements.takeWhile c.unlocks := by
    unfold ready
    rw [hcursor, List.drop_zero]
  rw [← hs.path_first, hready]
  exact ⟨_, takeWhile_of_imp himp s.elements⟩

/-- **With an access missing, too little is charged.** -/
theorem total_walk_lt {s : Script} (hs : s.Regular) (hpos : ∀ e ∈ s.elements, 0 < e.total)
    {c : Capture ι} (hcursor : c.cursor = 0) (hlen : c.log.length < s.slotsOn c.taken) :
    Cost.total (c.walk s).2 < s.totalOn c.taken := by
  obtain ⟨rest, hpath⟩ := path_eq_ready_append hs hcursor
  obtain ⟨e, he, hslot⟩ := hs.covered c.taken c.log.length hlen
  have hrest : e ∈ rest := by
    rw [hpath] at he
    refine (List.mem_append.mp he).resolve_left fun hready => ?_
    exact absurd (slot_lt_of_unlocks (unlocks_of_mem_ready hready) hslot) (Nat.lt_irrefl _)
  have howed : 0 < (rest.map Element.total).sum :=
    List.sum_pos_iff_exists_pos_nat.mpr
      ⟨e.total, List.mem_map_of_mem hrest, hpos e (Script.mem_path.mp he).1⟩
  have hport : ∀ e ∈ c.ready s, e.isPort = true → e.total = Script.portCycles := by
    intro e he
    have hmem : e ∈ s.path c.taken := by
      rw [hpath]
      exact List.mem_append_left _ he
    exact hs.port_total e (Script.mem_path.mp hmem).1
  have hcharged : Cost.total (c.walk s).2 = ((c.ready s).map Element.total).sum :=
    total_flatMap_costs c hport
  rw [hcharged, hs.sums, hpath, List.map_append, List.sum_append]
  omega

/-- **An access behind the last slot is not charged.** -/
theorem walk_log_surplus {s : Script} (hs : s.Regular) {c : Capture ι} (hcursor : c.cursor = 0)
    {i : Nat} (hi : s.slotsOn c.taken ≤ i) (hlen : i < c.log.length) :
    (c.walk s).1.log[i]? = c.log[i]? := by
  have hready := ready_complete hs hcursor (Nat.le_of_lt (Nat.lt_of_le_of_lt hi hlen))
  have hnone : (s.path c.taken).any (·.slot? = some i) = false := by
    rw [List.any_eq_false]
    intro e he hslot
    have := Script.slot_lt_slotsOn he (of_decide_eq_true hslot)
    omega
  show (c.mark (c.ready s)).log[i]? = c.log[i]?
  rw [hready, mark_log_getElem?]
  simp [hnone]

/-- With as many accesses as its path needs, a script is charged to the end of the path. -/
theorem walk_cursor {s : Script} (hs : s.Regular) {c : Capture ι} (hcursor : c.cursor = 0)
    (hlen : c.log.length = s.slotsOn c.taken) :
    (c.walk s).1.cursor = (s.path c.taken).length := by
  show c.cursor + (c.ready s).length = _
  rw [ready_complete hs hcursor (Nat.le_of_eq hlen.symm), hcursor, Nat.zero_add]

end Capture

namespace Timer

/-- An instruction that does not add up does not end. -/
theorem finish_of_unreconciled {t : Timer} (hactive : t.capture.active = true)
    (h : t.capture.predicted ≠ t.capture.consumed ∨
      ∃ a ∈ t.capture.log, a.marks.charged = false) : t.finish = .error .unreconciled := by
  have hrec : t.reconciles = false := by
    rcases h with hne | ⟨a, ha, hfree⟩
    · simp [reconciles, sumsAgree, hne]
    · have hsome : t.capture.firstUncharged? ≠ none := by
        intro hnone
        have hall := List.findIdx?_eq_none_iff.mp hnone a ha
        simp [hfree] at hall
      simp [reconciles, Option.isNone_eq_false_iff, Option.isSome_iff_ne_none.mpr hsome]
  simp [finish, hactive, hrec]

/-- **Only a complete log ends well.** The first `n` accesses are the bytes. -/
theorem finish_of_unwalked {s : Script} {c : Capture ScriptNumber} (h : c.Unwalked s)
    (hs : s.Regular) (hpos : ∀ e ∈ s.elements, 0 < e.total) (hsmall : s.totalOn c.taken < 2 ^ 32)
    {n : Nat} (hn : n ≤ s.slotsOn c.taken)
    (hfree : ∀ a ∈ c.log.drop n, a.marks.charged = false)
    (hlen : c.log.length ≠ s.slotsOn c.taken) {t : Timer} (ht : t.capture = (c.walk s).1) :
    t.finish = .error .unreconciled := by
  have hactive : t.capture.active = true := by
    rw [ht]
    exact h.active
  rcases Nat.lt_or_gt_of_ne hlen with hless | hmore
  · refine finish_of_unreconciled hactive (.inl ?_)
    rw [ht]
    show c.predicted ≠ c.consumed + UInt32.ofNat (Cost.total (c.walk s).2)
    have hcharged := total_walk_lt hs hpos h.cursor hless
    rw [h.sums, ne_eq, sum_inj hsmall (Nat.lt_trans hcharged hsmall)]
    exact hcharged.ne'
  · refine finish_of_unreconciled hactive (.inr ?_)
    -- the first access that the script has no slot for
    obtain ⟨a, ha⟩ : ∃ a, c.log[s.slotsOn c.taken]? = some a :=
      ⟨_, List.getElem?_eq_getElem hmore⟩
    have hdata : a ∈ c.log.drop n := by
      refine List.mem_of_getElem? (i := s.slotsOn c.taken - n) ?_
      rw [List.getElem?_drop, Nat.add_sub_cancel' hn]
      exact ha
    refine ⟨a, ?_, hfree a hdata⟩
    rw [ht]
    exact List.mem_of_getElem? ((walk_log_surplus hs h.cursor (Nat.le_refl _) hmore).trans ha)

/--
**A lost or surplus access is always caught.** Take any timer with contention and any encoding of an
instruction, with the branch taken or not where there is one. An executor fetches the bytes, and
then makes accesses, as many as it likes and whichever; on the way it reports the documented
T-states in any pieces, and confirms the optional path if it takes it. If these are not as many
accesses as the script needs, then the instruction ends in a fault: the log is full, or what was
charged does not add up. So an instruction that ends without a fault has had each of its accesses
and each element of its path charged.
-/
theorem run_unreconciled (t : Timer) (hv : t.ula.variant.contends = true) (bc ir : UInt16)
    (e : Encoding) (taken : Bool) (htaken : taken = true → e.conditional = true) :
    ∃ id collapsed, Opcode.scriptOf? e.bytes = some (id, collapsed) ∧
      ∀ (ops : List Op) (code data : List Access), (∀ op ∈ ops, op.informs = true) →
        ops.filterMap Op.access? = code ++ data → code.map Access.value = e.bytes →
        (∀ a ∈ data, a.marks.charged = false) →
        (ops.map Op.documented).sum = e.documented + e.extra taken →
        (.confirm ∈ ops ↔ taken = true) →
        (code.length + data.length ≠
            collapsed + (script t.ula.variant id).slotsOn (taken || e.forced) →
          t.run (.begin bc ir :: ops ++ [.finish]) = .error
            (if collapsed + logCapacity < code.length + data.length then .logFull
              else .unreconciled)) ∧
        ∀ after, t.run (.begin bc ir :: ops ++ [.finish]) = .ok after →
          (∀ a ∈ after.capture.log, a.marks.charged = true) ∧
          after.capture.cursor =
            ((script t.ula.variant id).path (taken || e.forced)).length := by
  obtain ⟨front, core, id, h⟩ := e.exists_splits
  refine ⟨id, front.length, h.scriptOf?, ?_⟩
  intro ops code data hops haccesses hcode hfree hdocumented hconfirm
  have hev : Evidence.ofOps ops =
      { accesses := code ++ data, taken, documented := e.documented + e.extra taken } := by
    have htold : ops.contains .confirm = taken := by
      rw [Bool.eq_iff_iff, List.contains_iff_mem]
      exact hconfirm
    simp only [Evidence.ofOps, haccesses, hdocumented, htold]
  obtain ⟨c, collapsing, own, hc, hpath, -, hlog, hown, -, -, hsettle⟩ :=
    settle_encoding t.ula.variant t.clock.counter bc ir h htaken data hcode
  have habsorb := absorb_of_settle hv hsettle
  rw [length_walk] at habsorb
  generalize t.clock.payAll t.ula
    (collapsing.map Access.indexCost ++ (c.walk (script t.ula.variant id)).2) = clock at habsorb
  have hrun : t.run (.begin bc ir :: ops ++ [.finish]) =
      (if c.log.length ≤ logCapacity then
          .ok { t with clock, capture := (c.walk (script t.ula.variant id)).1 }
        else .error .logFull : Except Fault Timer).bind Timer.finish := by
    rw [← habsorb, ← hev]
    exact run_begin_finish t hv bc ir hops
  have hcount : code.length + data.length = front.length + c.log.length := by
    have hbytes : code.length = front.length + core.length := by
      rw [← List.length_map (f := Access.value), hcode, h.bytes, List.length_append]
    rw [hbytes, hlog, List.length_append, hown, Nat.add_assoc]
  -- the bytes that stay in the log all have a slot on any path
  have hcode : own.length ≤ (script t.ula.variant id).slotsOn c.taken := by
    refine Nat.le_trans ?_ (Script.slotsOn_false_le _ c.taken)
    rw [hown, slotsOn_script]
    exact h.logged
  have hrest : ∀ a ∈ c.log.drop own.length, a.marks.charged = false := by
    rw [hlog, List.drop_left]
    exact hfree
  rw [hcount, ← hpath]
  rcases Nat.lt_or_ge logCapacity c.log.length with hfull | hroom
  · -- there is no room for all of them
    rw [hrun, if_neg (Nat.not_le.mpr hfull), if_pos (Nat.add_lt_add_left hfull _)]
    exact ⟨fun _ => rfl, fun after hafter => absurd hafter (by simp [Except.bind])⟩
  rw [hrun, if_pos hroom, if_neg (Nat.not_lt.mpr (Nat.add_le_add_left hroom _))]
  by_cases hlen : c.log.length = (script t.ula.variant id).slotsOn c.taken
  · -- as many as the path needs
    obtain ⟨hcharged, hconsumed⟩ := walk_complete (regular t.ula.variant id) hc.cursor hlen
    have hfinish := finish_of_charged
      (t := { t with clock, capture := (c.walk (script t.ula.variant id)).1 }) hc.active hcharged
      (hc.sums.trans hconsumed.symm)
    refine ⟨fun hne => absurd (congrArg _ hlen) hne, fun after hafter => ?_⟩
    cases hfinish.symm.trans hafter
    exact ⟨hcharged, walk_cursor (regular ..) hc.cursor hlen⟩
  · -- too few or too many
    have hfault := finish_of_unwalked (t := { t with
      clock, capture := (c.walk (script t.ula.variant id)).1 }) hc (regular ..) (total_pos _ _)
      (Nat.lt_of_le_of_lt (totalOn_le ..) (by decide)) hcode hrest hlen rfl
    exact ⟨fun _ => hfault, fun after hafter => absurd (hfault.symm.trans hafter) (by simp)⟩

/-- `PUSH BC` that writes one byte only, and that writes both. -/
theorem run_unreconciled_push :
    run { ula := .spectrum48k } (.begin 0 0 :: [.record ⟨0x8000, 0xC5, .memoryRead, ""⟩,
        .elapse .documented 11, .record ⟨0xFFFF, 0x12, .memoryWrite, ""⟩] ++ [.finish]) =
      .error .unreconciled ∧
    ∃ after, run { ula := .spectrum48k } (.begin 0 0 :: [.record ⟨0x8000, 0xC5, .memoryRead, ""⟩,
        .elapse .documented 11, .record ⟨0xFFFF, 0x12, .memoryWrite, ""⟩,
        .record ⟨0xFFFE, 0x34, .memoryWrite, ""⟩] ++ [.finish]) = .ok after ∧
      (∀ a ∈ after.capture.log, a.marks.charged = true) ∧ after.capture.cursor = 4 := by
  obtain ⟨id, collapsed, hscript, h⟩ := run_unreconciled { ula := .spectrum48k } (by decide) 0 0
    (.primary 0xC5 (by decide)) false (by decide)
  have hpush : (id, collapsed) = (25, 0) := Option.some.inj (hscript.symm.trans (by decide))
  cases hpush
  have hlost := (h [.record ⟨0x8000, 0xC5, .memoryRead, ""⟩, .elapse .documented 11,
      .record ⟨0xFFFF, 0x12, .memoryWrite, ""⟩] [⟨0x8000, 0xC5, .memoryRead, ""⟩]
    [⟨0xFFFF, 0x12, .memoryWrite, ""⟩] (by decide) (by decide) (by decide) (by decide) (by decide)
    (by decide)).1 (by decide +kernel)
  have hok : (run { ula := .spectrum48k } (.begin 0 0 ::
      [.record ⟨0x8000, 0xC5, .memoryRead, ""⟩, .elapse .documented 11,
        .record ⟨0xFFFF, 0x12, .memoryWrite, ""⟩, .record ⟨0xFFFE, 0x34, .memoryWrite, ""⟩] ++
      [.finish])).isOk = true := by
    decide +kernel
  obtain ⟨after, hafter⟩ := exists_of_isOk hok
  obtain ⟨hcharged, hcursor⟩ := (h [.record ⟨0x8000, 0xC5, .memoryRead, ""⟩,
      .elapse .documented 11, .record ⟨0xFFFF, 0x12, .memoryWrite, ""⟩,
      .record ⟨0xFFFE, 0x34, .memoryWrite, ""⟩] [⟨0x8000, 0xC5, .memoryRead, ""⟩]
    [⟨0xFFFF, 0x12, .memoryWrite, ""⟩, ⟨0xFFFE, 0x34, .memoryWrite, ""⟩] (by decide) (by decide)
    (by decide) (by decide) (by decide) (by decide)).2 after hafter
  exact ⟨hlost, after, hafter, hcharged, hcursor.trans (by decide +kernel)⟩

end Timer

end SpectrumTiming
