import SpectrumTiming.Proofs.Encoding
import SpectrumTiming.Proofs.Reachable

/-!
# Every instruction reconciles

An executor fetches the bytes of an instruction and reports the documented times on the way, makes
the accesses of the instruction, and reports and confirms the branch if it takes one. At the end the
timer compares what it has charged with what it was told, and gives up if they differ.

They never differ (`run_reconciles`): whatever the encoding, the clock, the paged bank and the
addresses, every access has been charged and the T-states agree, and no sum overflows unless the
documented T-states do not fit themselves. Where the log is complete, the walk comes to the end of
the path (`walk_complete`); how long a path is and how many accesses it needs is in the table of
extents, which the durations were held against already (`Encoding.exists_splits`).
-/

namespace SpectrumTiming

open Capture Standard

theorem takeWhile_congr {α : Type} {p q : α → Bool} {l : List α} (h : ∀ x ∈ l, p x = q x) :
    l.takeWhile p = l.takeWhile q := by
  induction l with
  | nil => rfl
  | cons x l ih =>
    obtain ⟨hx, hl⟩ := List.forall_mem_cons.mp h
    rw [List.takeWhile_cons, List.takeWhile_cons, hx, ih hl]

namespace Capture

/-- With every access of its path in the log, a script can be charged to the end of the path. -/
theorem ready_complete {ι : Type} {s : Script} (hs : s.Regular) {c : Capture ι}
    (hcursor : c.cursor = 0) (hlen : s.slotsOn c.taken ≤ c.log.length) :
    c.ready s = s.path c.taken := by
  have hcongr : ∀ e ∈ s.elements, c.unlocks e = (!e.optional || c.taken) := by
    intro e he
    cases hpath : (!e.optional || c.taken) with
    | false => simp only [unlocks, hpath, Bool.and_false]
    | true =>
      -- an element of the path: its access is in the log
      have hslot : e.slot?.all (· < c.log.length) = true := by
        rw [Option.all_eq_true]
        intro slot hslot
        rw [decide_eq_true_eq]
        exact Nat.lt_of_lt_of_le
          (Script.slot_lt_slotsOn (Script.mem_path.mpr ⟨he, hpath⟩) hslot) hlen
      simp only [unlocks, hpath, hslot, Bool.and_true]
  unfold ready
  rw [hcursor, List.drop_zero, takeWhile_congr hcongr, hs.path_first]

/-- With every access of its path in the log, a script costs as much as its path. -/
theorem total_walk {ι : Type} {s : Script} (hs : s.Regular) {c : Capture ι} (hcursor : c.cursor = 0)
    (hlen : c.log.length = s.slotsOn c.taken) : Cost.total (c.walk s).2 = s.totalOn c.taken := by
  have hport : ∀ e ∈ s.path c.taken, e.isPort = true → e.total = Script.portCycles :=
    fun e he => hs.port_total e (Script.mem_path.mp he).1
  rw [hs.sums, ← total_flatMap_costs c hport, ← ready_complete hs hcursor (Nat.le_of_eq hlen.symm)]
  rfl

/-- **A complete log is charged completely.** -/
theorem walk_complete {ι : Type} {s : Script} (hs : s.Regular) {c : Capture ι}
    (hcursor : c.cursor = 0) (hlen : c.log.length = s.slotsOn c.taken) :
    (∀ a ∈ (c.walk s).1.log, a.marks.charged = true) ∧
      (c.walk s).1.consumed = c.consumed + s.totalOn c.taken := by
  have hready := ready_complete hs hcursor (Nat.le_of_eq hlen.symm)
  refine ⟨?_, ?_⟩
  · intro a ha
    obtain ⟨i, hi⟩ := List.mem_iff_getElem?.mp ha
    have hmark : (c.mark (s.path c.taken)).log[i]? = some a := by
      rw [← hready]
      exact hi
    rw [mark_log_getElem?] at hmark
    obtain ⟨b, hb, rfl⟩ := Option.map_eq_some_iff.mp hmark
    have hlt : i < s.slotsOn c.taken := by
      rw [← hlen]
      exact (List.getElem?_eq_some_iff.mp hb).1
    obtain ⟨e, he, hslot⟩ := hs.covered c.taken i hlt
    have hany : (s.path c.taken).any (·.slot? = some i) = true :=
      List.any_eq_true.mpr ⟨e, he, by simpa using hslot⟩
    rw [if_pos hany]
    rfl
  · rw [← total_walk hs hcursor hlen]
    rfl

/-- What a complete log costs is what the path does. -/
theorem walk_costs {ι : Type} {s : Script} (hs : s.Regular) {c : Capture ι} (hcursor : c.cursor = 0)
    (hlen : c.log.length = s.slotsOn c.taken) : (c.walk s).2 = (s.path c.taken).flatMap c.costs := by
  rw [← ready_complete hs hcursor (Nat.le_of_eq hlen.symm)]
  rfl

/-- A capture that knows its script and has charged nothing of it, and that was told of as many
T-states as the path takes, on top of what has been charged already. -/
structure Unwalked (s : Script) (c : Capture ι) : Prop where
  active : c.active = true
  cursor : c.cursor = 0
  sums : c.predicted = c.consumed + s.totalOn c.taken

/-- A capture once its script has been found. -/
def withScript (c : Capture ScriptNumber) (id : ScriptNumber) (forced : Bool) :
    Capture ScriptNumber :=
  { c with script? := some id, taken := c.taken || forced }

/-- Once the bytes tell the script, settling is walking it. -/
theorem settle_of_recognized (v : Variant) {c : Capture ScriptNumber} {id : ScriptNumber}
    {forced : Bool} (hs : c.script? = none) (hrec : recognize c.log = .script id forced) :
    settle v c = (c.withScript id forced).walk (script v id) := by
  have hcol : c.collapse = (c, []) := collapse_of_ne (by simp [hrec])
  have hres : c.resolve = (c.withScript id forced, []) := by
    rw [resolve_of_none hs, hcol, assign_of_script hrec]
    rfl
  have hsome : c.resolve.1.script? = some id := by rw [hres]; rfl
  rw [settle_of_some v hsome, hres]
  rfl

end Capture

/-! ## What an executor reports -/

theorem Evidence.ofOps_records (as : List Access) :
    ofOps (as.map .record) = { accesses := as } := by
  induction as with
  | nil => rfl
  | cons a as ih =>
    rw [List.map_cons, ← List.singleton_append, ofOps_append, ih]
    rfl

/-- Accesses, each with a time that is reported behind it, or with none. -/
theorem Evidence.ofOps_fetches (code : List Access) (reports : List (Option Nat))
    (hlen : code.length = reports.length) :
    ofOps ((code.zip reports).flatMap fun f =>
        .record f.1 :: f.2.toList.map (Timer.Op.elapse .documented)) =
      { accesses := code, documented := (reports.map (·.getD 0)).sum } := by
  induction code generalizing reports with
  | nil =>
    have hnil : reports = [] := List.length_eq_zero_iff.mp hlen.symm
    rw [hnil]
    rfl
  | cons a code ih =>
    cases reports with
    | nil => exact absurd hlen (by simp)
    | cons report? reports =>
      have hrest := ih reports (Nat.succ.inj hlen)
      have hreport : ofOps (report?.toList.map (Timer.Op.elapse .documented)) =
          { documented := report?.getD 0 } := by
        cases report? with
        | none => rfl
        | some cycles => exact ofOps_documented cycles
      rw [List.zip_cons_cons, List.flatMap_cons, List.cons_append, ← List.singleton_append,
        ofOps_append, ofOps_append, hrest, hreport]
      simp [andThen]

namespace Encoding

/-- What an executor reports of an instruction. It fetches the bytes, with the times it looks up on
the way, and makes the first accesses; if it branches, it says how long that takes and confirms it;
then it makes the other accesses. -/
def drive (e : Encoding) (taken : Bool) (code first second : List Access) : List Timer.Op :=
  (code.zip e.reports).flatMap (fun f =>
      .record f.1 :: f.2.toList.map (Timer.Op.elapse .documented)) ++
    first.map .record ++
    (if taken then [.elapse .documented (Opcode.duration .extra e.opcode), .confirm] else []) ++
    second.map .record

theorem length_reports {e : Encoding} {code : List Access}
    (hcode : code.map Access.value = e.bytes) : code.length = e.reports.length := by
  rw [← List.length_map Access.value, hcode, bytes, reports, List.length_map, List.length_map]

theorem ofOps_drive (e : Encoding) (taken : Bool) {code : List Access} (first second : List Access)
    (hlen : code.length = e.reports.length) :
    Evidence.ofOps (e.drive taken code first second) =
      { accesses := code ++ (first ++ second), taken, documented := e.documented + e.extra taken } := by
  have hbranch : Evidence.ofOps (if taken then
        [.elapse .documented (Opcode.duration .extra e.opcode), .confirm] else []) =
      { taken, documented := e.extra taken } := by
    cases taken with
    | false => rfl
    | true =>
      simp [Evidence.ofOps, Timer.Op.access?, Timer.Op.documented, Encoding.extra]
  unfold drive
  rw [Evidence.ofOps_append, Evidence.ofOps_append, Evidence.ofOps_append,
    Evidence.ofOps_fetches code e.reports hlen, Evidence.ofOps_records, Evidence.ofOps_records,
    hbranch]
  simp [Evidence.andThen, documented]

theorem informs_of_mem_drive {e : Encoding} {taken : Bool} {code first second : List Access} :
    ∀ op ∈ e.drive taken code first second, op.informs = true := by
  have hrecords : ∀ (as : List Access), ∀ op ∈ as.map Timer.Op.record, op.informs = true := by
    intro as op hop
    obtain ⟨a, _, rfl⟩ := List.mem_map.mp hop
    rfl
  intro op hop
  simp only [drive, List.mem_append] at hop
  rcases hop with ((hop | hop) | hop) | hop
  · obtain ⟨f, _, hop⟩ := List.mem_flatMap.mp hop
    rcases List.mem_cons.mp hop with rfl | hop
    · rfl
    · obtain ⟨cycles, _, rfl⟩ := List.mem_map.mp hop
      rfl
  · exact hrecords first op hop
  · cases taken with
    | false => exact absurd hop (by simp)
    | true =>
      rcases List.mem_cons.mp hop with rfl | hop
      · rfl
      · rw [List.mem_singleton.mp hop]
        rfl
  · exact hrecords second op hop

/-- The accesses that fetch an encoding fall apart as its bytes do. -/
theorem Splits.accesses {e : Encoding} {front core : List UInt8} {id : ScriptNumber}
    (h : e.Splits front core id) {code : List Access} (hcode : code.map Access.value = e.bytes) :
    ∃ collapsing own, code = collapsing ++ own ∧ collapsing.length = front.length ∧
      own.length = core.length ∧
      (∀ a ∈ collapsing, Opcode.isIndexByte a.value = true) ∧
      (∃ a, own.head? = some a ∧ (collapsing = [] ∨ Opcode.collapses a.value = true)) ∧
      Capture.recognize own = .script id e.forced := by
  obtain ⟨collapsing, own, rfl, hfront, hcore⟩ := List.map_eq_append_iff.mp (hcode.trans h.bytes)
  refine ⟨collapsing, own, rfl, by rw [← hfront, List.length_map], by rw [← hcore, List.length_map],
    ?_, ?_, ?_⟩
  · intro a ha
    exact h.index _ (hfront ▸ List.mem_map_of_mem ha)
  · obtain ⟨b, hb, hc⟩ := h.head
    obtain ⟨bytes, hbytes⟩ := List.head?_eq_some_iff.mp hb
    obtain ⟨a, rest, rfl, ha, _⟩ := List.map_eq_cons_iff.mp (hcore.trans hbytes)
    refine ⟨a, rfl, ?_⟩
    rw [ha]
    refine hc.imp_left fun hnil => ?_
    rwa [hnil, List.map_eq_nil_iff] at hfront
  · unfold Capture.recognize
    rw [hcore]
    exact h.recognized

end Encoding

namespace Capture

/-- **Told of a whole instruction**, a capture pays for what collapses in front and walks the script
that the rest tells. -/
theorem settle_encoding (v : Variant) (tstate : Nat) (bc ir : UInt16) {e : Encoding}
    {front core : List UInt8} {id : ScriptNumber} (h : e.Splits front core id) {taken : Bool}
    (htaken : taken = true → e.conditional = true) {code : List Access} (data : List Access)
    (hcode : code.map Access.value = e.bytes) :
    ∃ (c : Capture ScriptNumber) (collapsing own : List Access),
      c.Unwalked (script v id) ∧ c.taken = (taken || e.forced) ∧
      c.predicted = UInt32.ofNat (e.documented + e.extra taken) ∧ c.log = own ++ data ∧
      own.length = core.length ∧ code = collapsing ++ own ∧
      Cost.total (collapsing.map Access.indexCost) + (script v id).totalOn c.taken =
        e.documented + e.extra taken ∧
      settle v ((begin tstate bc ir).learn
          { accesses := code ++ data, taken, documented := e.documented + e.extra taken }) =
        ((c.walk (script v id)).1,
          collapsing.map Access.indexCost ++ (c.walk (script v id)).2) := by
  obtain ⟨collapsing, own, rfl, hcount, hown, hindex, ⟨a, ha, hhead⟩, hrec⟩ := h.accesses hcode
  let rest : Evidence :=
    { accesses := own ++ data, taken, documented := e.documented + e.extra taken }
  have hrest : rest.accesses.head? = some a := by
    show (own ++ data).head? = some a
    rw [List.head?_append, ha, Option.some_or]
  have hall : recognize (own ++ data) = .script id e.forced := by
    rw [recognize_log_append _ (by simp [hrec]), hrec]
  have hwhole : Evidence.andThen { accesses := collapsing } rest =
      { accesses := (collapsing ++ own) ++ data, taken,
        documented := e.documented + e.extra taken } := by
    simp [Evidence.andThen, rest]
  obtain ⟨paid, hpaid⟩ : ∃ paid,
      paid = (begin tstate bc ir).consume (indexCycles * collapsing.length) := ⟨_, rfl⟩
  have hwalk : settle v (paid.learn rest) =
      ((paid.learn rest).withScript id e.forced).walk (script v id) :=
    settle_of_recognized v (by rw [hpaid]; rfl) (by rw [hpaid]; exact hall)
  have hchain := settle_chain v (c := begin tstate bc ir) rfl rfl hindex hrest hhead
  rw [hwhole, ← hpaid, hwalk] at hchain
  have htotal : Cost.total (collapsing.map Access.indexCost) = indexCycles * collapsing.length :=
    total_index collapsing
  have hdocumented : indexCycles * collapsing.length +
      (script v id).totalOn (taken || e.forced) = e.documented + e.extra taken := by
    rw [hcount]
    exact h.documented_add_extra htaken v
  subst hpaid
  refine ⟨_, collapsing, own, ⟨rfl, rfl, ?_⟩, rfl, UInt32.zero_add _, rfl, hown, rfl,
    by rw [htotal]; exact hdocumented, hchain⟩
  show 0 + UInt32.ofNat (e.documented + e.extra taken) =
    0 + UInt32.ofNat (indexCycles * collapsing.length) +
      UInt32.ofNat ((script v id).totalOn (taken || e.forced))
  rw [← hdocumented, sum_add]

end Capture

namespace Timer

/-- A timer that is told something right after the beginning does what the capture settles to. -/
theorem absorb_of_settle {t : Timer} (hv : t.ula.variant.contends = true) {bc ir : UInt16}
    {ev : Evidence} {c : Capture ScriptNumber} {costs : List Cost}
    (hsettle : Capture.settle t.ula.variant ((Capture.begin t.clock.counter bc ir).learn ev) =
      (c, costs)) :
    (t.begin bc ir).absorb ev =
      if c.log.length ≤ logCapacity then
        .ok { t with clock := t.clock.payAll t.ula costs, capture := c }
      else .error .logFull := by
  have hbegin : t.begin bc ir = { t with capture := .begin t.clock.counter bc ir } := if_pos hv
  rw [hbegin, absorb]
  simp only [learn, settle, hsettle]

/-- Ending an instruction that adds up. -/
theorem finish_of_charged {t : Timer} (hactive : t.capture.active = true)
    (hcharged : ∀ a ∈ t.capture.log, a.marks.charged = true)
    (hsums : t.capture.predicted = t.capture.consumed) :
    t.finish = .ok { t with capture := { t.capture with active := false } } := by
  have hnone : t.capture.firstUncharged? = none := by
    unfold firstUncharged?
    rw [List.findIdx?_eq_none_iff]
    intro a ha
    simp [hcharged a ha]
  have hrec : t.reconciles = true := by
    simp [reconciles, sumsAgree, hsums, hnone]
  simp [finish, hactive, hrec]

/-- **A whole instruction**, told in any order with all of its accesses, ends without a fault. Each
access has been charged, and for as long as what was documented; the clock has paid for the index
bytes that collapse and then for the path of the script. -/
theorem run_complete {t : Timer} (hv : t.ula.variant.contends = true) (bc ir : UInt16)
    {e : Encoding} {front core : List UInt8} {id : ScriptNumber} (h : e.Splits front core id)
    {taken : Bool} (htaken : taken = true → e.conditional = true) {ops : List Op}
    (hops : ∀ op ∈ ops, op.informs = true) {code data : List Access}
    (hcode : code.map Access.value = e.bytes)
    (hev : Evidence.ofOps ops =
      { accesses := code ++ data, taken, documented := e.documented + e.extra taken })
    (hlen : code.length + data.length =
      front.length + (script t.ula.variant id).slotsOn (taken || e.forced)) :
    ∃ after costs, t.run (.begin bc ir :: ops ++ [.finish]) = .ok after ∧
      (∀ a ∈ after.capture.log, a.marks.charged = true) ∧
      after.capture.predicted = UInt32.ofNat (e.documented + e.extra taken) ∧
      after.capture.consumed = UInt32.ofNat (e.documented + e.extra taken) ∧
      costs = (code.take front.length).map Access.indexCost ++
        ((script t.ula.variant id).path (taken || e.forced)).flatMap after.capture.costs ∧
      Cost.total costs = e.documented + e.extra taken ∧
      after.clock = t.clock.payAll t.ula costs ∧
      (e.documented + e.extra taken < 2 ^ 32 →
        Strict.run t (.begin bc ir :: ops ++ [.finish]) = .ok after) := by
  obtain ⟨c, collapsing, own, hc, hpath, hpredicted, hlog, hown, rfl, htotal, hsettle⟩ :=
    settle_encoding t.ula.variant t.clock.counter bc ir h htaken data hcode
  have habsorb := absorb_of_settle hv hsettle
  have hcollapsing : collapsing.length = front.length := by
    have hbytes := congrArg List.length hcode
    rw [List.length_map, h.bytes, List.length_append, List.length_append] at hbytes
    omega
  have hcount : c.log.length = (script t.ula.variant id).slotsOn c.taken := by
    rw [List.length_append] at hlen
    rw [hlog, hpath, List.length_append]
    omega
  have hroom : (c.walk (script t.ula.variant id)).1.log.length ≤ logCapacity := by
    rw [length_walk, hcount]
    exact Nat.le_trans (Script.slotsOn_le _ _) (regular t.ula.variant id).fits
  obtain ⟨hcharged, hconsumed⟩ := walk_complete (regular t.ula.variant id) hc.cursor hcount
  have hspent := hconsumed.trans (hc.sums.symm.trans hpredicted)
  rw [if_pos hroom] at habsorb
  have hfinish := finish_of_charged (t := { t with
      clock := t.clock.payAll t.ula
        (collapsing.map Access.indexCost ++ (c.walk (script t.ula.variant id)).2)
      capture := (c.walk (script t.ula.variant id)).1 })
    hc.active hcharged (hc.sums.trans hconsumed.symm)
  have htotal : Cost.total
      (collapsing.map Access.indexCost ++ (c.walk (script t.ula.variant id)).2) =
        e.documented + e.extra taken := by
    rw [Cost.total_append, total_walk (regular t.ula.variant id) hc.cursor hcount, htotal]
  have hrun := run_begin_finish t hv bc ir hops
  rw [hev, habsorb] at hrun
  refine ⟨_, collapsing.map Access.indexCost ++ (c.walk (script t.ula.variant id)).2,
    hrun.trans hfinish, hcharged, hpredicted, hspent, ?_, htotal, rfl, fun hfits => ?_⟩
  · show _ = _ ++ ((script t.ula.variant id).path (taken || e.forced)).flatMap
      (c.walk (script t.ula.variant id)).1.costs
    rw [List.take_left' hcollapsing, costs_walk, ← hpath,
      walk_costs (regular t.ula.variant id) hc.cursor hcount]
  · refine Strict.run_begin_finish hv bc ir hops (hrun.trans hfinish) ?_ ?_
    · rw [hev]
      exact hfits
    · rw [hev, hsettle, htotal]
      exact hfits

/--
**Every instruction reconciles.** Take any timer with contention and any encoding of an instruction,
with the branch taken or not where there is one. Its bytes tell a script. If then an executor makes
as many accesses as the script has slots for, first those of the mandatory elements and, if the
optional path is forced or confirmed, the others after them, no operation faults. In the end every
access that is left in the log has been charged, and what was charged is what was documented. Only so
many index bytes in front that this does not fit into 32 bits would make a sum overflow.
-/
theorem run_reconciles (t : Timer) (hv : t.ula.variant.contends = true) (bc ir : UInt16)
    (e : Encoding) (taken : Bool) (htaken : taken = true → e.conditional = true) :
    ∃ id collapsed, Opcode.scriptOf? e.bytes = some (id, collapsed) ∧
      ∀ code first second : List Access, code.map Access.value = e.bytes →
        first.length =
          (script t.ula.variant id).slotsOn false - (e.bytes.length - collapsed) →
        second.length = (script t.ula.variant id).slotsOn (taken || e.forced) -
          max ((script t.ula.variant id).slotsOn false) (e.bytes.length - collapsed) →
        ∃ after,
          t.run (.begin bc ir :: e.drive taken code first second ++ [.finish]) = .ok after ∧
          (∀ a ∈ after.capture.log, a.marks.charged = true) ∧
          after.capture.predicted = after.capture.consumed ∧
          after.capture.consumed = UInt32.ofNat (e.documented + e.extra taken) ∧
          (e.documented + e.extra taken < 2 ^ 32 →
            Strict.run t (.begin bc ir :: e.drive taken code first second ++ [.finish]) =
              .ok after) := by
  obtain ⟨front, core, id, h⟩ := e.exists_splits
  refine ⟨id, front.length, h.scriptOf?, ?_⟩
  intro code first second hcode hfirst hsecond
  have hlen : code.length + (first ++ second).length =
      front.length + (script t.ula.variant id).slotsOn (taken || e.forced) := by
    have hbytes : e.bytes.length = front.length + core.length := by
      rw [h.bytes, List.length_append]
    have hown : code.length = e.bytes.length := by
      rw [← hcode, List.length_map]
    have hlogged : core.length ≤ (script t.ula.variant id).slotsOn false := by
      rw [slotsOn_script]
      exact h.logged
    have hmore := (script t.ula.variant id).slotsOn_false_le (taken || e.forced)
    rw [List.length_append]
    omega
  obtain ⟨after, _, hrun, hcharged, hpredicted, hconsumed, _, _, _, hstrict⟩ :=
    run_complete hv bc ir h htaken Encoding.informs_of_mem_drive hcode
      (Encoding.ofOps_drive e taken first second (Encoding.length_reports hcode)) hlen
  exact ⟨after, hrun, hcharged, hpredicted.trans hconsumed.symm, hconsumed, hstrict⟩

/-- `LDIR` that repeats, behind an index byte without effect, with the screen in its way. -/
theorem run_reconciles_ldir :
    let t : Timer := { ula := .spectrum48k, clock := { counter := 14335 } }
    let ldir : List Op := Encoding.drive (.extended [⟨0xDD, by decide⟩] 0xB0) true
      [⟨0x4000, 0xDD, .memoryRead, ""⟩, ⟨0x4001, 0xED, .memoryRead, ""⟩,
        ⟨0x4002, 0xB0, .memoryRead, ""⟩]
      [⟨0x8000, 0x12, .memoryRead, ""⟩, ⟨0x5000, 0x12, .memoryWrite, ""⟩] []
    ∃ after, t.run (.begin 0x0002 0x3F00 :: ldir ++ [.finish]) = .ok after ∧
      (∀ a ∈ after.capture.log, a.marks.charged = true) ∧
      after.capture.predicted = after.capture.consumed ∧ after.capture.consumed = 25 ∧
      Strict.run t (.begin 0x0002 0x3F00 :: ldir ++ [.finish]) = .ok after := by
  intro t ldir
  obtain ⟨id, collapsed, hscript, h⟩ := run_reconciles t (by decide) 0x0002 0x3F00
    (.extended [⟨0xDD, by decide⟩] 0xB0) true (by decide)
  have hldir : (id, collapsed) = (33, 1) := Option.some.inj (hscript.symm.trans (by decide))
  cases hldir
  obtain ⟨after, hrun, hcharged, hsums, hconsumed, hstrict⟩ :=
    h [⟨0x4000, 0xDD, .memoryRead, ""⟩, ⟨0x4001, 0xED, .memoryRead, ""⟩,
        ⟨0x4002, 0xB0, .memoryRead, ""⟩]
      [⟨0x8000, 0x12, .memoryRead, ""⟩, ⟨0x5000, 0x12, .memoryWrite, ""⟩] []
      (by decide) (by decide +kernel) (by decide +kernel)
  exact ⟨after, hrun, hcharged, hsums, hconsumed, hstrict (by decide)⟩

end Timer

end SpectrumTiming
