import SpectrumTiming.Proofs.Delays
import SpectrumTiming.Proofs.Reachable

/-!
# How long an instruction is held off

While an instruction runs, the time that passes is what is charged and the delays the ULA imposes
(`run_elapsed`). What is charged is counted beside the timer, whose own sum has 32 bits. How often
the ULA is asked for a delay can be read off the capture: once for each index byte that was taken off
the log at a contended address, and for each element before the cursor as often as its address and
its factor say (`Capture.asked`). Each answer is a delay of the pattern or zero, so the delays add up
to no more than the longest of the pattern for each question.

As long as the beam stays within the fetched part of one line no answer is zero by position, and the
shortest delay of the pattern is a bound from below. What matters is only where the clock stands at
the beginning and at the end: in between it goes through the T-states in between, unless a frame has
ended (`counter_le_foldl`).
-/

namespace SpectrumTiming

open Capture

/-! ## Delays of a pattern -/

namespace Ula

variable (u : Ula)

/-- The longest delay of the pattern. -/
def longest : Nat := u.pattern.toList.max?.getD 0

/-- The shortest delay of the pattern. -/
def shortest : Nat := u.pattern.toList.min?.getD 0

theorem longest_replicate {u : Ula} {d : Nat} (h : u.pattern = .replicate 8 d) : u.longest = d := by
  rw [longest, h]
  simp [Vector.toList_replicate]

theorem shortest_replicate {u : Ula} {d : Nat} (h : u.pattern = .replicate 8 d) :
    u.shortest = d := by
  rw [shortest, h]
  simp [Vector.toList_replicate]

/-- The ZX Spectrum 48K, had it the same delay in all T-states. -/
def uniform48k (d : Nat) : Ula := { spectrum48k with pattern := .replicate 8 d }

/-- The beam is in the fetched part of a display line. -/
def Fetches (line counter : Nat) : Prop :=
  line < fetchedLines ∧ ∃ column, u.beam? counter = some (line, column) ∧ column < fetchedColumns

variable {u}

theorem delay_le_longest (counter : Nat) : u.delay counter ≤ u.longest := by
  unfold delay
  split
  · split
    · exact List.le_max?_getD_of_mem (Vector.mem_toList_iff.mpr (Vector.getElem_mem _))
    · exact Nat.zero_le _
  · exact Nat.zero_le _

theorem Fetches.shortest_le_delay {line counter : Nat} (h : u.Fetches line counter) :
    u.shortest ≤ u.delay counter := by
  obtain ⟨hline, column, hbeam, hcolumn⟩ := h
  rw [delay_of_beam hbeam hline hcolumn]
  exact List.min?_getD_le_of_mem (Vector.mem_toList_iff.mpr (Vector.getElem_mem _))

/-- On one line the beam goes through all columns in between. -/
theorem Fetches.between {line a b k : Nat} (ha : u.Fetches line a) (hb : u.Fetches line b)
    (hak : a ≤ k) (hkb : k ≤ b) : u.Fetches line k := by
  obtain ⟨hline, i, hbeam, -⟩ := ha
  obtain ⟨-, j, hbeam', hj⟩ := hb
  obtain ⟨hfrom, -⟩ := beam?_eq_some_iff.mp hbeam
  obtain ⟨hto, hwidth⟩ := beam?_eq_some_iff.mp hbeam'
  have hk : u.beam? k = some (line, k - (u.start + u.line * line)) :=
    beam?_eq_some_iff.mpr ⟨by omega, by omega⟩
  exact ⟨hline, _, hk, by omega⟩

end Ula

/-! ## Delays along a list of phases -/

namespace Clock

variable {u : Ula}

theorem waitsIn_le {m : Nat} (hm : ∀ counter, u.delay counter ≤ m) (ps : List Phase) (c : Clock) :
    c.waitsIn u ps ≤ m * ps.countP Phase.held := by
  induction ps generalizing c with
  | nil => exact Nat.zero_le _
  | cons p ps ih =>
    have hrest := ih (c.passPhase u p)
    have hfirst : c.delay u ≤ m := hm c.counter
    rw [waitsIn]
    by_cases hp : p.held = true
    · rw [if_pos hp, List.countP_cons_of_pos hp, Nat.mul_succ]
      omega
    · rw [if_neg hp, List.countP_cons_of_neg hp]
      omega

theorem frames_le_foldl (ps : List Phase) (c : Clock) :
    c.frames ≤ (ps.foldl (passPhase u) c).frames := by
  induction ps generalizing c with
  | nil => exact Nat.le_refl _
  | cons p ps ih => exact Nat.le_trans (Nat.le_add_right _ _) (ih (c.passPhase u p))

/-- Until the frame ends the counter only moves on. -/
theorem counter_le_passPhase {c : Clock} {p : Phase} (h : (c.passPhase u p).frames = c.frames) :
    c.counter ≤ (c.passPhase u p).counter := by
  simp only [passPhase, advance] at h ⊢
  generalize (if p.held then c.delay u else 0) + p.cycles = n at h ⊢
  have hwithin : c.counter + n < u.frame :=
    (Nat.div_eq_zero_iff_lt u.frame_pos).mp (Nat.add_eq_left.mp h)
  rw [Nat.mod_eq_of_lt hwithin]
  exact Nat.le_add_right _ _

theorem counter_le_foldl {ps : List Phase} {c : Clock}
    (h : (ps.foldl (passPhase u) c).frames = c.frames) :
    c.counter ≤ (ps.foldl (passPhase u) c).counter := by
  induction ps generalizing c with
  | nil => exact Nat.le_refl _
  | cons p ps ih =>
    have hrest := frames_le_foldl (u := u) ps (c.passPhase u p)
    have hfirst : c.frames ≤ (c.passPhase u p).frames := Nat.le_add_right _ _
    rw [List.foldl_cons] at h ⊢
    exact Nat.le_trans (counter_le_passPhase (by omega)) (ih (by omega))

theorem le_waitsIn {m : Nat} {ps : List Phase} {c : Clock}
    (hm : ∀ k, c.counter ≤ k → k ≤ (ps.foldl (passPhase u) c).counter → m ≤ u.delay k)
    (hframes : (ps.foldl (passPhase u) c).frames = c.frames) :
    m * ps.countP Phase.held ≤ c.waitsIn u ps := by
  induction ps generalizing c with
  | nil => exact Nat.le_refl _
  | cons p ps ih =>
    have hfirst : m ≤ c.delay u := hm c.counter (Nat.le_refl _) (counter_le_foldl hframes)
    rw [List.foldl_cons] at hm hframes
    have hlater := frames_le_foldl (u := u) ps (c.passPhase u p)
    have hsooner : c.frames ≤ (c.passPhase u p).frames := Nat.le_add_right _ _
    have hstep : c.counter ≤ (c.passPhase u p).counter := counter_le_passPhase (by omega)
    have hrest := ih (fun k hk => hm k (Nat.le_trans hstep hk)) (by omega)
    rw [waitsIn]
    by_cases hp : p.held = true
    · rw [if_pos hp, List.countP_cons_of_pos hp, Nat.mul_succ]
      omega
    · rw [if_neg hp, List.countP_cons_of_neg hp]
      omega

/-- Both clocks stand in the fetched part of one and the same line of one and the same frame. -/
def SameLine (u : Ula) (c d : Clock) : Prop :=
  d.frames = c.frames ∧ ∃ line, u.Fetches line c.counter ∧ u.Fetches line d.counter

/-- **Each question is answered within the pattern.** -/
theorem waits_bounds (c : Clock) (xs : List Cost) :
    c.waits u xs ≤ u.longest * (xs.flatMap (u.phases c.bank)).countP Phase.held ∧
    (SameLine u c (c.payAll u xs) →
      u.shortest * (xs.flatMap (u.phases c.bank)).countP Phase.held ≤ c.waits u xs) := by
  rw [waits_eq_waitsIn, payAll_eq_foldl]
  refine ⟨waitsIn_le Ula.delay_le_longest _ c, ?_⟩
  rintro ⟨hframes, line, hbefore, hafter⟩
  exact le_waitsIn
    (fun k hk hk' => (hbefore.between hafter hk hk').shortest_le_delay) hframes

end Clock

/-! ## Counting questions -/

/-- How often the ULA is asked for a delay in a port cycle. -/
def Ula.askedAt (u : Ula) (port : UInt16) : Nat :=
  match u.variant with
  | .amstrad => 0
  | .none | .sinclair =>
    if inDisplayBank port then if port % 2 = 0 then 2 else 4
    else if port % 2 = 0 then 1 else 0

theorem Ula.countP_portPhases (u : Ula) (port : UInt16) :
    (u.portPhases port).countP Phase.held = u.askedAt port := by
  unfold portPhases askedAt
  cases u.variant with
  | amstrad => rfl
  | none => simp only; split <;> split <;> rfl
  | sinclair => simp only; split <;> split <;> rfl

namespace Capture

section

variable {ι : Type}

/-- How often the ULA is asked for a delay while an element is charged. -/
def askedFor (u : Ula) (bank : Nat) (c : Capture ι) (e : Element) : Nat :=
  match e.source with
  | .memory slot => if u.contended bank (c.addr slot) then e.repeats else 0
  | .port slot => u.askedAt (c.addr slot)
  | .pair p => if u.contended bank (c.pair p) then e.repeats else 0
  | .idle => 0

theorem askedFor_congr {c d : Capture ι} (u : Ula) (bank : Nat) (haddr : c.addr = d.addr)
    (hpair : c.pair = d.pair) : c.askedFor u bank = d.askedFor u bank := by
  funext e
  simp only [askedFor, haddr, hpair]

theorem countP_replicate_memory (u : Ula) (bank n cycles : Nat) (addr : UInt16) :
    ((List.replicate n (Cost.memory addr cycles)).flatMap (u.phases bank)).countP Phase.held =
      if u.contended bank addr then n else 0 := by
  induction n with
  | zero => simp
  | succ n ih =>
    rw [List.replicate_succ, List.flatMap_cons, List.countP_append, ih]
    cases h : u.contended bank addr <;> simp [Ula.phases, h, Nat.add_comm]

theorem countP_costs (u : Ula) (bank : Nat) (c : Capture ι) (e : Element) :
    ((c.costs e).flatMap (u.phases bank)).countP Phase.held = c.askedFor u bank e := by
  unfold costs askedFor
  cases e.source with
  | memory slot => exact countP_replicate_memory ..
  | port slot =>
    rw [List.flatMap_singleton]
    exact u.countP_portPhases _
  | pair p => exact countP_replicate_memory ..
  | idle =>
    rw [List.countP_eq_zero]
    intro p hp
    obtain ⟨x, hx, hp⟩ := List.mem_flatMap.mp hp
    rw [List.eq_of_mem_replicate hx] at hp
    rw [List.mem_singleton.mp hp]
    simp

theorem countP_flatMap_costs (u : Ula) (bank : Nat) (c : Capture ι) (es : List Element) :
    ((es.flatMap c.costs).flatMap (u.phases bank)).countP Phase.held =
      (es.map (c.askedFor u bank)).sum := by
  induction es with
  | nil => rfl
  | cons e es ih =>
    rw [List.flatMap_cons, List.flatMap_append, List.countP_append, countP_costs, ih, List.map_cons,
      List.sum_cons]

theorem addr_walk (c : Capture ι) (s : Script) : (c.walk s).1.addr = c.addr := by
  funext slot
  have hlog : (c.walk s).1.log.map Access.addr = c.log.map Access.addr := map_addr_mark c _
  rw [addr_eq, addr_eq, hlog]

end

theorem countP_index (u : Ula) (bank : Nat) (xs : List Access) :
    ((xs.map fun a => Cost.memory a.addr indexCycles).flatMap (u.phases bank)).countP Phase.held =
      xs.countP fun a => u.contended bank a.addr := by
  induction xs with
  | nil => rfl
  | cons a xs ih =>
    rw [List.map_cons, List.flatMap_cons, List.countP_append, ih, List.countP_cons, Nat.add_comm]
    cases h : u.contended bank a.addr <;> simp [Ula.phases, h]

/-- How often the ULA has been asked for a delay: for the index bytes that are no longer in the log,
and for the elements that have been charged. -/
def asked (u : Ula) (bank : Nat) (dropped : List Access) (c : Capture ScriptNumber) : Nat :=
  dropped.countP (fun a => u.contended bank a.addr) +
    match c.script? with
    | none => 0
    | some id =>
      (((Standard.script u.variant id).elements.take c.cursor).map (c.askedFor u bank)).sum

/-- The accesses that are missing in the log. -/
def missing (c : Capture ScriptNumber) (reported : List Access) : List Access :=
  reported.take (reported.length - c.log.length)

theorem missing_eq {c : Capture ScriptNumber} {reported front rest : List Access}
    (h : front ++ rest = reported) (hlog : c.log.length = rest.length) :
    c.missing reported = front := by
  rw [missing, ← h, hlog, List.length_append, Nat.add_sub_cancel, List.take_left]

/-- A walk from the beginning of the script asks for the elements before its cursor. -/
theorem asked_walk (u : Ula) (bank : Nat) {c : Capture ScriptNumber} {id : ScriptNumber}
    (hs : c.script? = some id) (hcursor : c.cursor = 0) (dropped : List Access) :
    (c.walk (Standard.script u.variant id)).1.asked u bank dropped =
      dropped.countP (fun a => u.contended bank a.addr) +
        ((c.walk (Standard.script u.variant id)).2.flatMap (u.phases bank)).countP Phase.held := by
  have hknown : (c.walk (Standard.script u.variant id)).1.script? = some id := hs
  have hcharged := take_cursor_walk c (Standard.script u.variant id)
  rw [hcursor, List.take_zero, List.nil_append] at hcharged
  have hasked := askedFor_congr u bank (addr_walk c (Standard.script u.variant id)) rfl
  simp only [asked, hknown]
  rw [hcharged, hasked, ← countP_flatMap_costs]
  rfl

/-- **All questions are accounted for.** -/
theorem countP_settle (u : Ula) (bank : Nat) {c : Capture ScriptNumber} (hs : c.script? = none)
    (hcursor : c.cursor = 0) :
    ((settle u.variant c).2.flatMap (u.phases bank)).countP Phase.held =
      (settle u.variant c).1.asked u bank ((settle u.variant c).1.missing c.log) := by
  have hsplit := splitCollapsing_eq c.log
  have hfront : (c.collapse.2.flatMap (u.phases bank)).countP Phase.held =
      (splitCollapsing c.log).1.countP fun a => u.contended bank a.addr := countP_index ..
  rcases resolve_cases hs with ⟨-, hres⟩ | ⟨id, taken, -, hres⟩
  · have hnone : c.collapse.1.script? = none := hs
    rw [settle_of_none _ (by rw [hres]; exact hs), hres, missing_eq hsplit rfl, hfront]
    simp only [asked, hnone, Nat.add_zero]
  · have hlog (s : Script) :
        (c.resolve.1.walk s).1.log.length = (splitCollapsing c.log).2.length := by
      rw [length_walk, hres]
      rfl
    have hsome : c.resolve.1.script? = some id := by rw [hres]
    have hstart : c.resolve.1.cursor = 0 := by rw [hres]; exact hcursor
    have hindex : c.resolve.2 = c.collapse.2 := by rw [hres]
    rw [settle_of_some _ hsome, missing_eq hsplit (hlog _), asked_walk u bank hsome hstart, hindex,
      List.flatMap_append, List.countP_append, hfront]

end Capture

/-! ## The delays of a run -/

namespace Timer

/-- All delays that are imposed in the course of a run, added up. -/
def delays (t : Timer) : List Op → Nat
  | [] => 0
  | op :: ops =>
    t.clock.waits t.ula (t.charges op) +
      match t.step op with
      | .error _ => 0
      | .ok after => after.delays ops

/-- How often the ULA has been asked for a delay since the instruction began, of which these
accesses have been reported. -/
def asked (t : Timer) (reported : List Access) : Nat :=
  t.capture.asked t.ula t.clock.bank (t.capture.missing reported)

/-- The delays of a run are those that all its costs meet in their order. -/
theorem Ready.delays_eq {t : Timer} (h : t.Ready) {ops : List Op}
    (hops : ∀ op ∈ ops, op.informs = true) {after : Timer} (hrun : t.run ops = .ok after) :
    t.delays ops =
      t.clock.waits t.ula (Capture.settle t.ula.variant (t.capture.learn (.ofOps ops))).2 := by
  induction ops generalizing t with
  | nil =>
    have hsettled : Capture.settle t.ula.variant t.capture = (t.capture, []) := h.settled
    have hnothing : Evidence.ofOps [] = {} := rfl
    rw [hnothing, learn_empty, hsettled]
    rfl
  | cons op ops ih =>
    obtain ⟨hop, hrest⟩ := List.forall_mem_cons.mp hops
    obtain ⟨next, hs, hrun⟩ := run_cons_eq_ok.mp hrun
    obtain ⟨hlen, rfl⟩ := absorb_eq_ok.mp ((step_eq_absorb h hop).symm.trans hs)
    have hev : Evidence.ofOps (op :: ops) = (Evidence.ofOps [op]).andThen (Evidence.ofOps ops) :=
      Evidence.ofOps_append [op] ops
    rw [delays, hs, h.charges_eq hop hs, hev, ← Capture.learn_learn,
      Capture.settle_learn _ (t.capture.learn (.ofOps [op])), Clock.waits_append]
    exact congrArg _ (ih (h.learn_settle hlen) hrest hrun)

/-- What is waited for while a timer settles that has charged nothing yet. -/
theorem waits_settle_bounds {t : Timer} (hscript : t.capture.script? = none)
    (hcursor : t.capture.cursor = 0) :
    t.clock.waits t.ula (Capture.settle t.ula.variant t.capture).2 ≤
      t.ula.longest * t.settle.asked t.capture.log ∧
    (Clock.SameLine t.ula t.clock t.settle.clock →
      t.ula.shortest * t.settle.asked t.capture.log ≤
        t.clock.waits t.ula (Capture.settle t.ula.variant t.capture).2) := by
  have hasked : ((Capture.settle t.ula.variant t.capture).2.flatMap
      (t.ula.phases t.clock.bank)).countP Phase.held = t.settle.asked t.capture.log := by
    have hbank : t.settle.clock.bank = t.clock.bank := Clock.bank_payAll _ t.clock
    rw [countP_settle t.ula t.clock.bank hscript hcursor, asked, hbank]
    rfl
  rw [← hasked]
  exact t.clock.waits_bounds _

theorem finish_eq_ok {t done : Timer} (h : t.finish = .ok done) :
    done.clock = t.clock ∧ (t.capture.active = true →
      done.capture.predicted = t.capture.predicted ∧ t.capture.predicted = t.capture.consumed) := by
  unfold finish at h
  split at h
  · rename_i hidle
    cases h
    exact ⟨rfl, fun hactive => absurd hactive (by simpa using hidle)⟩
  · split at h
    · rename_i hrec
      cases h
      exact ⟨rfl, fun _ => ⟨rfl, of_decide_eq_true (Bool.and_eq_true_iff.mp hrec).1⟩⟩
    · cases h

/--
**Time passes for what is charged and for delays.** Report anything of an instruction that has just
begun: the T-states that have passed since are those that were charged and the delays imposed on the
way. The delays are no more than the longest of the pattern for each time the ULA was asked. If the
instruction has not left the fetched part of the line it began on, they are no less than the
shortest for each; if all eight are the same delay, they are just that delay for each. When the
instruction ends well, its documented T-states and these delays have passed. The sums of the capture
show what was charged in 32 bits, and just so if nothing overflows.
-/
theorem run_elapsed (t : Timer) (hv : t.ula.variant.contends = true) (bc ir : UInt16)
    {ops : List Op} (hops : ∀ op ∈ ops, op.informs = true) {after : Timer}
    (hrun : (t.begin bc ir).run ops = .ok after) :
    ∃ charged, after.clock.elapsed =
      t.clock.elapsed + (charged + (t.begin bc ir).delays ops) ∧
    after.capture.consumed = UInt32.ofNat charged ∧
    (Strict.run (t.begin bc ir) ops = .ok after → after.capture.consumed.toNat = charged) ∧
    (t.begin bc ir).delays ops ≤ t.ula.longest * after.asked (ops.filterMap Op.access?) ∧
    (Clock.SameLine t.ula t.clock after.clock →
      t.ula.shortest * after.asked (ops.filterMap Op.access?) ≤ (t.begin bc ir).delays ops ∧
      ∀ d, t.ula.pattern = .replicate 8 d →
        (t.begin bc ir).delays ops = d * after.asked (ops.filterMap Op.access?)) ∧
    ∀ done, after.finish = .ok done →
      done.clock.elapsed = t.clock.elapsed + (charged + (t.begin bc ir).delays ops) ∧
      done.capture.predicted = UInt32.ofNat charged ∧
      (Strict.run (t.begin bc ir) ops = .ok after → done.capture.predicted.toNat = charged) := by
  have hready := ready_begin t hv bc ir
  have hbegin : t.begin bc ir = { t with capture := .begin t.clock.counter bc ir } := if_pos hv
  have hdelays := hready.delays_eq hops hrun
  have hcharged := hready.charged_tally hops hrun {}
  have hexact (hfits : Strict.run (t.begin bc ir) ops = .ok after) :
      after.capture.consumed.toNat = ((t.begin bc ir).tally {} ops).charged :=
    toNat_consumed_run (by rw [hbegin]; exact hv) (by rw [hbegin]; rfl) hfits
  obtain ⟨hlen, rfl⟩ := absorb_eq_ok.mp ((run_eq_absorb hready hops).symm.trans hrun)
  have hactive := (hready.learn_settle hlen).active
  -- all that happened is one settling of what was told
  obtain ⟨s, hs⟩ : ∃ s, s = (t.begin bc ir).learn (.ofOps ops) := ⟨_, rfl⟩
  have hula : s.ula = t.ula := by rw [hs, hbegin]; rfl
  have hclock : s.clock = t.clock := by rw [hs, hbegin]; rfl
  have hlog : s.capture.log = ops.filterMap Op.access? := by rw [hs, hbegin]; rfl
  have hscript : s.capture.script? = none := by rw [hs, hbegin]; rfl
  have hcursor : s.capture.cursor = 0 := by rw [hs, hbegin]; rfl
  have hwaits : (t.begin bc ir).delays ops =
      s.clock.waits s.ula (Capture.settle s.ula.variant s.capture).2 := by
    rw [hdelays, hs]
    rfl
  have hcosts : ((t.begin bc ir).tally {} ops).charged =
      Cost.total (Capture.settle s.ula.variant s.capture).2 := by
    rw [hcharged, hs]
    exact Nat.zero_add _
  have hconsumed : s.settle.capture.consumed =
      UInt32.ofNat (Cost.total (Capture.settle s.ula.variant s.capture).2) := by
    have hzero : s.capture.consumed = 0 := by rw [hs, hbegin]; rfl
    rw [(sums_settle s).2, hzero, UInt32.zero_add]
  obtain ⟨hmost, hleast⟩ := waits_settle_bounds hscript hcursor
  have helapsed : s.settle.clock.elapsed = s.clock.elapsed +
      (Cost.total (Capture.settle s.ula.variant s.capture).2 +
        s.clock.waits s.ula (Capture.settle s.ula.variant s.capture).2) :=
    Clock.elapsed_payAll _ s.clock
  refine ⟨((t.begin bc ir).tally {} ops).charged, ?_⟩
  rw [← hs] at hactive hexact ⊢
  rw [hwaits, ← hlog, ← hula, ← hclock]
  rw [hcosts] at hexact ⊢
  refine ⟨helapsed, hconsumed, hexact, hmost, fun hline => ⟨hleast hline, fun d hd => ?_⟩,
    fun done hdone => ?_⟩
  · refine Nat.le_antisymm ?_ ?_
    · rw [← Ula.longest_replicate hd]
      exact hmost
    · rw [← Ula.shortest_replicate hd]
      exact hleast hline
  · obtain ⟨hstill, hsums⟩ := finish_eq_ok hdone
    obtain ⟨hkept, hequal⟩ := hsums hactive
    rw [hstill, hkept, hequal]
    exact ⟨helapsed, hconsumed, hexact⟩

/-- `LD A,(nn)` behind an index byte, all in contended memory, with three T-states for each
access. -/
theorem run_elapsed_load :
    ∃ after, Strict.run (begin { ula := .uniform48k 3, clock := { counter := 14335 } } 0 0)
        [.record ⟨0x4000, 0xFD, .memoryRead, ""⟩, .record ⟨0x4001, 0x3A, .memoryRead, ""⟩,
          .elapse .documented 17, .record ⟨0x4002, 0x00, .memoryRead, ""⟩,
          .record ⟨0x4003, 0x50, .memoryRead, ""⟩, .record ⟨0x5000, 0x12, .memoryRead, ""⟩] =
        .ok after ∧ after.clock.elapsed = 17 + 3 * 5 := by
  have hshow : (Strict.run (begin { ula := .uniform48k 3, clock := { counter := 14335 } } 0 0)
      [.record ⟨0x4000, 0xFD, .memoryRead, ""⟩, .record ⟨0x4001, 0x3A, .memoryRead, ""⟩,
        .elapse .documented 17, .record ⟨0x4002, 0x00, .memoryRead, ""⟩,
        .record ⟨0x4003, 0x50, .memoryRead, ""⟩, .record ⟨0x5000, 0x12, .memoryRead, ""⟩]).map
      (fun t => (t.capture.consumed, t.clock.counter, t.clock.frames,
        t.asked [⟨0x4000, 0xFD, .memoryRead, ""⟩, ⟨0x4001, 0x3A, .memoryRead, ""⟩,
          ⟨0x4002, 0x00, .memoryRead, ""⟩, ⟨0x4003, 0x50, .memoryRead, ""⟩,
          ⟨0x5000, 0x12, .memoryRead, ""⟩])) = .ok (17, 14367, 0, 5) := by
    decide +kernel
  obtain ⟨after, hrun, hafter⟩ := exists_of_map_eq_ok hshow
  simp only [Prod.mk.injEq] at hafter
  obtain ⟨hconsumed, hcounter, hframes, hasked⟩ := hafter
  obtain ⟨charged, helapsed, -, hexact, -, hline, -⟩ := run_elapsed
    { ula := .uniform48k 3, clock := { counter := 14335 } }
    (by decide) 0 0 (by decide) (Strict.run_eq_ok hrun)
  have hcharged : charged = 17 := by
    rw [← hexact hrun, hconsumed]
    rfl
  have hdelays := ((hline ⟨hframes, 0, ⟨by decide, 0, rfl, by decide⟩,
    by decide, 32, by rw [hcounter]; rfl, by decide⟩).2 3 rfl).trans (congrArg (3 * ·) hasked)
  refine ⟨after, hrun, ?_⟩
  rw [helapsed, hdelays, hcharged]

end Timer

end SpectrumTiming
