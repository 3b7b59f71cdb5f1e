import Mathlib.Data.List.Forall2
import SpectrumTiming.Proofs.Bounds
import SpectrumTiming.Proofs.Classification
import SpectrumTiming.Proofs.Results

/-!
# The log and the bus

The log of an instruction is filled by the timer, from what the processor reports. The bus traffic is
what can be seen from outside. They tell the same story: at any point of an instruction, the index
bytes that were taken off the log and then the log itself are the bus events since the instruction
began, one access for one event, in the same order (`log_traces_bus`). Only the value of a port that
is read is not known yet when it is logged.

Both sides grow at the end, one action at a time (`Traced.step`). What makes this less than obvious
is that settling works on the log in between: it takes accesses off its front and marks those that
are left. It never touches what an access is a record of (`forall₂_settle`).
-/

namespace SpectrumTiming

open Capture

theorem forall₂_mapIdx_left {α β : Type} {R : α → β → Prop} {f : Nat → α → α}
    (hf : ∀ i a b, R a b → R (f i a) b) {xs : List α} {ys : List β} (h : List.Forall₂ R xs ys) :
    List.Forall₂ R (xs.mapIdx f) ys := by
  induction h generalizing f with
  | nil => exact .nil
  | cons hab hrest ih =>
    rw [List.mapIdx_cons]
    exact .cons (hf 0 _ _ hab) (ih fun i => hf (i + 1))

/-- What is behind a front may be replaced. -/
theorem forall₂_append_of_imp {α β : Type} {R : α → β → Prop} {front xs xs' : List α}
    (himp : ∀ zs, List.Forall₂ R xs zs → List.Forall₂ R xs' zs) {ys : List β}
    (h : List.Forall₂ R (front ++ xs) ys) : List.Forall₂ R (front ++ xs') ys := by
  induction front generalizing ys with
  | nil => exact himp ys h
  | cons a front ih =>
    obtain ⟨b, zs, hab, hrest, rfl⟩ := List.forall₂_cons_left_iff.mp h
    exact .cons hab (ih hrest)

/-! ## Index bytes -/

theorem Capture.isIndexByte_of_mem_collapsing {c : Capture ScriptNumber} :
    ∀ a ∈ c.collapsing, Opcode.isIndexByte a.value = true := by
  have hsplit (log : List Access) :
      ∀ a ∈ (splitCollapsing log).1, Opcode.isIndexByte a.value = true := by
    induction log with
    | nil => simp [splitCollapsing]
    | cons a rest ih =>
      by_cases h : recognize (a :: rest) = .collapse
      · rw [splitCollapsing_of_collapse h]
        exact List.forall_mem_cons.mpr ⟨Opcode.isIndexByte_of_collapse h, ih⟩
      · rw [splitCollapsing_of_ne h]
        simp
  unfold collapsing
  cases c.script? with
  | some id => simp
  | none => exact hsplit c.log

/-! ## Accesses and events -/

/-- An access is the record of an event on the bus: the same address, the same kind, and the same
value unless it comes in through a port. -/
def Access.Records (a : Access) : Event → Prop
  | .display _ => False
  | .bus kind addr value =>
    a.addr = addr ∧ a.value = (if kind = .input then 0xFF else value) ∧
      (a.marks.read = true ↔ kind = .read ∨ kind = .input) ∧
      (a.marks.write = true ↔ kind = .write ∨ kind = .output) ∧
      (a.marks.memory = true ↔ kind = .read ∨ kind = .write) ∧
      (a.marks.port = true ↔ kind = .input ∨ kind = .output)

theorem Access.Records.charge {a : Access} {e : Event} (h : a.Records e) : a.charge.Records e := by
  cases e with
  | display tstate => exact h
  | bus kind addr value => exact h

theorem Z80.BusCycle.records_access (cycle : BusCycle) : cycle.access.Records cycle.event := by
  obtain ⟨kind, addr, value, tag⟩ := cycle
  cases kind <;>
    simp [BusCycle.access, BusCycle.event, Access.Records, AccessMarks.memoryRead,
      AccessMarks.memoryWrite, AccessMarks.portRead, AccessMarks.portWrite]

/-! ## What the processor does -/

namespace Z80

/-- What an operation passes on to the timer as it is. -/
def Op.told? (s : State) : Op → Option Timer.Op
  | .begin => some (.begin s.regs.bc s.regs.ir)
  | .finish => some .finish
  | .report op => some op
  | _ => none

/-- What the processor does of its own accord: it moves bytes, reports time and confirms the optional
path. -/
def Action.ordinary : Action → Bool
  | .bus _ | .report (.elapse _ _) | .report .confirm => true
  | .report _ => false

theorem ordinary_block (b : Block) (s : State) :
    ((block b).actions s).all Action.ordinary = true := by
  have honce : ((blockOnce b).actions s).all Action.ordinary = true := by
    obtain ⟨kind, down, repeats⟩ := b
    cases kind <;> rfl
  rw [block_actions, List.all_append, honce]
  split <;> rfl

/-- An operation passes one thing on, or it acts of its own accord. -/
theorem Op.actions_cases (op : Op) (s : State) :
    (∃ told, op.told? s = some told ∧ op.work.actions s = [.report told]) ∨
      op.told? s = none ∧ (op.work.actions s).all Action.ordinary = true := by
  cases op with
  | begin => exact .inl ⟨_, rfl, rfl⟩
  | finish => exact .inl ⟨_, rfl, rfl⟩
  | report told => exact .inl ⟨told, rfl, rfl⟩
  | jumpRelativeIf condition op => cases condition <;> exact .inr ⟨rfl, rfl⟩
  | callIf condition op => cases condition <;> exact .inr ⟨rfl, rfl⟩
  | retIf condition op => cases condition <;> exact .inr ⟨rfl, rfl⟩
  | block b =>
    refine .inr ⟨rfl, ?_⟩
    show ((Z80.block b).actions s ++ []).all Action.ordinary = true
    rw [List.append_nil]
    exact ordinary_block b s
  | _ => exact .inr ⟨rfl, rfl⟩

theorem Op.ordinary_or_told {op : Op} {s : State} {x : Action} (hx : x ∈ op.work.actions s) :
    x.ordinary = true ∨ ∃ told, op.told? s = some told ∧ x = .report told := by
  rcases op.actions_cases s with ⟨told, htold, hactions⟩ | ⟨-, hall⟩
  · rw [hactions] at hx
    exact .inr ⟨told, htold, List.mem_singleton.mp hx⟩
  · exact .inl (List.all_eq_true.mp hall x hx)

/-- What holds of all that the processor does of its own accord and of all that it is told to pass
on holds of all that is seen of it. -/
theorem Op.forall_mem_seen {p : Action → Prop} (hordinary : ∀ x, Action.ordinary x = true → p x)
    {ops : List Op} (htold : ∀ op ∈ ops, ∀ s told, op.told? s = some told → p (.report told))
    (s : State) : ∀ x ∈ Op.seen s ops, p x := by
  induction ops generalizing s with
  | nil => simp [seen]
  | cons op ops ih =>
    obtain ⟨hop, hrest⟩ := List.forall_mem_cons.mp htold
    intro x hx
    rcases List.mem_append.mp hx with hx | hx
    · rcases op.ordinary_or_told hx with hx | ⟨told, htold, rfl⟩
      · exact hordinary x hx
      · exact hop s told htold
    · exact ih hrest _ x hx

end Z80

/-! ## Settling -/

namespace Capture

/-- Settling leaves the log behind the index bytes it takes off, with marks on it. -/
theorem log_settle (v : Variant) (c : Capture ScriptNumber) :
    ∃ (rest : List Access) (es : List Element), c.collapsing ++ rest = c.log ∧
      (settle v c).1.log = (mark { c with log := rest } es).log := by
  cases hs : c.script? with
  | some id =>
    have hcol : c.collapsing = [] := by simp [collapsing, hs]
    rw [hcol, settle_of_known v hs]
    exact ⟨c.log, c.ready (Standard.script v id), rfl, rfl⟩
  | none =>
    have hcol : c.collapsing = (splitCollapsing c.log).1 := by simp [collapsing, hs]
    rw [hcol]
    rcases resolve_cases hs with ⟨_, hres⟩ | ⟨id, taken, _, hres⟩
    · have hnone : c.resolve.1.script? = none := by rw [hres]; exact hs
      refine ⟨_, [], splitCollapsing_eq c.log, ?_⟩
      rw [settle_of_none v hnone, hres]
      exact List.ext_getElem? fun i => by simp [mark, collapse, consume]
    · have hsome : c.resolve.1.script? = some id := by rw [hres]
      refine ⟨_, c.resolve.1.ready (Standard.script v id), splitCollapsing_eq c.log, ?_⟩
      rw [settle_of_some v hsome, hres]
      rfl

/-- **Settling does not touch what accesses are records of.** -/
theorem forall₂_settle {β : Type} {R : Access → β → Prop} (hR : ∀ a b, R a b → R a.charge b)
    (v : Variant) {c : Capture ScriptNumber} {front : List Access} {ys : List β}
    (h : List.Forall₂ R (front ++ c.log) ys) :
    List.Forall₂ R (front ++ c.collapsing ++ (settle v c).1.log) ys := by
  obtain ⟨rest, es, hsplit, hlog⟩ := log_settle v c
  rw [← hsplit, ← List.append_assoc] at h
  refine forall₂_append_of_imp (fun zs hrest => ?_) h
  rw [hlog]
  refine forall₂_mapIdx_left (fun i a b hab => ?_) hrest
  split
  · exact hR a b hab
  · exact hab

end Capture

/-! ## One action -/

namespace Timer

/-- Operations that go along with an instruction: they neither begin nor end one, and they report no
access. -/
def Op.accompanies : Op → Bool
  | .begin _ _ | .finish | .record _ => false
  | .elapse _ _ | .confirm | .advance _ | .setCounter _ | .setBank _ | .reset => true

/-- The index bytes that an operation takes off the log. -/
def takenOff (t : Timer) : Op → List Access
  | .record a =>
    if t.capture.active && !t.capture.isFull then (t.capture.push a).collapsing else []
  | .confirm => if t.capture.active then t.capture.collapsing else []
  | _ => []

/-- The index bytes that operations take off the log, up to the first fault. -/
def takenOffBy (t : Timer) : List Op → List Access
  | [] => []
  | op :: ops =>
    t.takenOff op ++
      match t.step op with
      | .error _ => []
      | .ok after => after.takenOffBy ops

theorem takenOffBy_cons {t after : Timer} {op : Op} (hs : t.step op = .ok after) (ops : List Op) :
    t.takenOffBy (op :: ops) = t.takenOff op ++ after.takenOffBy ops := by
  rw [takenOffBy, hs]

/-- An instruction is running, and what was taken off its log and the log itself are the records of
the events `seen`. -/
structure Traced (seen : List Event) (dropped : List Access) (t : Timer) : Prop where
  active : t.capture.active = true
  records : List.Forall₂ Access.Records (dropped ++ t.capture.log) seen

variable {seen : List Event} {dropped : List Access} {t after : Timer}

theorem Traced.settle (h : Traced seen dropped t) :
    Traced seen (dropped ++ t.capture.collapsing) t.settle where
  active := (settle_frame t.ula.variant t.capture).1.trans h.active
  records := forall₂_settle (fun _ _ hab => hab.charge) t.ula.variant h.records

theorem Traced.record (h : Traced seen dropped t) {cycle : Z80.BusCycle}
    (hs : t.record cycle.access = .ok after) :
    Traced (seen ++ [cycle.event]) (dropped ++ t.takenOff (.record cycle.access)) after := by
  rcases record_eq_ok.mp hs with ⟨hidle, -⟩ | ⟨-, hroom, rfl⟩
  · exact absurd (h.active.symm.trans hidle) (by simp)
  · have hpush : Traced (seen ++ [cycle.event]) dropped
        { t with capture := t.capture.push cycle.access } := by
      refine ⟨h.active, ?_⟩
      show List.Forall₂ _ (dropped ++ (t.capture.log ++ [cycle.access])) _
      rw [← List.append_assoc]
      exact List.rel_append h.records (.cons cycle.records_access .nil)
    have hoff : t.takenOff (.record cycle.access) = (t.capture.push cycle.access).collapsing := by
      simp [takenOff, h.active, isFull, hroom]
    rw [hoff]
    exact hpush.settle

theorem Traced.confirm (h : Traced seen dropped t) :
    Traced seen (dropped ++ t.takenOff .confirm) t.confirm := by
  have htaken : Traced seen dropped { t with capture := { t.capture with taken := true } } :=
    ⟨h.active, h.records⟩
  have hoff : t.takenOff .confirm = t.capture.collapsing := if_pos h.active
  rw [confirm_of_active h.active, hoff]
  exact htaken.settle

theorem Traced.accompany (h : Traced seen dropped t) {op : Op} (hop : op.accompanies = true)
    (hs : t.step op = .ok after) : Traced seen (dropped ++ t.takenOff op) after := by
  have hstay (s : Timer) (hactive : s.capture.active = t.capture.active)
      (hlog : s.capture.log = t.capture.log) : Traced seen (dropped ++ []) s := by
    rw [List.append_nil]
    exact ⟨hactive.trans h.active, by rw [hlog]; exact h.records⟩
  cases op with
  | confirm =>
    cases hs
    exact h.confirm
  | elapse kind cycles =>
    cases hs
    obtain ⟨capture, hactive, hlog, -, helapse | helapse⟩ := t.elapse_cases kind cycles
    · rw [helapse]
      exact hstay _ hactive hlog
    · rw [helapse]
      exact hstay _ hactive hlog
  | advance cycles => cases hs; exact hstay _ rfl rfl
  | setCounter tstate => cases hs; exact hstay _ rfl rfl
  | setBank bank => cases hs; exact hstay _ rfl rfl
  | reset => cases hs; exact hstay _ rfl rfl
  | _ => simp [Op.accompanies] at hop

end Timer

namespace Z80

/-- What the processor does while an instruction runs. -/
def Action.within : Action → Bool
  | .bus _ => true
  | .report op => op.accompanies

/-- Operations that are part of an instruction. -/
def Op.within : Op → Bool
  | .begin | .finish => false
  | .report op => op.accompanies
  | _ => true

theorem Action.within_of_ordinary {x : Action} (h : x.ordinary = true) : x.within = true := by
  cases x with
  | bus cycle => rfl
  | report op =>
    cases op with
    | elapse kind cycles => rfl
    | confirm => rfl
    | _ => simp [ordinary] at h

theorem Op.accompanies_of_told {op : Op} (h : op.within = true) {s : State} {told : Timer.Op}
    (htold : op.told? s = some told) : told.accompanies = true := by
  cases op with
  | report op =>
    cases htold
    exact h
  | begin => simp [within] at h
  | finish => simp [within] at h
  | _ => simp [told?] at htold

end Z80

/-! ## Whole instructions -/

namespace Timer

variable {seen : List Event} {dropped : List Access} {t after : Timer}

/-- **One action** adds to both sides what it moves. -/
theorem Traced.step (h : Traced seen dropped t) {x : Z80.Action} (hx : x.within = true)
    (hs : t.step x.op = .ok after) :
    Traced (seen ++ x.traffic) (dropped ++ t.takenOff x.op) after := by
  cases x with
  | bus cycle => exact h.record hs
  | report op =>
    show Traced (seen ++ []) _ _
    rw [List.append_nil]
    exact h.accompany hx hs

theorem Traced.play {xs : List Z80.Action} (hxs : ∀ x ∈ xs, x.within = true)
    {seen : List Event} {dropped : List Access} {t after : Timer} {events : List Event}
    (h : Traced seen dropped t) (hplay : t.play xs = .ok (after, events)) :
    Traced (seen ++ events.filter Event.isBus)
      (dropped ++ t.takenOffBy (xs.map Z80.Action.op)) after := by
  induction xs generalizing seen dropped t events with
  | nil =>
    cases hplay
    simpa [takenOffBy] using h
  | cons x xs ih =>
    obtain ⟨hx, hrest⟩ := List.forall_mem_cons.mp hxs
    obtain ⟨next, rest, hs, hnext, rfl⟩ := play_cons_eq_ok.mp hplay
    have hlast := ih hrest (h.step hx hs) hnext
    rw [List.map_cons, takenOffBy_cons hs, List.filter_append, x.filter_events,
      ← List.append_assoc, ← List.append_assoc]
    exact hlast

theorem traced_begin (t : Timer) (hv : t.ula.variant.contends = true) (bc ir : UInt16) :
    Traced [] [] (t.begin bc ir) := by
  unfold begin
  rw [if_pos hv]
  exact ⟨rfl, .nil⟩

theorem isIndexByte_of_mem_takenOff {t : Timer} {op : Op} :
    ∀ a ∈ t.takenOff op, Opcode.isIndexByte a.value = true := by
  intro a ha
  cases op with
  | record b =>
    simp only [takenOff] at ha
    split at ha
    · exact isIndexByte_of_mem_collapsing a ha
    · simp at ha
  | confirm =>
    simp only [takenOff] at ha
    split at ha
    · exact isIndexByte_of_mem_collapsing a ha
    · simp at ha
  | _ => simp [takenOff] at ha

theorem isIndexByte_of_mem_takenOffBy {ops : List Op} {t : Timer} :
    ∀ a ∈ t.takenOffBy ops, Opcode.isIndexByte a.value = true := by
  induction ops generalizing t with
  | nil => simp [takenOffBy]
  | cons op ops ih =>
    intro a ha
    rcases List.mem_append.mp ha with ha | ha
    · exact isIndexByte_of_mem_takenOff a ha
    · cases hs : t.step op with
      | error f => simp [hs] at ha
      | ok after =>
        rw [hs] at ha
        exact ih a ha

/-! ## Between instructions -/

/-- Whether an operation begins an instruction. -/
def Op.begins : Op → Bool
  | .begin _ _ => true
  | _ => false

/-- Whatever is reported while no instruction runs is not logged. -/
theorem step_silent {t after : Timer} (h : t.capture.active = false) {op : Op}
    (hop : op.begins = false) (hs : t.step op = .ok after) :
    after.capture.active = false ∧ after.capture.log = t.capture.log := by
  cases op with
  | begin bc ir => simp [Op.begins] at hop
  | finish =>
    rw [eq_of_finish hs]
    exact ⟨rfl, rfl⟩
  | elapse kind cycles =>
    cases hs
    obtain ⟨capture, hactive, hlog, -, helapse | helapse⟩ := t.elapse_cases kind cycles
    · rw [helapse]
      exact ⟨hactive.trans h, hlog⟩
    · rw [helapse]
      exact ⟨hactive.trans h, hlog⟩
  | record a =>
    cases hs.symm.trans (record_of_idle h a)
    exact ⟨h, rfl⟩
  | confirm =>
    cases hs.symm.trans (congrArg Except.ok (confirm_of_idle h))
    exact ⟨h, rfl⟩
  | advance cycles => cases hs; exact ⟨h, rfl⟩
  | setCounter tstate => cases hs; exact ⟨h, rfl⟩
  | setBank bank => cases hs; exact ⟨h, rfl⟩
  | reset => cases hs; exact ⟨h, rfl⟩

theorem play_silent {xs : List Z80.Action} (hxs : ∀ x ∈ xs, x.op.begins = false) {t after : Timer}
    {events : List Event} (h : t.capture.active = false) (hplay : t.play xs = .ok (after, events)) :
    after.capture.active = false ∧ after.capture.log = t.capture.log := by
  induction xs generalizing t events with
  | nil =>
    cases hplay
    exact ⟨h, rfl⟩
  | cons x xs ih =>
    obtain ⟨hx, hrest⟩ := List.forall_mem_cons.mp hxs
    obtain ⟨next, rest, hs, hnext, -⟩ := play_cons_eq_ok.mp hplay
    obtain ⟨hidle, hlog⟩ := step_silent h hx hs
    obtain ⟨hlast, hlogs⟩ := ih hrest hidle hnext
    exact ⟨hlast, hlogs.trans hlog⟩

end Timer

namespace Z80

/-- Whether an operation begins an instruction. -/
def Op.begins : Op → Bool
  | .begin => true
  | .report op => op.begins
  | _ => false

theorem Action.begins_of_ordinary {x : Action} (h : x.ordinary = true) : x.op.begins = false := by
  cases x with
  | bus cycle => rfl
  | report op =>
    cases op with
    | begin bc ir => simp [ordinary] at h
    | _ => rfl

theorem Op.begins_of_told {op : Op} (h : op.begins = false) {s : State} {told : Timer.Op}
    (htold : op.told? s = some told) : told.begins = false := by
  cases op with
  | report op =>
    cases htold
    exact h
  | begin => simp [begins] at h
  | finish =>
    cases htold
    rfl
  | _ => simp [told?] at htold

end Z80

namespace Computer

/-- Between two instructions nothing is logged, and the end of one logs nothing either. -/
theorem log_of_silent {c after : Computer} {ops : List Z80.Op} {reports : List Report}
    (hidle : c.timer.capture.active = false ∨ ops.head? = some .finish)
    (hops : ∀ op ∈ ops, op.begins = false) (hrun : c.run ops = .ok (after, reports)) :
    after.timer.capture.active = false ∧ after.timer.capture.log = c.timer.capture.log := by
  have hsilent : ∀ x ∈ Z80.Op.seen c.processor ops, x.op.begins = false :=
    Z80.Op.forall_mem_seen (fun _ => Z80.Action.begins_of_ordinary)
      (fun op hop _ _ => Z80.Op.begins_of_told (hops op hop)) c.processor
  have hplay := play_of_run hrun
  rcases hidle with hidle | hhead
  · exact Timer.play_silent hsilent hidle hplay
  · obtain ⟨more, rfl⟩ := List.head?_eq_some_iff.mp hhead
    obtain ⟨done, rest, hfinish, hmore, -⟩ := Timer.play_cons_eq_ok.mp hplay
    obtain ⟨hdone, hlog⟩ : done.capture.active = false ∧ done.capture.log = c.timer.capture.log := by
      rw [Timer.eq_of_finish hfinish]
      exact ⟨rfl, rfl⟩
    obtain ⟨hlast, hlogs⟩ := Timer.play_silent
      (fun x hx => hsilent x (List.mem_cons_of_mem _ hx)) hdone hmore
    exact ⟨hlast, hlogs.trans hlog⟩

/--
**The log is the bus trace.** Begin an instruction on a machine with contention, in any state, and
have the processor do anything that is part of one, as long as the timer does not fault. At every
point, also between two bus cycles of one operation, the index bytes that were taken off the log and
then the log itself are, one by one and in order, the records of the bus events since the beginning,
and what was taken off are index bytes. From the end of an instruction to the beginning of the next
one nothing is logged at all.
-/
theorem log_traces_bus (c : Computer) (hv : c.timer.ula.variant.contends = true)
    {ops : List Z80.Op} (hops : ∀ op ∈ ops, op.within = true) {after : Computer}
    {reports : List Report} (hrun : c.run (.begin :: ops) = .ok (after, reports)) :
    let begun := c.timer.begin c.processor.regs.bc c.processor.regs.ir
    (∀ xs, xs <+: Z80.Op.seen c.processor ops →
      ∃ t events, begun.play xs = .ok (t, events) ∧ events <+: reports.flatMap Report.events ∧
        List.Forall₂ Access.Records (begun.takenOffBy (xs.map Z80.Action.op) ++ t.capture.log)
          (events.filter Event.isBus)) ∧
    List.Forall₂ Access.Records
      (begun.takenOffBy ((Z80.Op.seen c.processor ops).map Z80.Action.op) ++
        after.timer.capture.log)
      ((reports.flatMap Report.events).filter Event.isBus) ∧
    (∀ a ∈ begun.takenOffBy ((Z80.Op.seen c.processor ops).map Z80.Action.op),
      Opcode.isIndexByte a.value = true) ∧
    ∀ (d last : Computer) (more : List Z80.Op) (reports' : List Report),
      d.timer.capture.active = false ∨ more.head? = some .finish →
      (∀ op ∈ more, op.begins = false) → d.run more = .ok (last, reports') →
      last.timer.capture.active = false ∧ last.timer.capture.log = d.timer.capture.log := by
  intro begun
  have hwithin : ∀ x ∈ Z80.Op.seen c.processor ops, x.within = true :=
    Z80.Op.forall_mem_seen (fun _ => Z80.Action.within_of_ordinary)
      (fun op hop _ _ => Z80.Op.accompanies_of_told (hops op hop)) c.processor
  have hstart : Timer.Traced [] [] begun := Timer.traced_begin c.timer hv _ _
  obtain ⟨t, events, hbegin, hplay, hevents⟩ := Timer.play_cons_eq_ok.mp (play_of_run hrun)
  obtain rfl : begun = t := Except.ok.inj hbegin
  -- beginning an instruction shows nothing
  have hnothing : Z80.Action.events (.report (.begin c.processor.regs.bc c.processor.regs.ir))
      c.timer begun = [] := by
    simp [Z80.Action.events, Timer.notice?, Timer.shows, Z80.Action.op]
  rw [hnothing, List.nil_append] at hevents
  replace hplay : begun.play (Z80.Op.seen c.processor ops) =
      .ok (after.timer, reports.flatMap Report.events) := by
    rw [← hevents]
    exact hplay
  refine ⟨?_, (hstart.play hwithin hplay).records, Timer.isIndexByte_of_mem_takenOffBy,
    fun _ _ _ _ hidle hmore hrun => log_of_silent hidle hmore hrun⟩
  rintro xs ⟨ys, hseen⟩
  rw [← hseen] at hplay hwithin
  obtain ⟨t, first, rest, hfirst, -, hsplit⟩ := Timer.play_append_eq_ok.mp hplay
  have hxs : ∀ x ∈ xs, x.within = true := fun x hx => hwithin x (List.mem_append_left _ hx)
  exact ⟨t, first, hfirst, ⟨rest, hsplit⟩, (hstart.play hxs hfirst).records⟩

/-- `INI` behind an index byte that collapses, into the display bank of a 48K. -/
theorem log_traces_bus_ini :
    let c : Computer :=
      { processor :=
          { regs := { bc := 0x0240, hl := 0x5800, pc := 0x8000 }
            memory := Z80.Memory.load (fun _ => 0) 0x8000 [0xFD, 0xED, 0xA2] }
        timer := { ula := .spectrum48k, clock := { counter := 14335 } } }
    let ini : List Z80.Op :=
      [.fetch, .fetch, .fetch, .spend .extended 0xA2, .block ⟨.input, false, false⟩]
    let begun := c.timer.begin c.processor.regs.bc c.processor.regs.ir
    ∃ after reports, c.run (.begin :: ini) = .ok (after, reports) ∧
      List.Forall₂ Access.Records
        (begun.takenOffBy ((Z80.Op.seen c.processor ini).map Z80.Action.op) ++
          after.timer.capture.log)
        ((reports.flatMap Report.events).filter Event.isBus) := by
  intro c ini begun
  have hcontends : c.timer.ula.variant.contends = true := by decide
  have hwithin : ∀ op ∈ ini, op.within = true := by decide
  have hok : (c.run (.begin :: ini)).isOk = true := by decide +kernel
  obtain ⟨⟨after, reports⟩, hrun⟩ := exists_of_isOk hok
  exact ⟨after, reports, hrun, (log_traces_bus c hcontends hwithin hrun).2.1⟩

end Computer

end SpectrumTiming
