import SpectrumTiming.Proofs.BlockProgress
import SpectrumTiming.Proofs.BusTrace
import SpectrumTiming.Proofs.Uncontended

/-!
# Doing the same again

An executor that finds the program counter set back does the same operations again. `Repeats` is what
it does until the program counter goes on, with the computer and the reports that each round leads
to. There is no bound in it, and no other way to go (`Repeats.unique`).

If every round takes an invariant from one number to the next and sets the program counter back
exactly as long as fewer than `n` rounds are done, then there are `n` rounds (`exists_repeats`). For
a block instruction that is called again and again the invariant is that it has handled as many bytes
as there were calls (`exists_calls`).
-/

namespace SpectrumTiming

namespace Computer

/-- Has the processor do the same over and over, for as long as this leaves the program counter
`back` bytes below where it was. -/
inductive Repeats (ops : List Z80.Op) (back : UInt16) :
    Computer → List (Computer × List Report) → Prop
  | last {c : Computer} {round : Computer × List Report} (hrun : c.run ops = .ok round)
      (hon : round.1.processor.regs.pc + back ≠ c.processor.regs.pc) :
      Repeats ops back c [round]
  | again {c : Computer} {round : Computer × List Report} {rounds : List (Computer × List Report)}
      (hrun : c.run ops = .ok round)
      (hback : round.1.processor.regs.pc + back = c.processor.regs.pc)
      (hrest : Repeats ops back round.1 rounds) :
      Repeats ops back c (round :: rounds)

variable {ops : List Z80.Op} {back : UInt16}

theorem Repeats.unique {c : Computer} {rounds rounds' : List (Computer × List Report)}
    (h : c.Repeats ops back rounds) (h' : c.Repeats ops back rounds') : rounds = rounds' := by
  induction h generalizing rounds' with
  | last hrun hon =>
    cases h' with
    | last hrun' hon' => rw [Except.ok.inj (hrun.symm.trans hrun')]
    | again hrun' hback' hrest' =>
      rw [Except.ok.inj (hrun.symm.trans hrun')] at hon
      exact absurd hback' hon
  | again hrun hback hrest ih =>
    cases h' with
    | last hrun' hon' =>
      rw [Except.ok.inj (hrun.symm.trans hrun')] at hback
      exact absurd hback hon'
    | again hrun' hback' hrest' =>
      obtain rfl := Except.ok.inj (hrun.symm.trans hrun')
      rw [ih hrest']

/-- **As many rounds as the invariant counts.** `Good i` holds of the computer when `i` rounds are
done, `Shown i` of what the next one reports. -/
theorem exists_repeats (ops : List Z80.Op) (back : UInt16) {n : Nat} (hn : 0 < n)
    (Good : Nat → Computer → Prop) (Shown : Nat → List Report → Prop)
    (hround : ∀ i < n, ∀ c : Computer, Good i c → ∃ next reports, c.run ops = .ok (next, reports) ∧
      Good (i + 1) next ∧ Shown i reports ∧
      (next.processor.regs.pc + back = c.processor.regs.pc ↔ i + 1 < n))
    {c : Computer} (h : Good 0 c) :
    ∃ rounds last reports, c.Repeats ops back rounds ∧ rounds.length = n ∧
      rounds.getLast? = some (last, reports) ∧ Good n last ∧
      ∀ i (hi : i < rounds.length), Good (i + 1) rounds[i].1 ∧ Shown i rounds[i].2 := by
  -- from any round on: `left` more to come after this one
  have hrest : ∀ left i, i + left + 1 = n → ∀ c : Computer, Good i c →
      ∃ rounds last reports, c.Repeats ops back rounds ∧ rounds.length = left + 1 ∧
        rounds.getLast? = some (last, reports) ∧ Good n last ∧
        ∀ j (hj : j < rounds.length), Good (i + j + 1) rounds[j].1 ∧ Shown (i + j) rounds[j].2 := by
    intro left
    induction left with
    | zero =>
      intro i hi c hc
      obtain ⟨next, reports, hrun, hgood, hshown, hpc⟩ := hround i (by omega) c hc
      have hon : next.processor.regs.pc + back ≠ c.processor.regs.pc := fun hback =>
        absurd (hpc.mp hback) (by omega)
      refine ⟨[(next, reports)], next, reports, .last hrun hon, rfl, rfl, hi ▸ hgood, ?_⟩
      intro j hj
      obtain rfl : j = 0 := Nat.lt_one_iff.mp hj
      exact ⟨hgood, hshown⟩
    | succ left ih =>
      intro i hi c hc
      obtain ⟨next, reports, hrun, hgood, hshown, hpc⟩ := hround i (by omega) c hc
      obtain ⟨rounds, last, reports', hrounds, hlen, hlast, hend, hall⟩ :=
        ih (i + 1) (by omega) next hgood
      refine ⟨(next, reports) :: rounds, last, reports', .again hrun (hpc.mpr (by omega)) hrounds,
        congrArg (· + 1) hlen, ?_, hend, ?_⟩
      · rw [List.getLast?_cons, hlast]
        rfl
      · intro j hj
        cases j with
        | zero => exact ⟨hgood, hshown⟩
        | succ j =>
          have hthis := hall j (Nat.lt_of_succ_lt_succ hj)
          rw [show i + 1 + j = i + (j + 1) by omega] at hthis
          exact hthis
  obtain ⟨rounds, last, reports, hrounds, hlen, hlast, hend, hall⟩ :=
    hrest (n - 1) 0 (by omega) c h
  refine ⟨rounds, last, reports, hrounds, by omega, hlast, hend, fun i hi => ?_⟩
  have hthis := hall i hi
  rwa [Nat.zero_add] at hthis

/-! ## Calls without faults -/

/-- Nothing is being captured, or else the timer stands so many times the same operation without a
fault. -/
def Endures (c : Computer) (op : Z80.Op) (times : Nat) : Prop :=
  c.timer.capture.active = false ∨ (c.run (List.replicate times op)).isOk = true

/-- While nothing is captured, operations that begin no instruction do not fault. -/
theorem exists_run_of_idle {c : Computer} (h : c.timer.capture.active = false) (ops : List Z80.Op)
    (hops : ∀ op ∈ ops, op.begins = false) :
    ∃ next reports, c.run ops = .ok (next, reports) ∧ next.timer.capture.active = false := by
  have hnone : ∀ x ∈ (Z80.Op.seen c.processor ops).map Z80.Action.op, ∀ bc ir,
      x ≠ .begin bc ir := by
    intro x hx bc ir hbegin
    obtain ⟨a, ha, rfl⟩ := List.mem_map.mp hx
    have hsilent := Z80.Op.forall_mem_seen (p := fun x => x.op.begins = false)
      (fun _ => Z80.Action.begins_of_ordinary)
      (fun op hop _ _ htold => Z80.Op.begins_of_told (hops op hop) htold) c.processor a ha
    rw [hbegin] at hsilent
    exact Bool.noConfusion hsilent
  obtain ⟨after, hrun, -, hidle, -⟩ := Timer.run_of_idle _ h (.inr hnone)
  obtain ⟨next, reports, hok, rfl⟩ := exists_run_of_timer hrun
  exact ⟨next, reports, hok, hidle⟩

theorem Endures.step {c : Computer} {op : Z80.Op} {times : Nat} (hop : op.begins = false)
    (h : c.Endures op (times + 1)) :
    ∃ next reports, c.run [op] = .ok (next, reports) ∧ next.Endures op times := by
  rcases h with hidle | hok
  · obtain ⟨next, reports, hrun, hstill⟩ :=
      exists_run_of_idle hidle [op] (List.forall_mem_singleton.mpr hop)
    exact ⟨next, reports, hrun, .inl hstill⟩
  · obtain ⟨⟨last, reports⟩, hrun⟩ := exists_of_isOk hok
    obtain ⟨timer, events, rest, hplay, hrest, -⟩ := run_cons_eq_ok.mp hrun
    refine ⟨_, _, run_cons_eq_ok.mpr ⟨timer, events, [], hplay, rfl, rfl⟩, .inr ?_⟩
    rw [hrest]
    rfl

end Computer

/-! ## Calling a block instruction -/

namespace Z80

theorem seen_block (b : Block) (s : State) : Op.seen s [.block b] = (block b).actions s := by
  have hseen : Op.seen s [.block b] = (block b).actions s ++ [] ++ [] := rfl
  rw [hseen, List.append_nil, List.append_nil]

/-- To go on moves nothing over the bus. -/
theorem traffic_block (b : Block) (s : State) :
    ((block b).actions s).flatMap Action.traffic =
      ((blockOnce b).actions s).flatMap Action.traffic := by
  rw [block_actions, List.flatMap_append]
  split <;> exact List.append_nil _

/-- The state `s'` that so many calls of a block instruction lead to from `s`. -/
structure Called (b : Block) (s : State) (calls : Nat) (s' : State) : Prop where
  data : s'.data = (b.handled s calls).data
  /-- Every call but the last one has set the program counter back. -/
  pc : s'.regs.pc = s.regs.pc - 2 * .ofNat (min calls (b.turns s - 1))
  /-- Where the program counter is set back by a transfer or a comparison, WZ shows it. -/
  wz : 0 < calls → calls < b.turns s → b.kind = .transfer ∨ b.kind = .compare →
    s'.regs.wz = s'.regs.pc + 1

theorem called_zero (b : Block) (s : State) : Called b s 0 s where
  data := rfl
  pc := by
    rw [Nat.zero_min]
    exact (UInt16.sub_zero _).symm
  wz := fun h => absurd h (Nat.lt_irrefl 0)

variable {b : Block} {s s' : State} {i : Nat}

theorem Called.memory (h : Called b s i s') : s'.memory = (b.handled s i).memory :=
  congrArg (fun t => t.memory) h.data

theorem Called.hl (h : Called b s i s') : s'.regs.hl = b.pointer s.regs.hl i :=
  (congrArg (fun t => t.regs.hl) h.data).trans (Block.hl_handled s i)

theorem Called.de (h : Called b s i s') : s'.regs.de = (b.handled s i).regs.de :=
  congrArg (fun t => t.regs.de) h.data

theorem Called.bc (h : Called b s i s') : s'.regs.bc = (b.handled s i).regs.bc :=
  congrArg (fun t => t.regs.bc) h.data

theorem Called.f (h : Called b s i s') : s'.regs.f = (b.handled s i).regs.f :=
  congrArg (fun t => t.regs.f) h.data

/-- Whether the next call goes on is up to the number of calls. -/
theorem goesOn_of_data (h : s'.data = (b.handled s i).data) (hi : i < b.turns s) :
    ((blockOnce b).state s').regs.goesOn b.kind = true ↔ i + 1 < b.turns s := by
  rw [← goesOn_data, Block.data_blockOnce_handled s i h, goesOn_data]
  exact Block.goesOn_handled s hi

/-- **One call.** -/
theorem Called.step (hrep : b.repeats = true) (h : Called b s i s') (hi : i < b.turns s) :
    Called b s (i + 1) ((block b).state s') ∧
      (((block b).state s').regs.pc + 2 = s'.regs.pc ↔ i + 1 < b.turns s) := by
  have hdata := Block.data_blockOnce_handled s i h.data
  have hgoes := goesOn_of_data h.data hi
  have hpc := pc_block b s'
  rw [hrep, Bool.true_and] at hpc
  by_cases hmore : i + 1 < b.turns s
  · rw [if_pos (hgoes.mpr hmore)] at hpc
    have hback : ((block b).state s').regs.pc + 2 = s'.regs.pc := by
      rw [hpc]
      exact UInt16.sub_add_cancel _ _
    refine ⟨⟨(data_block b s').trans hdata, ?_, fun _ _ hkind => ?_⟩, iff_of_true hback hmore⟩
    · have hsucc : UInt16.ofNat (i + 1) = .ofNat i + 1 := UInt16.ofNat_add i 1
      rw [hpc, h.pc, Nat.min_eq_left (by omega), Nat.min_eq_left (by omega), hsucc]
      grind
    · rw [state_block, hrep, Bool.true_and, if_pos (hgoes.mpr hmore)]
      rcases hkind with hkind | hkind <;> rw [hkind] <;> rfl
  · rw [if_neg (hmore ∘ hgoes.mp)] at hpc
    have hon : ((block b).state s').regs.pc + 2 ≠ s'.regs.pc := by
      rw [hpc]
      exact word_add_two_ne _
    refine ⟨⟨(data_block b s').trans hdata, ?_, fun _ hlt => absurd hlt hmore⟩,
      iff_of_false hon hmore⟩
    rw [hpc, h.pc, Nat.min_eq_left (by omega), Nat.min_eq_right (by omega),
      show b.turns s - 1 = i by omega]

end Z80

namespace Computer

open Z80

/-- **A block instruction that is called again and again takes all its turns**, unless the timer
faults, and has handled one byte with each call. -/
theorem exists_calls {c : Computer} {b : Block} (hrep : b.repeats = true)
    (hok : c.Endures (.block b) (b.turns c.processor)) :
    ∃ rounds last reports, c.Repeats [.block b] 2 rounds ∧
      rounds.length = b.turns c.processor ∧ rounds.getLast? = some (last, reports) ∧
      Called b c.processor (b.turns c.processor) last.processor ∧
      ∀ i (hi : i < rounds.length), Called b c.processor (i + 1) rounds[i].1.processor ∧
        (rounds[i].2.flatMap Report.events).filter Event.isBus =
          ((blockOnce b).actions (b.handled c.processor i)).flatMap Action.traffic := by
  obtain ⟨rounds, last, reports, hrounds, hlen, hlast, ⟨hend, -⟩, hall⟩ := exists_repeats
    [.block b] 2 (Block.turns_pos c.processor (b := b))
    (fun i d => Called b c.processor i d.processor ∧
      d.Endures (.block b) (b.turns c.processor - i))
    (fun i reports => (reports.flatMap Report.events).filter Event.isBus =
      ((blockOnce b).actions (b.handled c.processor i)).flatMap Action.traffic)
    (fun i hi d ⟨hcalled, hendures⟩ => by
      rw [show b.turns c.processor - i = b.turns c.processor - (i + 1) + 1 by omega] at hendures
      obtain ⟨next, reports, hrun, hnext⟩ := hendures.step rfl
      have hstate : next.processor = (block b).state d.processor := (run_eq_results hrun).1
      obtain ⟨hstep, hback⟩ := hcalled.step hrep hi
      have htraffic := Timer.filter_events_play (play_of_run hrun)
      rw [seen_block, traffic_block, actions_blockOnce, hcalled.data, ← actions_blockOnce]
        at htraffic
      rw [← hstate] at hstep hback
      exact ⟨next, reports, hrun, ⟨hstep, hnext⟩, htraffic, hback⟩)
    ⟨called_zero b c.processor, hok⟩
  exact ⟨rounds, last, reports, hrounds, hlen, hlast, hend,
    fun i hi => ⟨(hall i hi).1.1, (hall i hi).2⟩⟩

end Computer

end SpectrumTiming
