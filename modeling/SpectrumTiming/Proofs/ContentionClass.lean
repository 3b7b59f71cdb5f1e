import Mathlib.Data.List.Forall2
import SpectrumTiming.Proofs.Delays

/-!
# What timing depends on

The ULA looks at an address in two ways only: whether it is contended while the bank of the moment
is paged in, and, for a port, whether it lies in the display part of memory and whether it is even.
And the bytes of an instruction are looked at only until its script is known. Two runs that agree in
these respects, and in all else that is reported, keep the same time, find the same scripts, charge
the same and mark the same accesses, and give up at the same operation (`run_sameClass`).

The captures of the two runs stay similar whatever their clocks do (`Capture.Similar.settle`): what
is charged in either falls into the same phases. So the argument does not need equal clocks; any
relation between them will do that is kept while the same phases pass on both (`Clock.Lasting`).
-/

namespace SpectrumTiming

open Capture

theorem getElem?_of_forall₂ {α β : Type} {R : α → β → Prop} {xs : List α} {ys : List β}
    (h : List.Forall₂ R xs ys) (i : Nat) :
    (xs[i]? = none ∧ ys[i]? = none) ∨ ∃ a b, xs[i]? = some a ∧ ys[i]? = some b ∧ R a b := by
  induction h generalizing i with
  | nil => exact .inl ⟨rfl, rfl⟩
  | cons hab hrest ih =>
    cases i with
    | zero => exact .inr ⟨_, _, rfl, rfl, hab⟩
    | succ i => simpa using ih i

theorem forall₂_replicate {α β : Type} {R : α → β → Prop} {a : α} {b : β} (h : R a b) (n : Nat) :
    List.Forall₂ R (List.replicate n a) (List.replicate n b) := by
  induction n with
  | zero => exact .nil
  | succ n ih => exact .cons h ih

theorem forall₂_mapIdx {α : Type} {R : α → α → Prop} {f : Nat → α → α}
    (hf : ∀ i a b, R a b → R (f i a) (f i b)) {xs ys : List α} (h : List.Forall₂ R xs ys) :
    List.Forall₂ R (xs.mapIdx f) (ys.mapIdx f) := by
  induction h generalizing f with
  | nil => exact .nil
  | cons hab hrest ih =>
    rw [List.mapIdx_cons, List.mapIdx_cons]
    exact .cons (hf 0 _ _ hab) (ih fun i => hf (i + 1))

/-! ## Addresses and costs -/

/-- Two addresses are contended alike while any of the banks is paged in. -/
def Ula.ContendedAlike (u : Ula) (banks : List Nat) (a b : UInt16) : Prop :=
  ∀ bank ∈ banks, u.contended bank a = u.contended bank b

instance (u : Ula) (banks : List Nat) (a b : UInt16) : Decidable (u.ContendedAlike banks a b) :=
  inferInstanceAs (Decidable (∀ bank ∈ banks, u.contended bank a = u.contended bank b))

/-- Two addresses are contended alike, and they are ports of the same kind. -/
structure Ula.SameClass (u : Ula) (banks : List Nat) (a b : UInt16) : Prop where
  contended : u.ContendedAlike banks a b
  display : inDisplayBank a = inDisplayBank b
  parity : a % 2 = b % 2

theorem Ula.SameClass.refl (u : Ula) (banks : List Nat) (a : UInt16) : u.SameClass banks a a where
  contended _ _ := rfl
  display := rfl
  parity := rfl

variable {u : Ula} {banks : List Nat}

/-- Two costs are the same but for their addresses, which are of the same class. -/
inductive Cost.Similar (u : Ula) (banks : List Nat) : Cost → Cost → Prop
  | idle (n : Nat) : Similar u banks (.idle n) (.idle n)
  | memory {a b : UInt16} (h : u.ContendedAlike banks a b) (n : Nat) :
    Similar u banks (.memory a n) (.memory b n)
  | port {a b : UInt16} (h : u.SameClass banks a b) : Similar u banks (.port a) (.port b)

theorem Cost.Similar.cycles_eq {x y : Cost} (h : x.Similar u banks y) : x.cycles = y.cycles := by
  cases h <;> rfl

theorem Cost.Similar.phases_eq {x y : Cost} (h : x.Similar u banks y) {bank : Nat}
    (hbank : bank ∈ banks) : u.phases bank x = u.phases bank y := by
  cases h with
  | idle n => rfl
  | memory h n => simp only [Ula.phases, h bank hbank]
  | port h => simp only [Ula.phases, Ula.portPhases, h.display, h.parity]

theorem Cost.total_eq_of_similar {xs ys : List Cost}
    (h : List.Forall₂ (Cost.Similar u banks) xs ys) : total xs = total ys := by
  induction h with
  | nil => rfl
  | cons hxy _ ih => rw [total, total, hxy.cycles_eq, ih]

theorem Cost.phases_eq_of_similar {xs ys : List Cost}
    (h : List.Forall₂ (Cost.Similar u banks) xs ys) {bank : Nat} (hbank : bank ∈ banks) :
    xs.flatMap (u.phases bank) = ys.flatMap (u.phases bank) := by
  induction h with
  | nil => rfl
  | cons hxy _ ih => rw [List.flatMap_cons, List.flatMap_cons, hxy.phases_eq hbank, ih]

/-! ## Captures -/

/-- Two accesses with the same marks, to addresses of the same class. -/
structure Access.Similar (u : Ula) (banks : List Nat) (a b : Access) : Prop where
  marks : a.marks = b.marks
  addr : u.SameClass banks a.addr b.addr

theorem Access.Similar.refl (u : Ula) (banks : List Nat) (a : Access) : a.Similar u banks a :=
  ⟨rfl, .refl u banks a.addr⟩

theorem Access.Similar.charge {a b : Access} (h : a.Similar u banks b) :
    a.charge.Similar u banks b.charge where
  marks := by simp only [Access.charge, h.marks]
  addr := h.addr

namespace Capture

/-- Two captures that have been told the same, up to the class of addresses, and up to the bytes
that came once the script was known. -/
structure Similar {ι : Type} (u : Ula) (banks : List Nat) (c d : Capture ι) : Prop where
  active : c.active = d.active
  predicted : c.predicted = d.predicted
  consumed : c.consumed = d.consumed
  taken : c.taken = d.taken
  script? : c.script? = d.script?
  cursor : c.cursor = d.cursor
  pair : ∀ p, u.ContendedAlike banks (c.pair p) (d.pair p)
  log : List.Forall₂ (Access.Similar u banks) c.log d.log
  /-- The script has to be found in the same bytes. -/
  values : c.script? = none → c.log.map Access.value = d.log.map Access.value

section

variable {ι : Type} {c d : Capture ι}

theorem Similar.refl (u : Ula) (banks : List Nat) (c : Capture ι) : c.Similar u banks c := by
  refine ⟨rfl, rfl, rfl, rfl, rfl, rfl, fun _ _ _ => rfl, ?_, fun _ => rfl⟩
  exact List.forall₂_same.mpr fun a _ => .refl u banks a

theorem Similar.isFull_eq (h : c.Similar u banks d) : c.isFull = d.isFull := by
  simp only [isFull, h.log.length_eq]

theorem Similar.addr (h : c.Similar u banks d) (slot : Nat) :
    u.SameClass banks (c.addr slot) (d.addr slot) := by
  unfold Capture.addr
  rcases getElem?_of_forall₂ h.log slot with ⟨hc, hd⟩ | ⟨a, b, hc, hd, hab⟩
  · rw [hc, hd]
    exact .refl u banks 0
  · rw [hc, hd]
    exact hab.addr

theorem Similar.ready_eq (h : c.Similar u banks d) (s : Script) : c.ready s = d.ready s := by
  rw [ready, ready, h.cursor, unlocks_congr h.log.length_eq h.taken]

theorem Similar.costs (h : c.Similar u banks d) (e : Element) :
    List.Forall₂ (Cost.Similar u banks) (c.costs e) (d.costs e) := by
  unfold Capture.costs
  cases e.source with
  | memory slot => exact forall₂_replicate (.memory (h.addr slot).contended _) _
  | port slot => exact .cons (.port (h.addr slot)) .nil
  | pair p => exact forall₂_replicate (.memory (h.pair p) _) _
  | idle => exact forall₂_replicate (.idle _) _

theorem Similar.walk_costs (h : c.Similar u banks d) (s : Script) :
    List.Forall₂ (Cost.Similar u banks) (c.walk s).2 (d.walk s).2 := by
  show List.Forall₂ _ ((c.ready s).flatMap c.costs) ((d.ready s).flatMap d.costs)
  rw [h.ready_eq s]
  refine List.rel_flatMap (List.forall₂_same.mpr fun _ _ => rfl) ?_
  rintro e _ rfl
  exact h.costs e

/-- **A walk charges the same**, and marks the same accesses. -/
theorem Similar.walk (h : c.Similar u banks d) (s : Script) :
    (c.walk s).1.Similar u banks (d.walk s).1 where
  active := h.active
  predicted := h.predicted
  consumed := by
    show c.consumed + Cost.total (c.walk s).2 = d.consumed + Cost.total (d.walk s).2
    rw [h.consumed, Cost.total_eq_of_similar (h.walk_costs s)]
  taken := h.taken
  script? := h.script?
  cursor := by
    show c.cursor + (c.ready s).length = d.cursor + (d.ready s).length
    rw [h.cursor, h.ready_eq s]
  pair := h.pair
  log := by
    show List.Forall₂ _ (c.mark (c.ready s)).log (d.mark (d.ready s)).log
    rw [h.ready_eq s]
    refine forall₂_mapIdx (fun i a b hab => ?_) h.log
    split
    · exact hab.charge
    · exact hab
  values := by
    intro hs
    have hc : (c.walk s).1.log.map Access.value = c.log.map Access.value :=
      map_mark (fun _ => rfl) c _
    have hd : (d.walk s).1.log.map Access.value = d.log.map Access.value :=
      map_mark (fun _ => rfl) d _
    rw [hc, hd]
    exact h.values hs

theorem Similar.marks (h : c.Similar u banks d) :
    c.log.map (·.marks) = d.log.map (·.marks) := by
  rw [← List.forall₂_eq_eq_eq, List.forall₂_map_left_iff, List.forall₂_map_right_iff]
  exact h.log.imp fun _ _ hab => hab.marks

theorem Similar.isNone_firstUncharged? (h : c.Similar u banks d) :
    c.firstUncharged?.isNone = d.firstUncharged?.isNone := by
  have hmarks (c : Capture ι) : c.firstUncharged? =
      (c.log.map (·.marks)).findIdx? fun m => !m.charged := by
    rw [List.findIdx?_map]
    rfl
  rw [hmarks c, hmarks d, h.marks]

theorem Similar.push (h : c.Similar u banks d) {a b : Access} (hab : a.Similar u banks b)
    (hvalue : c.script? = none → a.value = b.value) : (c.push a).Similar u banks (d.push b) :=
  { h with
    log := List.rel_append h.log (.cons hab .nil)
    values := fun hs => by
      simp only [Capture.push, List.map_append, h.values hs, List.map_cons, hvalue hs] }

end

/-- The same bytes collapse. -/
theorem splitCollapsing_similar {R : Access → Access → Prop} {xs ys : List Access}
    (h : List.Forall₂ R xs ys) (hvalues : xs.map Access.value = ys.map Access.value) :
    List.Forall₂ R (splitCollapsing xs).1 (splitCollapsing ys).1 ∧
      List.Forall₂ R (splitCollapsing xs).2 (splitCollapsing ys).2 ∧
      (splitCollapsing xs).2.map Access.value = (splitCollapsing ys).2.map Access.value := by
  induction h with
  | nil => exact ⟨.nil, .nil, rfl⟩
  | @cons a b xs ys hab hrest ih =>
    have hrecognize : recognize (a :: xs) = recognize (b :: ys) := recognize_congr hvalues
    by_cases hr : recognize (b :: ys) = .collapse
    · rw [splitCollapsing_of_collapse hr, splitCollapsing_of_collapse (hrecognize.trans hr)]
      obtain ⟨hfront, hback⟩ := ih (List.cons.inj hvalues).2
      exact ⟨.cons hab hfront, hback⟩
    · rw [splitCollapsing_of_ne hr, splitCollapsing_of_ne (by rw [hrecognize]; exact hr)]
      exact ⟨.nil, .cons hab hrest, hvalues⟩

variable {c d : Capture ScriptNumber}

theorem Similar.collapse (h : c.Similar u banks d) (hs : c.script? = none) :
    c.collapse.1.Similar u banks d.collapse.1 ∧
      List.Forall₂ (Cost.Similar u banks) c.collapse.2 d.collapse.2 := by
  obtain ⟨hfront, hback, hvalues⟩ := splitCollapsing_similar h.log (h.values hs)
  refine ⟨⟨h.active, h.predicted, ?_, h.taken, h.script?, h.cursor, h.pair, hback,
    fun _ => hvalues⟩, ?_⟩
  · show c.consumed + UInt32.ofNat (indexCycles * (splitCollapsing c.log).1.length) =
      d.consumed + UInt32.ofNat (indexCycles * (splitCollapsing d.log).1.length)
    rw [h.consumed, hfront.length_eq]
  · show List.Forall₂ _ ((splitCollapsing c.log).1.map _) ((splitCollapsing d.log).1.map _)
    rw [List.forall₂_map_left_iff, List.forall₂_map_right_iff]
    exact hfront.imp fun a b hab => .memory hab.addr.contended indexCycles

theorem Similar.assign (h : c.Similar u banks d) (hs : c.script? = none) :
    c.assign.Similar u banks d.assign := by
  unfold Capture.assign
  rw [recognize_congr (h.values hs)]
  cases recognize d.log with
  | script id taken =>
    exact ⟨h.active, h.predicted, h.consumed, congrArg (· || taken) h.taken, rfl, h.cursor, h.pair,
      h.log, fun _ => h.values hs⟩
  | pending => exact h
  | collapse => exact h

/-- **Settling charges the same.** -/
theorem Similar.settle (h : c.Similar u banks d) (v : Variant) :
    (settle v c).1.Similar u banks (settle v d).1 ∧
      List.Forall₂ (Cost.Similar u banks) (settle v c).2 (settle v d).2 := by
  have hresolve : c.resolve.1.Similar u banks d.resolve.1 ∧
      List.Forall₂ (Cost.Similar u banks) c.resolve.2 d.resolve.2 := by
    cases hs : c.script? with
    | some id =>
      rw [resolve_of_some hs, resolve_of_some (h.script?.symm.trans hs)]
      exact ⟨h, .nil⟩
    | none =>
      rw [resolve_of_none hs, resolve_of_none (h.script?.symm.trans hs)]
      obtain ⟨hcollapse, hcosts⟩ := h.collapse hs
      exact ⟨hcollapse.assign hs, hcosts⟩
  obtain ⟨hsame, hfront⟩ := hresolve
  cases hs : c.resolve.1.script? with
  | none =>
    rw [settle_of_none v hs, settle_of_none v (hsame.script?.symm.trans hs)]
    exact ⟨hsame, hfront⟩
  | some id =>
    rw [settle_of_some v hs, settle_of_some v (hsame.script?.symm.trans hs)]
    exact ⟨hsame.walk _, List.rel_append hfront (hsame.walk_costs _)⟩

end Capture

/-! ## Clocks -/

namespace Clock

/-- A relation between clocks that is kept while the same phases pass on both. -/
structure Lasting (u : Ula) (E : Clock → Clock → Prop) : Prop where
  bank {c d : Clock} (h : E c d) : d.bank = c.bank
  pass {c d : Clock} (h : E c d) (p : Phase) : E (c.passPhase u p) (d.passPhase u p)

theorem lasting_eq (u : Ula) : Lasting u Eq where
  bank h := by rw [h]
  pass h p := by rw [h]

variable {E : Clock → Clock → Prop} {c d : Clock}

theorem Lasting.foldl (hE : Lasting u E) (h : E c d) (ps : List Phase) :
    E (ps.foldl (passPhase u) c) (ps.foldl (passPhase u) d) := by
  induction ps generalizing c d with
  | nil => exact h
  | cons p ps ih => exact ih (hE.pass h p)

theorem Lasting.advance (hE : Lasting u E) (h : E c d) (n : Nat) :
    E (c.advance u n) (d.advance u n) := by
  have hpass := hE.pass h ⟨false, n⟩
  simpa [passPhase] using hpass

theorem Lasting.payAll (hE : Lasting u E) (h : E c d) (hbank : c.bank ∈ banks) {xs ys : List Cost}
    (hcosts : List.Forall₂ (Cost.Similar u banks) xs ys) : E (c.payAll u xs) (d.payAll u ys) := by
  rw [payAll_eq_foldl, payAll_eq_foldl, hE.bank h, Cost.phases_eq_of_similar hcosts hbank]
  exact hE.foldl h _

end Clock

/-! ## Timers -/

namespace Timer

/-- The bank an operation pages in. -/
def Op.bank? : Op → Option Nat
  | .setBank bank => some bank
  | .reset => some 0
  | _ => none

/-- An operation that moves both clocks without regard to the ULA keeps the relation. -/
def Op.Keeps (u : Ula) (E : Clock → Clock → Prop) : Op → Prop
  | .setCounter tstate => ∀ c d, E c d → E (c.setCounter u tstate) (d.setCounter u tstate)
  | .setBank bank => ∀ c d, E c d → E (c.setBank bank) (d.setBank bank)
  | .reset => ∀ c d : Clock, E c d → E {} {}
  | _ => True

theorem Op.keeps_eq (u : Ula) (op : Op) : op.Keeps u Eq := by
  cases op with
  | setCounter tstate => exact fun _ _ h => congrArg (Clock.setCounter u · tstate) h
  | setBank bank => exact fun _ _ h => congrArg (Clock.setBank · bank) h
  | reset => exact fun _ _ _ => rfl
  | _ => exact trivial

/-- The script of the running instruction is still looked for. -/
def Undecided (t : Timer) : Prop := t.capture.active = true ∧ t.capture.script? = none

/-- Two operations that report the same, up to the class of addresses. Of an access the value counts
while the script is looked for, and the tag never. -/
inductive Op.Similar (u : Ula) (banks : List Nat) (undecided : Prop) : Op → Op → Prop
  | refl (op : Op) : Similar u banks undecided op op
  | begin {bc ir bc' ir' : UInt16} (hbc : u.ContendedAlike banks bc bc')
      (hir : u.ContendedAlike banks ir ir') :
    Similar u banks undecided (.begin bc ir) (.begin bc' ir')
  | record {a b : Access} (h : a.Similar u banks b) (hvalue : undecided → a.value = b.value) :
    Similar u banks undecided (.record a) (.record b)

/-- The same fault, or timers that are related. -/
def SameOutcome (R : Timer → Timer → Prop) (x y : Except Fault Timer) : Prop :=
  (∃ f, x = .error f ∧ y = .error f) ∨ ∃ t s, x = .ok t ∧ y = .ok s ∧ R t s

/-- Two timers of a machine that have been told the same, up to the class of addresses, with clocks
in a given relation. -/
structure Similar (u : Ula) (E : Clock → Clock → Prop) (banks : List Nat) (t s : Timer) : Prop where
  left : t.ula = u
  right : s.ula = u
  clock : E t.clock s.clock
  bank : t.clock.bank ∈ banks
  capture : t.capture.Similar u banks s.capture

variable {E : Clock → Clock → Prop} {t s : Timer}

theorem Similar.settle (h : Similar u E banks t s) (hE : Clock.Lasting u E) :
    Similar u E banks t.settle s.settle := by
  obtain ⟨hcapture, hcosts⟩ := h.capture.settle u.variant
  refine ⟨h.left, h.right, ?_, ?_, ?_⟩
  · show E (t.clock.payAll t.ula (Capture.settle t.ula.variant t.capture).2)
      (s.clock.payAll s.ula (Capture.settle s.ula.variant s.capture).2)
    rw [h.left, h.right]
    exact hE.payAll h.clock h.bank hcosts
  · show (t.clock.payAll t.ula _).bank ∈ banks
    rw [Clock.bank_payAll]
    exact h.bank
  · show Capture.Similar u banks (Capture.settle t.ula.variant t.capture).1
      (Capture.settle s.ula.variant s.capture).1
    rw [h.left, h.right]
    exact hcapture

theorem Similar.stay (h : Similar u E banks t s) :
    SameOutcome (Similar u E banks) (.ok t) (.ok s) :=
  .inr ⟨t, s, rfl, rfl, h⟩

theorem Similar.begin (h : Similar u E banks t s) {bc ir bc' ir' : UInt16}
    (hbc : u.ContendedAlike banks bc bc') (hir : u.ContendedAlike banks ir ir') :
    Similar u E banks (t.begin bc ir) (s.begin bc' ir') := by
  unfold Timer.begin
  rw [h.left, h.right]
  split
  · refine ⟨rfl, rfl, h.clock, h.bank, rfl, rfl, rfl, rfl, rfl, rfl, fun p => ?_, .nil,
      fun _ => rfl⟩
    cases p with
    | ir => exact hir
    | bc => exact hbc
  · exact ⟨rfl, rfl, h.clock, h.bank, { h.capture with }⟩

theorem Similar.finish (h : Similar u E banks t s) :
    SameOutcome (Similar u E banks) t.finish s.finish := by
  have hreconciles : t.reconciles = s.reconciles := by
    simp only [reconciles, sumsAgree, h.capture.predicted, h.capture.consumed,
      h.capture.isNone_firstUncharged?]
  unfold Timer.finish
  rw [h.capture.active, hreconciles]
  cases s.capture.active with
  | false => exact h.stay
  | true =>
    cases s.reconciles with
    | false => exact .inl ⟨.unreconciled, rfl, rfl⟩
    | true =>
      exact .inr ⟨_, _, rfl, rfl, h.left, h.right, h.clock, h.bank,
        { h.capture with active := rfl }⟩

theorem Similar.advance (h : Similar u E banks t s) (hE : Clock.Lasting u E) (cycles : Nat) :
    Similar u E banks (t.advance cycles) (s.advance cycles) := by
  refine ⟨h.left, h.right, ?_, h.bank, h.capture⟩
  show E (t.clock.advance t.ula cycles) (s.clock.advance s.ula cycles)
  rw [h.left, h.right]
  exact hE.advance h.clock cycles

theorem Similar.elapse (h : Similar u E banks t s) (hE : Clock.Lasting u E) (kind : TimeKind)
    (cycles : Nat) : Similar u E banks (t.elapse kind cycles) (s.elapse kind cycles) := by
  have hadvance := h.advance hE cycles
  cases kind with
  | interrupt => exact hadvance
  | delay => exact hadvance
  | documented =>
    unfold Timer.elapse
    rw [h.capture.active]
    cases s.capture.active with
    | false => exact hadvance
    | true =>
      exact ⟨h.left, h.right, h.clock, h.bank,
        { h.capture with predicted := congrArg (· + UInt32.ofNat cycles) h.capture.predicted }⟩
  | base =>
    unfold Timer.elapse
    rw [h.capture.active]
    cases s.capture.active with
    | false => exact hadvance
    | true =>
      exact ⟨hadvance.left, hadvance.right, hadvance.clock, hadvance.bank,
        { h.capture with consumed := congrArg (· + UInt32.ofNat cycles) h.capture.consumed }⟩

theorem Similar.record (h : Similar u E banks t s) (hE : Clock.Lasting u E) {a b : Access}
    (hab : a.Similar u banks b) (hvalue : t.Undecided → a.value = b.value) :
    SameOutcome (Similar u E banks) (t.record a) (s.record b) := by
  cases ht : t.capture.active with
  | false =>
    rw [record_of_idle ht, record_of_idle (h.capture.active.symm.trans ht)]
    exact h.stay
  | true =>
    have hs := h.capture.active.symm.trans ht
    cases hroom : t.capture.isFull with
    | true =>
      rw [record_of_full ht hroom, record_of_full hs (h.capture.isFull_eq.symm.trans hroom)]
      exact .inl ⟨.logFull, rfl, rfl⟩
    | false =>
      have hpush : Similar u E banks { t with capture := t.capture.push a }
          { s with capture := s.capture.push b } :=
        ⟨h.left, h.right, h.clock, h.bank, h.capture.push hab fun hscript => hvalue ⟨ht, hscript⟩⟩
      rw [record_of_room ht hroom, record_of_room hs (h.capture.isFull_eq.symm.trans hroom)]
      exact (hpush.settle hE).stay

theorem Similar.confirm (h : Similar u E banks t s) (hE : Clock.Lasting u E) :
    Similar u E banks t.confirm s.confirm := by
  have htaken : Similar u E banks { t with capture := { t.capture with taken := true } }
      { s with capture := { s.capture with taken := true } } :=
    ⟨h.left, h.right, h.clock, h.bank, { h.capture with taken := rfl }⟩
  cases ht : t.capture.active with
  | false =>
    rw [confirm_of_idle ht, confirm_of_idle (h.capture.active.symm.trans ht)]
    exact htaken
  | true =>
    rw [confirm_of_active ht, confirm_of_active (h.capture.active.symm.trans ht)]
    exact htaken.settle hE

/-- **One operation.** -/
theorem Similar.step (h : Similar u E banks t s) (hE : Clock.Lasting u E) {x y : Op}
    (hxy : x.Similar u banks t.Undecided y) (hkeeps : x.Keeps u E)
    (hbanks : ∀ bank ∈ x.bank?, bank ∈ banks) :
    SameOutcome (Similar u E banks) (t.step x) (s.step y) := by
  cases hxy with
  | begin hbc hir => exact (h.begin hbc hir).stay
  | record hab hvalue => exact h.record hE hab hvalue
  | refl =>
    cases x with
    | begin bc ir => exact (h.begin (fun _ _ => rfl) fun _ _ => rfl).stay
    | finish => exact h.finish
    | elapse kind cycles => exact (h.elapse hE kind cycles).stay
    | record a => exact h.record hE (.refl u banks a) fun _ => rfl
    | confirm => exact (h.confirm hE).stay
    | advance cycles => exact (h.advance hE cycles).stay
    | setCounter tstate =>
      refine .inr ⟨_, _, rfl, rfl, h.left, h.right, ?_, h.bank, h.capture⟩
      show E (t.clock.setCounter t.ula tstate) (s.clock.setCounter s.ula tstate)
      rw [h.left, h.right]
      exact hkeeps _ _ h.clock
    | setBank bank =>
      exact .inr ⟨_, _, rfl, rfl, h.left, h.right, hkeeps _ _ h.clock, hbanks bank rfl, h.capture⟩
    | reset =>
      exact .inr ⟨_, _, rfl, rfl, h.left, h.right, hkeeps _ _ h.clock, hbanks 0 rfl, h.capture⟩

/-- Two lists of operations that report the same to a timer, up to the class of addresses. Whether a
value counts is seen from the first. -/
inductive RunsAlike (u : Ula) (banks : List Nat) : Timer → List Op → List Op → Prop
  | nil (t : Timer) : RunsAlike u banks t [] []
  | cons {t : Timer} {x y : Op} {xs ys : List Op} (h : x.Similar u banks t.Undecided y)
      (hrest : ∀ next, t.step x = .ok next → RunsAlike u banks next xs ys) :
    RunsAlike u banks t (x :: xs) (y :: ys)

theorem RunsAlike.refl (u : Ula) (banks : List Nat) (t : Timer) (ops : List Op) :
    RunsAlike u banks t ops ops := by
  induction ops generalizing t with
  | nil => exact .nil t
  | cons op ops ih => exact .cons (.refl op) fun next _ => ih next

theorem RunsAlike.take {t : Timer} {xs ys : List Op} (h : RunsAlike u banks t xs ys) (n : Nat) :
    RunsAlike u banks t (xs.take n) (ys.take n) := by
  induction h generalizing n with
  | nil t =>
    rw [List.take_nil]
    exact .nil t
  | cons hxy _ ih =>
    cases n with
    | zero => exact .nil _
    | succ n => exact .cons hxy fun next hnext => ih next hnext n

/-- **A run.** -/
theorem Similar.run {xs ys : List Op} (hruns : RunsAlike u banks t xs ys)
    (h : Similar u E banks t s) (hE : Clock.Lasting u E) (hkeeps : ∀ op ∈ xs, op.Keeps u E)
    (hbanks : ∀ op ∈ xs, ∀ bank ∈ op.bank?, bank ∈ banks) :
    SameOutcome (Similar u E banks) (t.run xs) (s.run ys) := by
  induction hruns generalizing s with
  | nil t => exact h.stay
  | @cons t x y xs ys hxy hrest ih =>
    obtain ⟨hkeep, hkeeps⟩ := List.forall_mem_cons.mp hkeeps
    obtain ⟨hbank, hbanks⟩ := List.forall_mem_cons.mp hbanks
    rw [run_cons, run_cons]
    rcases h.step hE hxy hkeep hbank with ⟨f, hx, hy⟩ | ⟨t', s', hx, hy, hnext⟩
    · rw [hx, hy]
      exact .inl ⟨f, rfl, rfl⟩
    · rw [hx, hy]
      exact ih t' hx hnext hkeeps hbanks

/-- The banks that are paged in at some time of a run. -/
def banksOf (t : Timer) (ops : List Op) : List Nat := t.clock.bank :: ops.filterMap Op.bank?

theorem mem_banksOf (t : Timer) {ops : List Op} {op : Op} (hop : op ∈ ops) {bank : Nat}
    (hbank : bank ∈ op.bank?) : bank ∈ t.banksOf ops :=
  List.mem_cons_of_mem _ (List.mem_filterMap.mpr ⟨op, hop, hbank⟩)

/--
**Timing depends on the class of addresses.** Take two runs of the same timer whose operations are
the same but for the register pairs and the accesses that are reported. Let the pairs be contended
alike under every bank that is paged in at some time, and the addresses of accesses be of the same
class. Of what was read or written let only the bytes be the same that are reported while the script
is still looked for. Then at any moment both have met the same fault, or neither has met any and
their clocks, scripts, cursors, sums and marks are the same.
-/
theorem run_sameClass (t : Timer) {xs ys : List Op} (h : RunsAlike t.ula (t.banksOf xs) t xs ys)
    (n : Nat) :
    (∃ f, t.run (xs.take n) = .error f ∧ t.run (ys.take n) = .error f) ∨
    ∃ r s, t.run (xs.take n) = .ok r ∧ t.run (ys.take n) = .ok s ∧ r.clock = s.clock ∧
      r.capture.script? = s.capture.script? ∧ r.capture.cursor = s.capture.cursor ∧
      r.capture.predicted = s.capture.predicted ∧ r.capture.consumed = s.capture.consumed ∧
      r.capture.log.map (·.marks) = s.capture.log.map (·.marks) := by
  have hstart : Similar t.ula Eq (t.banksOf xs) t t :=
    ⟨rfl, rfl, rfl, List.mem_cons_self, .refl _ _ _⟩
  rcases Similar.run (h.take n) hstart (Clock.lasting_eq t.ula) (fun op _ => op.keeps_eq t.ula)
      (fun _ hop _ => t.mem_banksOf (List.mem_of_mem_take hop)) with hfault | ⟨r, s, hr, hs, hsame⟩
  · exact .inl hfault
  · exact .inr ⟨r, s, hr, hs, hsame.clock, hsame.capture.script?, hsame.capture.cursor,
      hsame.capture.predicted, hsame.capture.consumed, hsame.capture.marks⟩

/-- The ZX Spectrum 48K at the first contended T-state of a frame. -/
def contending48k : Timer := { ula := .spectrum48k, clock := { counter := 14335 } }

/-- `IN A,(n)`. -/
def inPort (bc ir place : UInt16) (n : UInt8) (port : UInt16) (value : UInt8) : List Op :=
  [.begin bc ir, .record ⟨place, 0xDB, .memoryRead, ""⟩, .record ⟨place + 1, n, .memoryRead, ""⟩,
    .record ⟨port, value, .portRead, ""⟩, .elapse .documented 11, .finish]

/-- `IN A,(n)` from two even ports, in different places on the screen. -/
theorem run_sameClass_inPort :
    ∃ r s, contending48k.run (inPort 0 0 0x4000 0xFE 0x12FE 0xBF) = .ok r ∧
      contending48k.run (inPort 0x8000 0x3F00 0x5B00 0x1C 0xC01C 0) = .ok s ∧
      r.clock = s.clock := by
  -- the script is known as soon as the first byte is
  have hknown : ∀ n ∈ [2, 3], ∀ next,
      contending48k.run ((inPort 0 0 0x4000 0xFE 0x12FE 0xBF).take n) = .ok next →
        ¬ next.Undecided := by
    have hsome : ∀ n ∈ [2, 3],
        (contending48k.run ((inPort 0 0 0x4000 0xFE 0x12FE 0xBF).take n)).toOption.bind
          (·.capture.script?) ≠ none := by
      decide +kernel
    intro n hn next hrun hnone
    have hnot := hsome n hn
    rw [hrun] at hnot
    exact hnot hnone.2
  have hruns : RunsAlike contending48k.ula
      (contending48k.banksOf (inPort 0 0 0x4000 0xFE 0x12FE 0xBF)) contending48k
      (inPort 0 0 0x4000 0xFE 0x12FE 0xBF) (inPort 0x8000 0x3F00 0x5B00 0x1C 0xC01C 0) := by
    refine .cons (.begin (by decide) (by decide)) fun t₁ h₁ => ?_
    refine .cons (.record ⟨rfl, by decide, rfl, rfl⟩ fun _ => rfl) fun t₂ h₂ => ?_
    have hrun₂ := run_cons_eq_ok.mpr ⟨t₁, h₁, (run_singleton t₁ _).trans h₂⟩
    refine .cons (.record ⟨rfl, by decide, rfl, rfl⟩ fun h => absurd h ?_) fun t₃ h₃ => ?_
    · exact hknown 2 (by decide) t₂ hrun₂
    have hrun₃ := run_append_eq_ok.mpr ⟨t₂, hrun₂, (run_singleton t₂ _).trans h₃⟩
    refine .cons (.record ⟨rfl, by decide, rfl, rfl⟩ fun h => absurd h ?_) fun _ _ => .refl ..
    exact hknown 3 (by decide) t₃ hrun₃
  rcases run_sameClass contending48k hruns 6 with ⟨f, hfault, _⟩ | ⟨r, s, hr, hs, hclock, _⟩
  · exact absurd hfault (ne_error_of_isOk (by decide +kernel))
  · exact ⟨r, s, hr, hs, hclock⟩

end Timer

end SpectrumTiming
