import SpectrumTiming.Proofs.ClassTables
import SpectrumTiming.Proofs.IndexBytes
import SpectrumTiming.Proofs.Suspension

/-!
# A timer that checks what it does

The definitions of the timer are total. A slot that is not there has an address all the same, a
division by zero has a result, a byte has a class that can stand where it stands because its type
has no other, and a walk ends because it is written as one pass over a list. Here is the timer once
more with nothing taken for granted. Every divisor and every index is checked where it is used; bytes
are looked up in tables that may hold any class anywhere, and the class of every byte and the number
of every script are checked as they are found; loops take their turns one by one from a budget, and
the clock is moved whenever something is charged. What is not in order ends all with a `Hazard`.

Each function is followed by the lemma that says what it comes to: what the total one does, and no
hazard. In the end the two timers do the same, and what stops the checked one is a fault of the other
(`Checked.run_eq`).
-/

namespace SpectrumTiming

open Capture

/-- What stops a timer that checks what it does. -/
inductive Hazard
  /-- The timer gives up of its own accord. -/
  | fault (f : Fault)
  /-- A byte is in a class that cannot stand where it stands. -/
  | strayClass
  /-- A table has no entry for a byte. -/
  | noClass
  | noScript
  | noAccess
  | noDelay
  | zeroDivisor
  /-- A loop has used up its turns. -/
  | endless
deriving DecidableEq

namespace Checked

/-- An item of a list, if it is there. -/
def item {α : Type} (hazard : Hazard) (xs : List α) (i : Nat) : Except Hazard α :=
  xs[i]?.elim (.error hazard) .ok

theorem item_eq {α : Type} {hazard : Hazard} {xs : List α} {i : Nat} {x : α} (h : xs[i]? = some x) :
    item hazard xs i = .ok x := by
  simp [item, h]

/-- Quotient and remainder. -/
def divide (n d : Nat) : Except Hazard (Nat × Nat) :=
  if d = 0 then .error .zeroDivisor else .ok (n / d, n % d)

theorem divide_eq (n : Nat) {d : Nat} (h : 0 < d) : divide n d = .ok (n / d, n % d) :=
  if_neg (Nat.ne_of_gt h)

/-! ## The clock -/

def beam? (u : Ula) (counter : Nat) : Except Hazard (Option (Nat × Nat)) :=
  if counter < u.start then .ok none else (divide (counter - u.start) u.line).map some

theorem beam?_eq (u : Ula) (counter : Nat) : beam? u counter = .ok (u.beam? counter) := by
  unfold beam? Ula.beam?
  rw [divide_eq _ u.line_pos]
  split <;> rfl

def delay (u : Ula) (counter : Nat) : Except Hazard Nat := do
  match ← beam? u counter with
  | none => return 0
  | some (line, column) =>
    if line < fetchedLines ∧ column < fetchedColumns then
      let (_, position) ← divide column 8
      item .noDelay u.pattern.toList position
    else return 0

theorem delay_eq (u : Ula) (counter : Nat) : delay u counter = .ok (u.delay counter) := by
  have hitem (column : Nat) :
      item .noDelay u.pattern.toList (column % 8) = .ok u.pattern[column % 8] :=
    item_eq (by simp)
  unfold delay Ula.delay
  rw [beam?_eq]
  cases u.beam? counter with
  | none => rfl
  | some beam =>
    simp only [bind, Except.bind, divide_eq _ (Nat.zero_lt_succ 7), hitem]
    split <;> rfl

def delayAt (u : Ula) (c : Clock) (addr : UInt16) : Except Hazard Nat :=
  if u.contended c.bank addr then delay u c.counter else .ok 0

theorem delayAt_eq (u : Ula) (c : Clock) (addr : UInt16) :
    delayAt u c addr = .ok (c.delayAt u addr) := by
  unfold delayAt Clock.delayAt
  rw [delay_eq]
  split <;> rfl

def advance (u : Ula) (c : Clock) (cycles : Nat) : Except Hazard Clock := do
  let (passed, counter) ← divide (c.counter + cycles) u.frame
  return { c with counter, elapsed := c.elapsed + cycles, frames := c.frames + passed }

theorem advance_eq (u : Ula) (c : Clock) (cycles : Nat) :
    advance u c cycles = .ok (c.advance u cycles) := by
  unfold advance
  rw [divide_eq _ u.frame_pos]
  rfl

def setCounter (u : Ula) (c : Clock) (tstate : Nat) : Except Hazard Clock := do
  let (_, counter) ← divide tstate u.frame
  return { c with counter }

theorem setCounter_eq (u : Ula) (c : Clock) (tstate : Nat) :
    setCounter u c tstate = .ok (c.setCounter u tstate) := by
  unfold setCounter
  rw [divide_eq _ u.frame_pos]
  rfl

/-! ## Charging -/

section Charging

variable {ι : Type} (u : Ula)

/-- Lets T-states pass and counts them as charged. -/
def spend (w : Walker ι) (cycles : Nat) : Except Hazard (Walker ι) := do
  return { capture := w.capture.consume cycles, clock := ← advance u w.clock cycles }

theorem spend_eq (w : Walker ι) (cycles : Nat) :
    spend u w cycles =
      .ok { capture := w.capture.consume cycles, clock := w.clock.advance u cycles } := by
  rw [spend, advance_eq]
  rfl

/-- The delay in front of a phase. -/
def hold (c : Clock) (p : Phase) : Except Hazard Nat :=
  if p.held then delay u c.counter else .ok 0

theorem hold_eq (c : Clock) (p : Phase) : hold u c p = .ok (if p.held then c.delay u else 0) := by
  unfold hold
  rw [delay_eq]
  split <;> rfl

/-- First the delay and then the T-states of a phase. -/
def passPhase (w : Walker ι) (p : Phase) : Except Hazard (Walker ι) := do
  let wait ← hold u w.clock p
  spend u { w with clock := ← advance u w.clock wait } p.cycles

theorem passPhase_eq (w : Walker ι) (p : Phase) :
    passPhase u w p =
      .ok { capture := w.capture.consume p.cycles, clock := w.clock.passPhase u p } := by
  unfold passPhase
  rw [hold_eq]
  simp only [bind, Except.bind, advance_eq, spend_eq, Clock.advance_advance]
  rfl

def passPhases (w : Walker ι) (ps : List Phase) : Except Hazard (Walker ι) :=
  ps.foldlM (passPhase u) w

theorem passPhases_eq (w : Walker ι) (ps : List Phase) :
    passPhases u w ps =
      .ok { capture := w.capture.consume (Phase.total ps)
            clock := ps.foldl (Clock.passPhase u) w.clock } := by
  induction ps generalizing w with
  | nil =>
    rw [Phase.total, consume_zero]
    rfl
  | cons p ps ih =>
    rw [passPhases, List.foldlM_cons, passPhase_eq]
    refine (ih _).trans ?_
    simp only [consume_consume, Phase.total, List.foldl_cons]

def pay (w : Walker ι) (x : Cost) : Except Hazard (Walker ι) :=
  passPhases u w (u.phases w.clock.bank x)

theorem pay_eq (w : Walker ι) (x : Cost) :
    pay u w x = .ok { capture := w.capture.consume x.cycles, clock := w.clock.pay u x } := by
  rw [pay, passPhases_eq, u.total_phases]
  rfl

def payAll (w : Walker ι) (xs : List Cost) : Except Hazard (Walker ι) := xs.foldlM (pay u) w

theorem payAll_eq (w : Walker ι) (xs : List Cost) :
    payAll u w xs =
      .ok { capture := w.capture.consume (Cost.total xs), clock := w.clock.payAll u xs } := by
  induction xs generalizing w with
  | nil =>
    rw [Cost.total, consume_zero]
    rfl
  | cons x xs ih =>
    rw [payAll, List.foldlM_cons, pay_eq]
    refine (ih _).trans ?_
    simp only [consume_consume, Cost.total, Clock.payAll, List.foldl_cons]

end Charging

end Checked

/-! ## Walking the script -/

namespace Capture

variable {ι : Type}

/-- Elements that wait for no access mark none. -/
theorem mark_of_slotless (c : Capture ι) {es : List Element} (h : ∀ e ∈ es, e.slot? = none) :
    c.mark es = c := by
  have hany (i : Nat) : es.any (·.slot? = some i) = false := by
    rw [List.any_eq_false]
    intro e he
    simp [h e he]
  have hlog : (c.mark es).log = c.log := by
    apply List.ext_getElem?
    intro i
    simp [mark_log_getElem?, hany]
  show ({ c with log := (c.mark es).log } : Capture ι) = c
  rw [hlog]

/-- Where nothing is ready, a walk does nothing. -/
theorem walk_of_ready_nil {c : Capture ι} {s : Script} (h : c.ready s = []) :
    c.walk s = (c, []) := by
  simp [walk, h, mark_of_slotless, consume, Cost.total]

/-- Charges one element. -/
def chargeElement (c : Capture ι) (e : Element) : Capture ι :=
  { (c.mark [e]).consume (Cost.total (c.costs e)) with cursor := c.cursor + 1 }

theorem take?_eq_some {c : Capture ι} {e : Element} {slot : Nat} (hslot : e.slot? = some slot)
    (h : slot < c.log.length) :
    ∃ a, c.take? slot = some (a, c.mark [e]) ∧ a.addr = c.addr slot := by
  refine ⟨c.log[slot].charge, ?_, ?_⟩
  · have hmark : c.mark [e] = { c with log := c.log.modify slot Access.charge } := by
      have hlog : (c.mark [e]).log = c.log.modify slot Access.charge := by
        apply List.ext_getElem?
        intro i
        rw [mark_log_getElem?, List.getElem?_modify]
        by_cases hi : slot = i <;> simp [hslot, hi]
      show ({ c with log := (c.mark [e]).log } : Capture ι) = _
      rw [hlog]
    simp [take?, hmark, List.getElem?_eq_getElem h]
  · simp [addr, Access.charge, List.getElem?_eq_getElem h]

theorem ready_of_unlocks {c : Capture ι} {s : Script} {e : Element}
    (he : s.elements[c.cursor]? = some e) (h : c.unlocks e = true) :
    c.ready s = e :: (c.chargeElement e).ready s := by
  have hdrop : s.elements.drop c.cursor = e :: s.elements.drop (c.cursor + 1) := by
    rw [List.drop_eq_getElem?_toList_append, he]
    rfl
  have hsame : (c.chargeElement e).unlocks = c.unlocks :=
    unlocks_congr (by simp [chargeElement, consume]) rfl
  unfold ready
  rw [hdrop, List.takeWhile_cons_of_pos h, hsame]
  rfl

theorem costs_chargeElement (c : Capture ι) (e : Element) : (c.chargeElement e).costs = c.costs := by
  funext f
  refine costs_congr (fun slot _ => ?_) rfl
  have hlog : (c.chargeElement e).log = (c.mark [e]).log := rfl
  rw [addr_eq, addr_eq, hlog, map_addr_mark]

theorem mark_chargeElement {c : Capture ι} {e : Element} (h : c.unlocks e = true)
    (es : List Element) : (c.mark (e :: es)).log = ((c.chargeElement e).mark es).log := by
  have hlogged : ∀ f ∈ [e], ∀ slot, f.slot? = some slot → slot < c.log.length := by
    intro f hf slot hs
    rw [List.mem_singleton.mp hf] at hs
    exact slot_lt_of_unlocks h hs
  have htwice : (c.mark ([e] ++ es)).log = ((c.mark [e]).mark es).log := by
    simpa using mark_learn {} hlogged
  exact htwice

/-- **One element at a time**: a walk charges the element at the cursor and goes on behind it. -/
theorem walk_of_unlocks {c : Capture ι} {s : Script} {e : Element}
    (he : s.elements[c.cursor]? = some e) (h : c.unlocks e = true) :
    c.walk s =
      (((c.chargeElement e).walk s).1, c.costs e ++ ((c.chargeElement e).walk s).2) := by
  have hready := ready_of_unlocks he h
  have hpaid : (c.ready s).flatMap c.costs =
      c.costs e ++ ((c.chargeElement e).ready s).flatMap (c.chargeElement e).costs := by
    rw [hready, costs_chargeElement, List.flatMap_cons]
  have hlog : (c.mark (c.ready s)).log =
      ((c.chargeElement e).mark ((c.chargeElement e).ready s)).log := by
    rw [hready]
    exact mark_chargeElement h _
  have hsum : c.consumed + UInt32.ofNat (Cost.total ((c.ready s).flatMap c.costs)) =
      (c.chargeElement e).consumed + UInt32.ofNat
        (Cost.total (((c.chargeElement e).ready s).flatMap (c.chargeElement e).costs)) := by
    rw [hpaid, Cost.total_append, sum_add]
    rfl
  have hcursor : c.cursor + (c.ready s).length =
      (c.chargeElement e).cursor + ((c.chargeElement e).ready s).length := by
    rw [hready, List.length_cons, Nat.add_comm _ 1, ← Nat.add_assoc]
    rfl
  refine Prod.ext ?_ hpaid
  show ({ (c.mark (c.ready s)).consume _ with
    cursor := c.cursor + (c.ready s).length } : Capture ι) = _
  simp only [consume, mark] at hlog hsum hcursor ⊢
  rw [hsum, hcursor, hlog]
  rfl

end Capture

namespace Checked

section Walking

variable {ι : Type} (u : Ula)

/-- Marks the access in a slot, which has to be there, and gives it back. -/
def take (w : Walker ι) (slot : Nat) : Except Hazard (Access × Walker ι) :=
  (w.capture.take? slot).elim (.error .noAccess) fun (a, capture) => .ok (a, { w with capture })

/-- Charges an element. -/
def charge (w : Walker ι) (e : Element) : Except Hazard (Walker ι) :=
  match e.source with
  | .memory slot => do
    let (a, w) ← take w slot
    payAll u w (List.replicate e.repeats (.memory a.addr e.cycles))
  | .port slot => do
    let (a, w) ← take w slot
    payAll u w [.port a.addr]
  | .pair p => payAll u w (List.replicate e.repeats (.memory (w.capture.pair p) e.cycles))
  | .idle => payAll u w (List.replicate e.repeats (.idle e.cycles))

theorem charge_eq {w : Walker ι} {e : Element} (h : w.capture.unlocks e = true) :
    charge u w e =
      .ok { capture := (w.capture.mark [e]).consume (Cost.total (w.capture.costs e))
            clock := w.clock.payAll u (w.capture.costs e) } := by
  have hslot (slot : Nat) (hs : e.slot? = some slot) :
      ∃ a, take w slot = .ok (a, { w with capture := w.capture.mark [e] }) ∧
        a.addr = w.capture.addr slot := by
    obtain ⟨a, htake, haddr⟩ := take?_eq_some hs (slot_lt_of_unlocks h hs)
    exact ⟨a, by simp [take, htake], haddr⟩
  have hfree (hs : e.slot? = none) : w.capture.mark [e] = w.capture :=
    w.capture.mark_of_slotless (by simp [hs])
  cases hsource : e.source with
  | memory slot =>
    obtain ⟨a, htake, haddr⟩ := hslot slot (by simp [Element.slot?, hsource])
    simp only [charge, costs, hsource, htake, bind, Except.bind, payAll_eq, haddr]
  | port slot =>
    obtain ⟨a, htake, haddr⟩ := hslot slot (by simp [Element.slot?, hsource])
    simp only [charge, costs, hsource, htake, bind, Except.bind, payAll_eq, haddr]
  | pair p =>
    rw [hfree (by simp [Element.slot?, hsource])]
    simp only [charge, costs, hsource, payAll_eq]
  | idle =>
    rw [hfree (by simp [Element.slot?, hsource])]
    simp only [charge, costs, hsource, payAll_eq]

/-- Walks a script: one turn for each element, and one to see that no more can be charged. -/
def walk (s : Script) : Nat → Walker ι → Except Hazard (Walker ι)
  | 0, _ => .error .endless
  | turns + 1, w =>
    match s.elements[w.capture.cursor]? with
    | none => .ok w
    | some e =>
      if w.capture.unlocks e then do
        let w ← charge u w e
        walk s turns { w with capture := { w.capture with cursor := w.capture.cursor + 1 } }
      else .ok w

/-- As many turns as there are elements from the cursor on, and one more, are enough. -/
theorem walk_eq {s : Script} {turns : Nat} {w : Walker ι} (h : s.size - w.capture.cursor < turns) :
    walk u s turns w = .ok (w.walk u s) := by
  have hstop (w : Walker ι) (hready : w.capture.ready s = []) : w.walk u s = w := by
    rw [Walker.walk, walk_of_ready_nil hready]
    rfl
  induction turns generalizing w with
  | zero => exact absurd h (Nat.not_lt_zero _)
  | succ turns ih =>
    rw [walk]
    cases he : s.elements[w.capture.cursor]? with
    | none =>
      have hend : s.elements.drop w.capture.cursor = [] :=
        List.drop_eq_nil_of_le (List.getElem?_eq_none_iff.mp he)
      exact congrArg Except.ok (hstop w (by rw [ready, hend]; rfl)).symm
    | some e =>
      obtain ⟨hcursor, -⟩ := List.getElem?_eq_some_iff.mp he
      cases hunlocks : w.capture.unlocks e with
      | false =>
        have hlocked : w.capture.ready s = [] := by
          rw [ready, List.drop_eq_getElem?_toList_append, he]
          exact List.takeWhile_cons_of_neg (by simp [hunlocks])
        simp only [hunlocks, Bool.false_eq_true, if_false]
        rw [hstop w hlocked]
      | true =>
        have hfewer : s.size - (w.capture.cursor + 1) < turns := by
          unfold Script.size at h ⊢
          omega
        have hnext : walk u s turns
            { capture := w.capture.chargeElement e
              clock := w.clock.payAll u (w.capture.costs e) } = _ := ih hfewer
        simp only [hunlocks, if_true, charge_eq u hunlocks, bind, Except.bind]
        refine hnext.trans ?_
        simp only [Walker.walk, walk_of_unlocks he hunlocks, Clock.payAll_append]

end Walking

/-! ## Finding the script -/

/-- The class of a byte in a table. -/
def classIn (table : List ByteClass) (b : UInt8) : Except Hazard ByteClass :=
  item .noClass table b.toNat

/-- The finding that a number is that of a script. -/
def found (number : Nat) (taken : Bool) : Except Hazard Opcode.Finding :=
  if h : number < scriptTotal then .ok (.script ⟨number, h⟩ taken) else .error .noScript

theorem found_eq (id : ScriptNumber) (taken : Bool) : found id taken = .ok (.script id taken) :=
  dif_pos id.isLt

/-- What the class of the byte that decides behind a prefix says. -/
def conclude : ByteClass → Except Hazard Opcode.Finding
  | .script number => found number false
  | .undocumented => found 1 false
  | .standard | .plain => .ok .collapse
  | .bit | .extended | .index | .indexedBit => .error .strayClass

/-- Concludes from the class of a byte, once it has been logged. -/
def concludeAt (log : List Access) (i : Nat) (table : List ByteClass) :
    Except Hazard Opcode.Finding :=
  match log[i]? with
  | none => .ok .pending
  | some a => do conclude (← classIn table a.value)

/-- What the logged bytes say of the instruction. -/
def dispatch (log : List Access) : Except Hazard Opcode.Finding :=
  match log with
  | [] => .ok .pending
  | first :: _ => do
    match ← classIn ByteClass.primaryTable first.value with
    | .script number => found number (Opcode.alwaysTaken first.value)
    | .bit => concludeAt log 1 ByteClass.bitTable
    | .extended => concludeAt log 1 ByteClass.extendedTable
    | .index =>
      match log[1]? with
      | none => .ok .pending
      | some second =>
        match ← classIn ByteClass.indexedTable second.value with
        | .indexedBit => concludeAt log 3 ByteClass.indexedBitTable
        | c => conclude c
    | _ => .error .strayClass

/-- **No byte is ever out of place**, and every number is that of a script. -/
theorem dispatch_eq (log : List Access) : dispatch log = .ok (recognize log) := by
  have hclass {table : List ByteClass} {b : UInt8} {c : ByteClass}
      (h : table[b.toNat]? = some c) : classIn table b = .ok c := item_eq h
  cases log with
  | nil => rfl
  | cons first log =>
    simp only [dispatch, hclass (ByteClass.primaryTable_eq first.value), recognize, List.map_cons,
      Opcode.recognize]
    cases Opcode.primary first.value with
    | script id => exact found_eq id _
    | cb =>
      cases log with
      | nil => rfl
      | cons second log =>
        have hbit : classIn ByteClass.bitTable second.value = _ :=
          hclass (ByteClass.bitTable_eq second.value)
        simp only [bind, Except.bind, ByteClass.ofPrimary, concludeAt, List.getElem?_cons_succ,
          List.getElem?_cons_zero, hbit]
        exact found_eq _ _
    | ed =>
      cases log with
      | nil => rfl
      | cons second log =>
        simp only [bind, Except.bind, ByteClass.ofPrimary, concludeAt, List.getElem?_cons_succ,
          List.getElem?_cons_zero, hclass (ByteClass.extendedTable_eq second.value), List.map_cons,
          Opcode.recognizeExtended]
        cases Opcode.extended second.value with
        | script id => exact found_eq id _
        | undocumented => rfl
    | index =>
      cases log with
      | nil => rfl
      | cons second log =>
        simp only [bind, Except.bind, ByteClass.ofPrimary, List.getElem?_cons_succ,
          List.getElem?_cons_zero, hclass (ByteClass.indexedTable_eq second.value), List.map_cons,
          Opcode.recognizeIndexed]
        cases Opcode.indexed second.value with
        | script id => exact found_eq id _
        | standard => rfl
        | undocumented => rfl
        | bit =>
          -- the displacement and the opcode behind it have to be there
          cases log with
          | nil => rfl
          | cons displacement log =>
            cases log with
            | nil => rfl
            | cons fourth log =>
              have hfourth : classIn ByteClass.indexedBitTable fourth.value = _ :=
                hclass (ByteClass.indexedBitTable_eq fourth.value)
              simp only [ByteClass.ofIndexed, concludeAt, List.getElem?_cons_succ,
                List.getElem?_cons_zero, hfourth]
              exact found_eq _ _

end Checked

/-- An index byte that collapses is paid for, and the script is looked for behind it. -/
theorem Capture.resolve_of_collapse {c : Capture ScriptNumber} (hs : c.script? = none) {a : Access}
    {rest : List Access} (hlog : c.log = a :: rest) (h : recognize (a :: rest) = .collapse) :
    c.resolve =
      ((({ c with log := rest } : Capture ScriptNumber).consume indexCycles).resolve.1,
        .memory a.addr indexCycles ::
          (({ c with log := rest } : Capture ScriptNumber).consume indexCycles).resolve.2) := by
  rw [resolve_of_none hs,
    resolve_of_none (c := ({ c with log := rest } : Capture ScriptNumber).consume indexCycles) hs]
  simp only [collapse, consume, hlog, splitCollapsing_of_collapse h, List.length_cons, List.map_cons,
    Nat.mul_succ, sum_add, sum_right_comm _ indexCycles]

namespace Checked

variable (u : Ula)

/-- Looks for the script: a turn for each index byte that collapses, one to find the script and one
to see that it is found. -/
def resolve : Nat → Walker ScriptNumber → Except Hazard (Walker ScriptNumber)
  | 0, _ => .error .endless
  | turns + 1, w =>
    match w.capture.script? with
    | some _ => .ok w
    | none => do
      match ← dispatch w.capture.log with
      | .pending => return w
      | .script id taken =>
        let capture := { w.capture with script? := some id, taken := w.capture.taken || taken }
        resolve turns { w with capture }
      | .collapse =>
        match w.capture.dropFirst? with
        | none => .error .noAccess
        | some (a, capture) =>
          let w ← pay u { w with capture } (.memory a.addr indexCycles)
          resolve turns w

theorem resolve_of_known {w : Walker ScriptNumber} {id : ScriptNumber}
    (hs : w.capture.script? = some id) {turns : Nat} (h : 0 < turns) :
    resolve u turns w = .ok w := by
  cases turns with
  | zero => exact absurd h (Nat.lt_irrefl 0)
  | succ turns => rw [resolve, hs]

/-- As many turns as there are accesses in the log, and two more, are enough. -/
theorem resolve_eq {turns : Nat} {w : Walker ScriptNumber}
    (h : w.capture.log.length + 2 ≤ turns) :
    resolve u turns w =
      .ok { capture := w.capture.resolve.1, clock := w.clock.payAll u w.capture.resolve.2 } := by
  induction turns generalizing w with
  | zero => simp at h
  | succ turns ih =>
    cases hs : w.capture.script? with
    | some id =>
      rw [resolve_of_known u hs (Nat.succ_pos turns), resolve_of_some hs]
      rfl
    | none =>
      rw [resolve, hs, dispatch_eq]
      cases hr : recognize w.capture.log with
      | pending =>
        rw [resolve_of_none hs, collapse_of_ne (by simp [hr]), assign_of_pending hr]
        rfl
      | script id taken =>
        have hturn : 0 < turns := by omega
        refine Eq.trans (resolve_of_known u rfl hturn) ?_
        rw [resolve_of_none hs, collapse_of_ne (by simp [hr]), assign_of_script hr]
        rfl
      | collapse =>
        cases hlog : w.capture.log with
        | nil => simp [hlog, recognize, Opcode.recognize] at hr
        | cons a rest =>
          rw [hlog] at hr h
          have hfewer : rest.length + 2 ≤ turns := by
            simp only [List.length_cons] at h
            omega
          have hnext : resolve u turns
              { capture := ({ w.capture with log := rest } : Capture ScriptNumber).consume indexCycles
                clock := w.clock.pay u (.memory a.addr indexCycles) } = _ := ih hfewer
          simp only [bind, Except.bind, dropFirst?, hlog, pay_eq]
          refine hnext.trans ?_
          rw [resolve_of_collapse hs hlog hr]
          rfl

/-- Finds the script and walks it. -/
def settle (w : Walker ScriptNumber) : Except Hazard (Walker ScriptNumber) := do
  let w ← resolve u (w.capture.log.length + 2) w
  match w.capture.script? with
  | none => return w
  | some id =>
    let s := Standard.script u.variant id
    walk u s (s.size + 1) w

theorem settle_eq (w : Walker ScriptNumber) :
    settle u w =
      .ok { capture := (Capture.settle u.variant w.capture).1
            clock := w.clock.payAll u (Capture.settle u.variant w.capture).2 } := by
  rw [settle, resolve_eq u (Nat.le_refl _)]
  simp only [bind, Except.bind]
  cases hs : w.capture.resolve.1.script? with
  | none =>
    rw [settle_of_none u.variant hs]
    rfl
  | some id =>
    rw [settle_of_some u.variant hs, Clock.payAll_append]
    exact walk_eq u (Nat.lt_succ_of_le (Nat.sub_le _ _))

end Checked

namespace Timer

/-- The capture and the clock of a timer. -/
def walker (t : Timer) : Walker ScriptNumber := ⟨t.capture, t.clock⟩

def withWalker (t : Timer) (w : Walker ScriptNumber) : Timer :=
  { t with capture := w.capture, clock := w.clock }

end Timer

namespace Checked

/-- Does what the executor asks for. -/
def step (t : Timer) : Timer.Op → Except Hazard Timer
  | .begin bc ir => .ok (t.begin bc ir)
  | .finish =>
    if !t.capture.active then .ok t
    else if t.reconciles then .ok { t with capture := { t.capture with active := false } }
    else .error (.fault .unreconciled)
  | .elapse kind cycles =>
    match kind, t.capture.active with
    | .documented, true => .ok { t with capture := t.capture.predict cycles }
    | .base, true => (spend t.ula t.walker cycles).map t.withWalker
    | _, _ => (advance t.ula t.clock cycles).map fun clock => { t with clock }
  | .record a =>
    if !t.capture.active then .ok t
    else if t.capture.isFull then .error (.fault .logFull)
    else (settle t.ula { t.walker with capture := t.capture.push a }).map t.withWalker
  | .confirm =>
    let t := { t with capture := { t.capture with taken := true } }
    if t.capture.active then (settle t.ula t.walker).map t.withWalker else .ok t
  | .advance cycles => (advance t.ula t.clock cycles).map fun clock => { t with clock }
  | .setCounter tstate => (setCounter t.ula t.clock tstate).map fun clock => { t with clock }
  | .setBank bank => .ok { t with clock := t.clock.setBank bank }
  | .reset => .ok { t with clock := {} }

/-- Does all that the executor asks for, up to the first hazard. -/
def run (t : Timer) (ops : List Timer.Op) : Except Hazard Timer := ops.foldlM step t

/-- **Only a fault stops an operation.** -/
theorem step_eq (t : Timer) (op : Timer.Op) : step t op = (t.step op).mapError .fault := by
  cases op with
  | begin bc ir => rfl
  | finish =>
    simp only [step, Timer.step, Timer.finish]
    split
    · rfl
    · split <;> rfl
  | elapse kind cycles =>
    cases hactive : t.capture.active <;> cases kind <;>
      simp only [step, Timer.step, Timer.elapse, hactive, advance_eq, spend_eq] <;> rfl
  | record a =>
    simp only [step, Timer.step, Timer.record, settle_eq]
    split
    · rfl
    · split <;> rfl
  | confirm =>
    simp only [step, Timer.step, Timer.confirm, settle_eq]
    split <;> rfl
  | advance cycles => rw [step, advance_eq]; rfl
  | setCounter tstate => rw [step, setCounter_eq]; rfl
  | setBank bank => rfl
  | reset => rfl

/-- **Only a fault stops a run.** -/
theorem run_eq (t : Timer) (ops : List Timer.Op) : run t ops = (t.run ops).mapError .fault := by
  induction ops generalizing t with
  | nil => rfl
  | cons op ops ih =>
    rw [run, List.foldlM_cons, step_eq, Timer.run_cons]
    cases t.step op with
    | error f => rfl
    | ok after => exact ih after

end Checked

end SpectrumTiming
