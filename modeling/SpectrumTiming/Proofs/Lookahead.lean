import SpectrumTiming.Proofs.Scanner
import SpectrumTiming.Proofs.WellFormed

/-!
# Scanning is reading

The scanner with lookahead reads every text as the reader does (`scan_eq_read`). Where nothing that
the reader has read waits for the character behind it, the reader is a scanner (`Reader.scanner`): its
stage tells the state and the element in progress. From one such place to the next the reader takes
one step or two (`Reader.turn`), and the scanner takes one (`step_scanner`).

This carries over what is known of the scanner: that there is an element in progress wherever one is
needed, so no digit of a count, no factor and no element is ever lost.
-/

namespace SpectrumTiming.Script

/-! ## The reader as a scanner -/

open Scanner (State Halt scanFrom)

namespace Stage

def state : Stage → State
  | .gap | .half _ => .awaitingSource
  | .source _ => .sourceSeen
  | .colon _ | .halfPort _ => .awaitingCount
  | .digit _ _ | .count _ _ => .countSeen
  | .times _ _ => .awaitingFactor
  | .factor _ _ _ => .factorSeen

/-- The element that is in progress, with what is not yet known of it left open. -/
def pending? (optional : Bool) : Stage → Option Element
  | .gap | .half _ => none
  | .source s | .colon s | .halfPort s => some ⟨s, 0, 1, optional⟩
  | .digit s n | .count s n | .times s n => some ⟨s, n, 1, optional⟩
  | .factor s n k => some ⟨s, n, k, optional⟩

/-- Nothing that was read has to be judged together with the next character. -/
def settled (next? : Option Char) : Stage → Bool
  | .half _ | .halfPort _ => false
  | .digit _ _ => (next?.bind digit?).isNone
  | _ => true

end Stage

namespace Reader

def scanner (r : Reader) : Scanner where
  pos := r.pos
  script := r.script
  state := r.stage.state
  optional := r.optional
  pending? := r.stage.pending? r.optional

/-- Reads a character, and the next one too if they have to be judged together. -/
def turn (r : Reader) (c : Char) (next? : Option Char) : Except Error Reader := do
  let r ← r.step c
  if r.stage.settled next? then .ok r else next?.elim r.close r.step

/-- Where the second letter of a pair is missing, the first one is refused. -/
theorem step_half {r : Reader} {p : Pair} (hstage : r.stage = .half p) {d : Char}
    (hd : d ≠ p.letters.2) : r.step d = .error (.unexpected p.letters.1 (r.pos - 1)) := by
  have hspace : ' ' ≠ p.letters.2 := by cases p <;> decide
  unfold step
  split
  · simp only [space, extend, hstage, if_neg hspace]
  · simp only [close, hstage]
    rfl
  · simp only [close, hstage]
    rfl
  · simp only [extend, hstage, if_neg hd]

theorem step_halfPort {r : Reader} {s : Source} (hstage : r.stage = .halfPort s) {d : Char}
    (hd : d ≠ 'O') : r.step d = .error (.unexpected 'I' (r.pos - 1)) := by
  unfold step
  split
  · simp only [space, extend, hstage]
    rfl
  · simp only [close, hstage]
    rfl
  · simp only [close, hstage]
    rfl
  · simp only [extend, hstage, if_neg hd]

theorem turn_of_error {r : Reader} {c : Char} {e : Error} (h : r.step c = .error e)
    (next? : Option Char) : r.turn c next? = .error e := by
  rw [turn, h]
  rfl

theorem turn_of_ok {r r' : Reader} {c : Char} (h : r.step c = .ok r') (next? : Option Char) :
    r.turn c next? = if r'.stage.settled next? then .ok r' else next?.elim r'.close r'.step := by
  rw [turn, h]
  rfl

theorem turn_of_settled {r r' : Reader} {c : Char} {next? : Option Char} (h : r.step c = .ok r')
    (hsettled : r'.stage.settled next? = true) : r.turn c next? = .ok r' := by
  rw [turn_of_ok h, if_pos hsettled]

variable {strict : Bool} {r : Reader} {c : Char} {next? : Option Char}

theorem close_scanner (h : r.stage.settled next? = true) :
    r.scanner.close strict = (r.close.map scanner).mapError .refused := by
  rcases r with ⟨pos, script, stage, optional⟩
  cases stage with
  | half p => cases h
  | halfPort s => cases h
  | _ => rfl

theorem step_scanner_of_separator (hc : c = ' ' ∨ c = ',' ∨ c = ']')
    (h : r.stage.settled (some c) = true) :
    r.scanner.step strict c next? = ((r.turn c next?).map scanner).mapError .refused := by
  rcases r with ⟨pos, script, stage, optional⟩
  cases stage with
  | half p => cases h
  | halfPort s => cases h
  | _ => rcases hc with rfl | rfl | rfl <;> rfl

/-- The beginning of an element, behind one character or behind two. -/
theorem start_scanner (r r' : Reader) {n : Nat} (hpos : r'.pos + 1 = r.pos + n)
    (hscript : r'.script = r.script) (hoptional : r'.optional = r.optional) (s : Source) :
    (r.scanner.start s).map (.skip n) = ((r'.start s).map scanner).mapError .refused := by
  unfold Scanner.start start
  rw [hscript]
  by_cases hroom : r.script.size < elementLimit
  · have hsize : r.scanner.script.size < elementLimit := hroom
    rw [if_pos hsize, if_pos hroom]
    simp only [Except.map, Except.mapError, scanner, next, Scanner.skip, hpos, hscript, hoptional]
    rfl
  · have hsize : ¬ r.scanner.script.size < elementLimit := hroom
    rw [if_neg hsize, if_neg hroom]
    rfl

theorem start_settled {s : Source} {r' : Reader} (h : r.start s = .ok r') :
    r'.stage.settled next? = true := by
  unfold start at h
  split at h
  · cases h
    rfl
  · cases h

theorem turn_of_start {s : Source} (h : r.step c = r.start s) :
    r.turn c next? = r.start s := by
  cases hstart : r.start s with
  | error e => exact turn_of_error (h.trans hstart) next?
  | ok r' => exact turn_of_settled (h.trans hstart) (start_settled hstart)

theorem turn_of_half {p : Pair} (h : r.step c = .ok (r.next (.half p))) :
    r.turn c next? =
      if next? = some p.letters.2 then (r.next (.half p)).start (.pair p)
      else .error (.unexpected p.letters.1 r.pos) := by
  rw [turn_of_ok h]
  cases next? with
  | none => rfl
  | some d =>
    by_cases hd : d = p.letters.2
    · subst hd
      rw [if_pos rfl]
      cases p <;> rfl
    · have hne : ¬ some d = some p.letters.2 := fun heq => hd (Option.some.inj heq)
      rw [if_neg hne]
      exact step_half rfl hd

theorem turn_of_halfPort {s : Source} (h : r.step c = .ok (r.next (.halfPort s))) :
    r.turn c next? =
      if next? = some 'O' then (r.next (.halfPort s)).step 'O'
      else .error (.unexpected 'I' r.pos) := by
  rw [turn_of_ok h]
  cases next? with
  | none => rfl
  | some d =>
    by_cases hd : d = 'O'
    · subst hd
      rw [if_pos rfl]
      rfl
    · have hne : ¬ some d = some 'O' := fun heq => hd (Option.some.inj heq)
      rw [if_neg hne]
      exact step_halfPort rfl hd

/-- A second digit that touches the first belongs to the same count. -/
theorem turn_of_digit {s : Source} {n : Nat} (h : r.step c = .ok (r.next (.digit s n))) :
    r.turn c next? =
      match next?.bind digit? with
      | some d => .ok ((r.next (.digit s n)).next (.count s (10 * n + d)))
      | none => .ok (r.next (.digit s n)) := by
  cases hnext : next?.bind digit? with
  | none => exact turn_of_settled h (Option.isNone_iff_eq_none.mpr hnext)
  | some d =>
    have hwaits : (r.next (.digit s n)).stage.settled next? = false := by
      show (next?.bind digit?).isNone = false
      rw [hnext]
      rfl
    obtain ⟨c', rfl, hd⟩ := Option.bind_eq_some_iff.mp hnext
    obtain ⟨d, rfl, rfl⟩ := digit?_eq_some_iff.mp hd
    rw [turn_of_ok h, hwaits]
    exact Grammar.step_digit _ d

theorem step_scanner_half (hgap : r.stage = .gap) (p : Pair) :
    r.scanner.step strict p.letters.1 next? =
      ((r.turn p.letters.1 next?).map scanner).mapError .refused := by
  have hstate : r.scanner.state = .awaitingSource := congrArg Stage.state hgap
  have hhalf : r.step p.letters.1 = .ok (r.next (.half p)) := by
    cases p <;> simp [Pair.letters, step, extend, hgap]
  rw [turn_of_half hhalf]
  by_cases hnext : next? = some p.letters.2
  · have hstart : r.scanner.step strict p.letters.1 next? =
        (r.scanner.start (.pair p)).map (.skip 2) := by
      cases p <;> simp_all [Scanner.step, Scanner.extend, Pair.letters]
    rw [hstart, if_pos hnext]
    exact start_scanner r (r.next (.half p)) rfl rfl rfl _
  · have hrefuse : r.scanner.step strict p.letters.1 next? = r.scanner.refuse p.letters.1 := by
      cases p <;> simp_all [Scanner.step, Scanner.extend, Pair.letters, digit?]
    rw [hrefuse, if_neg hnext]
    rfl

theorem step_scanner_gap (hgap : r.stage = .gap) (hspace : c ≠ ' ') (hcomma : c ≠ ',')
    (hclosing : c ≠ ']') :
    r.scanner.step strict c next? = ((r.turn c next?).map scanner).mapError .refused := by
  have hstate : r.scanner.state = .awaitingSource := congrArg Stage.state hgap
  by_cases hi : c = 'i'
  · subst hi
    exact step_scanner_half hgap .ir
  by_cases hb : c = 'b'
  · subst hb
    exact step_scanner_half hgap .bc
  by_cases hopening : c = '['
  · subst hopening
    rcases r with ⟨pos, script, stage, optional⟩
    cases hgap
    rfl
  by_cases hidle : c = 'N'
  · subst hidle
    have hstart : r.step 'N' = r.start .idle := by simp [step, extend, hgap]
    have hscan : r.scanner.step strict 'N' next? = (r.scanner.start .idle).map (.skip 1) := by
      simp [Scanner.step, Scanner.extend, hstate]
    rw [turn_of_start hstart, hscan]
    exact start_scanner r r rfl rfl rfl _
  have hstep : r.step c = (digit? c).elim (r.refuse c) fun d => r.start (.memory d) := by
    rw [r.step_of_ne hspace hcomma hclosing]
    unfold extend
    rw [hgap]
    dsimp only
    split <;> first | rfl | contradiction
  have hscan : r.scanner.step strict c next? =
      (digit? c).elim (r.scanner.refuse c)
        fun d => (r.scanner.start (.memory d)).map (.skip 1) := by
    rw [r.scanner.step_of_ne strict next? hspace hcomma hclosing]
    simp only [Scanner.extend, hstate, hi, hb, hopening, hidle, false_and, if_false]
  rw [hscan]
  cases hd : digit? c with
  | none =>
    rw [hd] at hstep
    rw [turn_of_error hstep]
    rfl
  | some d =>
    rw [hd] at hstep
    rw [turn_of_start hstep]
    exact start_scanner r r rfl rfl rfl _

/-- A character that neither of the two has a use for. -/
theorem step_scanner_refuse (hstep : r.step c = r.refuse c)
    (hscan : r.scanner.step strict c next? = r.scanner.refuse c) :
    r.scanner.step strict c next? = ((r.turn c next?).map scanner).mapError .refused := by
  rw [hscan, turn_of_error hstep]
  rfl

theorem step_scanner_next (stage : Stage) (hstep : r.step c = .ok (r.next stage))
    (hsettled : stage.settled next? = true)
    (hscan : r.scanner.step strict c next? = .ok (r.next stage).scanner) :
    r.scanner.step strict c next? = ((r.turn c next?).map scanner).mapError .refused := by
  rw [hscan, turn_of_settled hstep hsettled]
  rfl

theorem step_scanner_port {s : Source} (hcolon : r.stage = .colon s) :
    r.scanner.step strict 'I' next? = ((r.turn 'I' next?).map scanner).mapError .refused := by
  have hstate : r.scanner.state = .awaitingCount := congrArg Stage.state hcolon
  have hhalf : r.step 'I' = .ok (r.next (.halfPort s)) := by simp [step, extend, hcolon]
  rw [turn_of_halfPort hhalf]
  by_cases hnext : next? = some 'O'
  · have hport : r.scanner.step strict 'I' next? = r.scanner.makePort.map (.skip 2) := by
      simp [Scanner.step, Scanner.extend, hstate, hnext]
    rw [hport, if_pos hnext]
    rcases r with ⟨pos, script, stage, optional⟩
    cases hcolon
    cases s <;> rfl
  · have hrefuse : r.scanner.step strict 'I' next? = r.scanner.refuse 'I' := by
      simp [Scanner.step, Scanner.extend, hstate, hnext, digit?]
    rw [hrefuse, if_neg hnext]
    rfl

theorem step_scanner_colon {s : Source} (hcolon : r.stage = .colon s) (hspace : c ≠ ' ')
    (hcomma : c ≠ ',') (hclosing : c ≠ ']') :
    r.scanner.step strict c next? = ((r.turn c next?).map scanner).mapError .refused := by
  have hstate : r.scanner.state = .awaitingCount := congrArg Stage.state hcolon
  by_cases hI : c = 'I'
  · subst hI
    exact step_scanner_port hcolon
  have hstep : r.step c = (digit? c).elim (r.refuse c) fun d => .ok (r.next (.digit s d)) := by
    rw [r.step_of_ne hspace hcomma hclosing]
    simp only [extend, hcolon, if_neg hI]
  have hscan := r.scanner.step_of_ne strict next? hspace hcomma hclosing
  simp only [Scanner.extend, hstate, hI, false_and, if_false] at hscan
  cases hd : digit? c with
  | none =>
    rw [hd] at hstep hscan
    exact step_scanner_refuse hstep hscan
  | some d =>
    rw [hd] at hstep hscan
    rw [turn_of_digit hstep, hscan]
    rcases r with ⟨pos, script, stage, optional⟩
    cases hcolon
    cases next?.bind digit? <;> rfl

/-- Where one character is waited for, both of them go on behind it and refuse any other. -/
theorem step_scanner_expect {expected : Char} (stage : Stage) (hplain : ∀ n?, stage.settled n? = true)
    (hstep : r.step c = if c = expected then .ok (r.next stage) else r.refuse c)
    (hscan : r.scanner.step strict c next? =
      if c = expected then .ok (r.next stage).scanner else r.scanner.refuse c) :
    r.scanner.step strict c next? = ((r.turn c next?).map scanner).mapError .refused := by
  by_cases hc : c = expected
  · rw [if_pos hc] at hstep hscan
    exact step_scanner_next stage hstep (hplain next?) hscan
  · rw [if_neg hc] at hstep hscan
    exact step_scanner_refuse hstep hscan

/-- The other places within an element: the character alone decides there. -/
theorem step_scanner_inner (h : r.stage.settled (some c) = true) (hgap : r.stage ≠ .gap)
    (hcolon : ∀ s, r.stage ≠ .colon s) (hspace : c ≠ ' ') (hcomma : c ≠ ',') (hclosing : c ≠ ']') :
    r.scanner.step strict c next? = ((r.turn c next?).map scanner).mapError .refused := by
  have hread := r.step_of_ne hspace hcomma hclosing
  have hscan := r.scanner.step_of_ne strict next? hspace hcomma hclosing
  rcases r with ⟨pos, script, stage, optional⟩
  cases stage with
  | gap => exact absurd rfl hgap
  | half p => cases h
  | colon s => exact absurd rfl (hcolon s)
  | halfPort s => cases h
  | source s => exact step_scanner_expect (.colon s) (fun _ => rfl) hread hscan
  | count s n => exact step_scanner_expect (.times s n) (fun _ => rfl) hread hscan
  | digit s n =>
    -- a second digit was looked for when the first was read
    have hnone : digit? c = none := Option.isNone_iff_eq_none.mp h
    simp only [extend, hnone, Option.elim_none] at hread
    exact step_scanner_expect (.times s n) (fun _ => rfl) hread hscan
  | times s n =>
    simp only [extend] at hread
    simp only [Scanner.extend, scanner, Stage.state] at hscan
    cases hd : digit? c with
    | none =>
      rw [hd] at hread hscan
      exact step_scanner_refuse hread hscan
    | some d =>
      rw [hd] at hread hscan
      exact step_scanner_next (.factor s n d) hread rfl hscan
  | factor s n k => exact step_scanner_refuse hread hscan

/--
**Scanner and reader take the same turns.** Where nothing waits for the next character, a step of the
scanner is one or two of the reader, with the same error or with the same scanner behind it.
-/
theorem step_scanner (h : r.stage.settled (some c) = true) :
    r.scanner.step strict c next? = ((r.turn c next?).map scanner).mapError .refused := by
  by_cases hspace : c = ' '
  · exact step_scanner_of_separator (.inl hspace) h
  by_cases hcomma : c = ','
  · exact step_scanner_of_separator (.inr (.inl hcomma)) h
  by_cases hclosing : c = ']'
  · exact step_scanner_of_separator (.inr (.inr hclosing)) h
  by_cases hgap : r.stage = .gap
  · exact step_scanner_gap hgap hspace hcomma hclosing
  by_cases hcolon : ∃ s, r.stage = .colon s
  · obtain ⟨s, hs⟩ := hcolon
    exact step_scanner_colon hs hspace hcomma hclosing
  · exact step_scanner_inner h hgap (fun s hs => hcolon ⟨s, hs⟩) hspace hcomma hclosing

/-! ## Reading turn by turn -/

/-- What is left of a text, read to its end. -/
def readRest (r : Reader) (cs : List Char) : Except Error Script := cs.foldlM step r >>= finish

theorem readRest_of_ok {r r' : Reader} {c : Char} (h : r.step c = .ok r') (cs : List Char) :
    r.readRest (c :: cs) = r'.readRest cs := by
  rw [readRest, List.foldlM_cons, h]
  rfl

theorem readRest_of_error {e : Error} (h : r.step c = .error e) (cs : List Char) :
    r.readRest (c :: cs) = .error e := by
  rw [readRest, List.foldlM_cons, h]
  rfl

theorem readRest_of_close {e : Error} (h : r.close = .error e) : r.readRest [] = .error e := by
  show r.close.map (·.script) = .error e
  rw [h]
  rfl

/-- What had to be judged together with the next character is judged behind it. -/
theorem settled_step {r' : Reader} (hwaits : r.stage.settled (some c) = false)
    (h : r.step c = .ok r') (next? : Option Char) : r'.stage.settled next? = true := by
  cases hstage : r.stage with
  | half p =>
    by_cases hc : c = p.letters.2
    · have hstart : r.step c = r.start (.pair p) := by
        subst hc
        cases p <;> simp [Pair.letters, step, extend, hstage]
      exact start_settled (hstart.symm.trans h)
    · rw [step_half hstage hc] at h
      cases h
  | halfPort s =>
    by_cases hc : c = 'O'
    · subst hc
      rcases r with ⟨pos, script, stage, optional⟩
      cases hstage
      cases s with
      | memory slot =>
        cases h
        rfl
      | _ => cases h
    · rw [step_halfPort hstage hc] at h
      cases h
  | digit s n =>
    rw [hstage] at hwaits
    cases hd : digit? c with
    | none => simp [Stage.settled, hd] at hwaits
    | some d =>
      obtain ⟨d, rfl, rfl⟩ := digit?_eq_some_iff.mp hd
      rw [Grammar.step_digit, hstage] at h
      cases h
      rfl
  | _ =>
    rw [hstage] at hwaits
    cases hwaits

theorem close_of_waits (hwaits : r.stage.settled none = false) : ∃ e, r.close = .error e := by
  cases hstage : r.stage with
  | half p => exact ⟨_, by rw [close, hstage]⟩
  | halfPort s => exact ⟨_, by rw [close, hstage]⟩
  | _ =>
    rw [hstage] at hwaits
    cases hwaits

/-- A turn takes one step or two, with nothing that waits behind it; where it ends in an error, so
does the text. -/
theorem readRest_turn (r : Reader) (c : Char) (cs : List Char) :
    (∃ e, r.turn c cs.head? = .error e ∧ r.readRest (c :: cs) = .error e) ∨
    (∃ r', r.turn c cs.head? = .ok r' ∧ r.step c = .ok r' ∧ r'.stage.settled cs.head? = true) ∨
    ∃ r₁ r' d ds, cs = d :: ds ∧ r.turn c cs.head? = .ok r' ∧ r.step c = .ok r₁ ∧
      r₁.step d = .ok r' ∧ ∀ next?, r'.stage.settled next? = true := by
  cases hstep : r.step c with
  | error e => exact .inl ⟨e, turn_of_error hstep _, readRest_of_error hstep cs⟩
  | ok r₁ =>
    have hturn := turn_of_ok hstep cs.head?
    have hrest := readRest_of_ok hstep cs
    cases hsettled : r₁.stage.settled cs.head? with
    | true =>
      rw [hsettled, if_pos rfl] at hturn
      exact .inr (.inl ⟨r₁, hturn, rfl, hsettled⟩)
    | false =>
      rw [hsettled, if_neg Bool.false_ne_true] at hturn
      cases cs with
      | nil =>
        obtain ⟨e, he⟩ := close_of_waits hsettled
        exact .inl ⟨e, hturn.trans he, hrest.trans (readRest_of_close he)⟩
      | cons d ds =>
        cases hsecond : r₁.step d with
        | error e =>
          exact .inl ⟨e, hturn.trans hsecond, hrest.trans (readRest_of_error hsecond ds)⟩
        | ok r' =>
          exact .inr (.inr ⟨r₁, r', d, ds, rfl, hturn.trans hsecond, rfl, hsecond,
            settled_step hsettled hsecond⟩)

end Reader

/-! ## Scanning is reading -/

theorem pos_of_reads {cs : List Char} {r : Reader} (h : Grammar.Reads cs r) :
    r.pos = cs.length := by
  obtain ⟨f, p, hchars, -, rfl⟩ := h
  exact congrArg List.length hchars

theorem scanFrom_eq (strict : Bool) {cs rest : List Char} {r : Reader} (hreads : Grammar.Reads cs r)
    (hsettled : r.stage.settled rest.head? = true) :
    scanFrom strict (cs ++ rest) r.scanner = (r.readRest rest).mapError .refused := by
  -- on what is left of the text: a turn takes one or two characters of it
  induction hlength : rest.length using Nat.strongRecOn generalizing cs rest r with
  | ind length ih =>
    have hpos : r.scanner.pos = cs.length := pos_of_reads hreads
    cases rest with
    | nil =>
      have hend : (cs ++ [])[r.scanner.pos]? = none := by simp [hpos]
      rw [Scanner.scanFrom_of_end hend, Reader.close_scanner hsettled]
      show _ = (r.close.map (·.script)).mapError Halt.refused
      cases r.close <;> rfl
    | cons c ds =>
      have hc : (cs ++ c :: ds)[r.scanner.pos]? = some c := by simp [hpos]
      have hnext : (cs ++ c :: ds)[r.scanner.pos + 1]? = ds.head? := by
        rw [hpos, List.getElem?_append_right (Nat.le_succ _), Nat.succ_sub (Nat.le_refl _),
          Nat.sub_self, List.getElem?_cons_succ, List.head?_eq_getElem?]
      rw [List.length_cons] at hlength
      rw [Scanner.scanFrom_of_char hc, hnext, Reader.step_scanner hsettled]
      rcases r.readRest_turn c ds with ⟨e, hturn, hrest⟩ | ⟨r', hturn, hstep, hbehind⟩ |
        ⟨r₁, r', d, es, rfl, hturn, hfirst, hsecond, hbehind⟩
      · rw [hturn, hrest]
        rfl
      · have hscan := ih ds.length (by omega) (hreads.step hstep) hbehind rfl
        rw [List.append_assoc] at hscan
        rw [hturn, Reader.readRest_of_ok hstep]
        exact hscan
      · rw [List.length_cons] at hlength
        have hscan := ih es.length (by omega) ((hreads.step hfirst).step hsecond) (hbehind _) rfl
        rw [List.append_assoc, List.append_assoc] at hscan
        rw [hturn, Reader.readRest_of_ok hfirst, Reader.readRest_of_ok hsecond]
        exact hscan

/--
**The element in progress is always where it is looked for.** Take any text. Whatever the scanner
does where it misses an element, it reads the text as the reader does, with the same script or the
same error; it even does if it stops at any such place, so there is none. On the way it has an element
in progress just when it does not wait for a source. If the text is read, then its elements and their
sums are within bounds, and so are the sum of both and the number of accesses.
-/
theorem scan_eq_read (text : String) (strict : Bool) :
    scanFrom strict text.toList {} = (read text).mapError .refused ∧
    scanFrom strict text.toList {} ≠ .error .missing ∧
    (∀ σ, Scanner.Reached strict text.toList σ →
      (σ.pending?.isSome ↔ σ.state ≠ .awaitingSource)) ∧
    ∀ s, read text = .ok s → s.WellFormed ∧ s.total ≤ 8019 ∧ s.slots ≤ 10 := by
  have hstart : Grammar.Reads [] {} := ⟨.start [], .nothing, rfl, Nat.zero_le _, rfl⟩
  have hscan : scanFrom strict text.toList {} = (read text).mapError .refused :=
    scanFrom_eq strict hstart rfl
  refine ⟨hscan, ?_, fun σ hσ => hσ.consistent, fun s hs => ?_⟩
  · rw [hscan]
    cases read text <;> simp [Except.mapError]
  · have hwf := wellFormed_of_read hs
    exact ⟨hwf, hwf.total_le, hwf.slots_le⟩

/-- The longest script there is, with nothing missing in its scan. -/
theorem scan_eq_read_bounds :
    let text := "9:99x9,9:99x9,9:99x9,9:99x9,9:99x9,9:99x9,9:99x9,9:99x9,9:99x9"
    let s : Script := .ofElements (List.replicate 9 ⟨.memory 9, 99, 9, false⟩)
    scanFrom true text.toList {} = .ok s ∧ s.WellFormed ∧ s.total = 8019 ∧ s.slots = 10 := by
  intro text s
  have hread : read text = .ok s := by decide +kernel
  obtain ⟨hscan, -, -, hbounds⟩ := scan_eq_read text true
  rw [hread] at hscan
  exact ⟨hscan, (hbounds s hread).1, by decide, by decide⟩

end SpectrumTiming.Script
