import SpectrumTiming.Script.Reader

/-!
# A scanner with lookahead

The reader of scripts takes one character at a time and keeps in its stage whatever it cannot judge
yet, so an element in progress is part of the stage. The scanner here is made the other way round. It
looks at the next character before it decides, so its states are fewer, and the element in progress
stands beside the state, where it may or may not be. Wherever the scanner needs that element it has
to look for it first. A strict scanner stops where it misses one; the other goes on without, and what
it has just read is lost.

No scanner ever misses one. There is an element in progress just when no source is waited for
(`Scanner.Consistent`): this holds at the beginning, and every step keeps it (`passes_step`). The same
step lemma says that a step goes on in the text, which is why a scan ends.
-/

namespace SpectrumTiming.Script

/-! ## The scanner -/

namespace Scanner

/-- What the scanner waits for, or has just seen. -/
inductive State
  | awaitingSource
  | sourceSeen
  | awaitingCount
  | countSeen
  | awaitingFactor
  | factorSeen
deriving DecidableEq

/-- Why the scanner stops. -/
inductive Halt
  | refused (e : Error)
  /-- There is no element in progress where there should be one. -/
  | missing
deriving DecidableEq

end Scanner

structure Scanner where
  /-- Where in the text the scanner is. -/
  pos : Nat := 0
  script : Script := {}
  state : Scanner.State := .awaitingSource
  /-- Whether the next element to begin is optional. -/
  optional : Bool := false
  /-- The element in progress. -/
  pending? : Option Element := none
deriving DecidableEq

namespace Scanner

/-- Goes on by some characters. -/
def skip (n : Nat) (σ : Scanner) : Scanner := { σ with pos := σ.pos + n }

def refuse (σ : Scanner) (c : Char) : Except Halt Scanner :=
  .error (.refused (.unexpected c σ.pos))

/-- Begins an element with its source. -/
def start (σ : Scanner) (s : Source) : Except Halt Scanner :=
  if σ.script.size < elementLimit then
    .ok { σ with pending? := some ⟨s, 0, 1, σ.optional⟩, state := .sourceSeen }
  else .error (.refused .tooMany)

section

variable (strict : Bool)

/-- Goes on without an element that is missed, or stops there if the scanner is a strict one. -/
def without (σ : Scanner) : Except Halt Scanner := if strict then .error .missing else .ok σ

/-- Adds the element in progress to the script. -/
def commit (σ : Scanner) : Except Halt Scanner :=
  let after : Scanner := { σ with state := .awaitingSource }
  match σ.pending? with
  | some e => .ok { after with script := σ.script.add e, pending? := none }
  | none => after.without strict

/-- Changes the element in progress. -/
def amend (σ : Scanner) (state : State) (change : Element → Element) : Except Halt Scanner :=
  let after : Scanner := { σ with state }
  match σ.pending? with
  | some e => .ok { after with pending? := some (change e) }
  | none => after.without strict

/-- Makes the element in progress a port cycle. -/
def makePort (σ : Scanner) : Except Halt Scanner :=
  match σ.pending? with
  | some e =>
    match e.source with
    | .memory slot =>
      let port : Element := { e with source := .port slot, cycles := portCycles }
      .ok { σ with pending? := some port, state := .countSeen }
    | _ => .error (.refused .portSource)
  | none => .error .missing

/-- Ends the element in progress in front of a separator or of the end. -/
def close (σ : Scanner) : Except Halt Scanner :=
  match σ.state with
  | .awaitingSource => .ok σ
  | .countSeen | .factorSeen => σ.commit strict
  | .sourceSeen | .awaitingCount | .awaitingFactor => .error (.refused (.unfinished σ.pos))

/-- Reads a character that belongs to an element or opens a bracket. -/
def extend (σ : Scanner) (c : Char) (next? : Option Char) : Except Halt Scanner :=
  match σ.state with
  | .awaitingSource =>
    if c = '[' then .ok { σ.skip 1 with optional := true }
    else if c = 'i' ∧ next? = some 'r' then (σ.start (.pair .ir)).map (skip 2)
    else if c = 'b' ∧ next? = some 'c' then (σ.start (.pair .bc)).map (skip 2)
    else if c = 'N' then (σ.start .idle).map (skip 1)
    else (digit? c).elim (σ.refuse c) fun d => (σ.start (.memory d)).map (skip 1)
  | .sourceSeen => if c = ':' then .ok { σ.skip 1 with state := .awaitingCount } else σ.refuse c
  | .awaitingCount =>
    if c = 'I' ∧ next? = some 'O' then σ.makePort.map (skip 2)
    else (digit? c).elim (σ.refuse c) fun d =>
      match next?.bind digit? with
      | some d' => (σ.amend strict .countSeen ({ · with cycles := 10 * d + d' })).map (skip 2)
      | none => (σ.amend strict .countSeen ({ · with cycles := d })).map (skip 1)
  | .countSeen => if c = 'x' then .ok { σ.skip 1 with state := .awaitingFactor } else σ.refuse c
  | .awaitingFactor =>
    (digit? c).elim (σ.refuse c) fun d =>
      (σ.amend strict .factorSeen ({ · with repeats := d })).map (skip 1)
  | .factorSeen => σ.refuse c

/-- Reads one character, or two where they belong together. -/
def step (σ : Scanner) (c : Char) (next? : Option Char) : Except Halt Scanner :=
  match c with
  | ' ' => .ok (σ.skip 1)
  | ',' => (σ.close strict).map (skip 1)
  | ']' => (σ.close strict).map fun σ => { σ.skip 1 with optional := false }
  | _ => σ.extend strict c next?

end

/-! ## The element in progress -/

/-- There is an element in progress just when no source is waited for. -/
def Consistent (σ : Scanner) : Prop := σ.pending?.isSome ↔ σ.state ≠ .awaitingSource

/-- One scanner comes some characters behind another and is no less consistent. -/
structure Behind (n : Nat) (σ σ' : Scanner) : Prop where
  pos : σ'.pos = σ.pos + n
  consistent : σ.Consistent → σ'.Consistent

variable {strict : Bool} {σ σ' : Scanner}

theorem Behind.skip {n : Nat} (h : Behind 0 σ σ') : Behind n σ (σ'.skip n) where
  pos := congrArg (· + n) h.pos
  consistent := h.consistent

theorem behind_map {n : Nat} {x : Except Halt Scanner} (hx : ∀ σ', x = .ok σ' → Behind 0 σ σ')
    (h : x.map (skip n) = .ok σ') : Behind n σ σ' := by
  cases x with
  | error e => cases h
  | ok τ =>
    cases h
    exact (hx τ rfl).skip

theorem behind_start {s : Source} (h : σ.start s = .ok σ') : Behind 0 σ σ' := by
  unfold start at h
  split at h
  · cases h
    exact ⟨rfl, fun _ => by simp [Consistent]⟩
  · cases h

theorem behind_commit (h : σ.commit strict = .ok σ') : Behind 0 σ σ' := by
  unfold commit at h
  split at h
  · cases h
    exact ⟨rfl, fun _ => by simp [Consistent]⟩
  · rename_i hnone
    unfold without at h
    split at h
    · cases h
    · cases h
      exact ⟨rfl, fun _ => by simp [Consistent, hnone]⟩

theorem behind_amend {state : State} {change : Element → Element}
    (hbefore : σ.state ≠ .awaitingSource) (hafter : state ≠ .awaitingSource)
    (h : σ.amend strict state change = .ok σ') : Behind 0 σ σ' := by
  unfold amend at h
  split at h
  · cases h
    exact ⟨rfl, fun _ => by simp [Consistent, hafter]⟩
  · rename_i hnone
    unfold without at h
    split at h
    · cases h
    · cases h
      refine ⟨rfl, fun hσ => ?_⟩
      have hsome := hσ.mpr hbefore
      rw [hnone] at hsome
      cases hsome

theorem behind_makePort (h : σ.makePort = .ok σ') : Behind 0 σ σ' := by
  unfold makePort at h
  split at h
  · split at h
    · cases h
      exact ⟨rfl, fun _ => by simp [Consistent]⟩
    · cases h
  · cases h

theorem behind_close (h : σ.close strict = .ok σ') : Behind 0 σ σ' := by
  unfold close at h
  split at h
  · cases h
    exact ⟨rfl, id⟩
  · exact behind_commit h
  · exact behind_commit h
  · cases h
  · cases h
  · cases h

/-- One scanner comes behind another by at least one character. -/
def Passes (σ σ' : Scanner) : Prop := ∃ n, 0 < n ∧ Behind n σ σ'

theorem passes_map {n : Nat} {x : Except Halt Scanner} (hn : 0 < n)
    (hx : ∀ σ', x = .ok σ' → Behind 0 σ σ') (h : x.map (skip n) = .ok σ') : Passes σ σ' :=
  ⟨n, hn, behind_map hx h⟩

theorem passes_digit {c : Char} {k : Nat → Except Halt Scanner}
    (hk : ∀ d, k d = .ok σ' → Passes σ σ') (h : (digit? c).elim (σ.refuse c) k = .ok σ') :
    Passes σ σ' := by
  cases hd : digit? c with
  | none =>
    rw [hd] at h
    cases h
  | some d =>
    rw [hd] at h
    exact hk d h

theorem passes_extend {c : Char} {next? : Option Char} (h : σ.extend strict c next? = .ok σ') :
    Passes σ σ' := by
  unfold extend at h
  cases hstate : σ.state with
  | awaitingSource =>
    simp only [hstate] at h
    split at h
    · cases h
      exact ⟨1, Nat.one_pos, rfl, id⟩
    split at h
    · exact passes_map Nat.two_pos (fun _ => behind_start) h
    split at h
    · exact passes_map Nat.two_pos (fun _ => behind_start) h
    split at h
    · exact passes_map Nat.one_pos (fun _ => behind_start) h
    · exact passes_digit (fun _ => passes_map Nat.one_pos fun _ => behind_start) h
  | sourceSeen =>
    simp only [hstate] at h
    split at h
    · cases h
      exact ⟨1, Nat.one_pos, rfl, fun hσ => hσ.trans (by simp [hstate])⟩
    · cases h
  | awaitingCount =>
    simp only [hstate] at h
    have hbefore : σ.state ≠ .awaitingSource := by simp [hstate]
    have hamend {change : Element → Element} (σ' : Scanner) :
        σ.amend strict .countSeen change = .ok σ' → Behind 0 σ σ' :=
      behind_amend hbefore (by simp)
    split at h
    · exact passes_map Nat.two_pos (fun _ => behind_makePort) h
    · refine passes_digit (fun d hd => ?_) h
      split at hd
      · exact passes_map Nat.two_pos hamend hd
      · exact passes_map Nat.one_pos hamend hd
  | countSeen =>
    simp only [hstate] at h
    split at h
    · cases h
      exact ⟨1, Nat.one_pos, rfl, fun hσ => hσ.trans (by simp [hstate])⟩
    · cases h
  | awaitingFactor =>
    simp only [hstate] at h
    have hbefore : σ.state ≠ .awaitingSource := by simp [hstate]
    exact passes_digit (fun _ => passes_map Nat.one_pos fun _ => behind_amend hbefore (by simp)) h
  | factorSeen =>
    simp only [hstate] at h
    cases h

/-- Every step goes on in the text and keeps the scanner consistent. -/
theorem passes_step {c : Char} {next? : Option Char} (h : σ.step strict c next? = .ok σ') :
    Passes σ σ' := by
  unfold step at h
  split at h
  · cases h
    exact ⟨1, Nat.one_pos, rfl, id⟩
  · exact passes_map Nat.one_pos (fun _ => behind_close) h
  · cases hclose : σ.close strict with
    | error e =>
      rw [hclose] at h
      cases h
    | ok τ =>
      rw [hclose] at h
      cases h
      have hτ := behind_close hclose
      exact ⟨1, Nat.one_pos, congrArg (· + 1) hτ.pos, hτ.consistent⟩
  · exact passes_extend h

theorem step_of_ne (σ : Scanner) (strict : Bool) {c : Char} (next? : Option Char) (hspace : c ≠ ' ')
    (hcomma : c ≠ ',') (hclosing : c ≠ ']') :
    σ.step strict c next? = σ.extend strict c next? := by
  unfold step
  split
  · exact absurd rfl hspace
  · exact absurd rfl hcomma
  · exact absurd rfl hclosing
  · rfl

/-! ## Scanning a text -/

-- the linter does not see that the end of the scan is shown from `hc` and `hstep`
set_option linter.unusedVariables false in
/-- Scans a text from where the scanner is. -/
def scanFrom (strict : Bool) (text : List Char) (σ : Scanner) : Except Halt Script :=
  match hc : text[σ.pos]? with
  | none => (σ.close strict).map (·.script)
  | some c =>
    match hstep : σ.step strict c text[σ.pos + 1]? with
    | .error e => .error e
    | .ok σ' => scanFrom strict text σ'
termination_by text.length - σ.pos
decreasing_by
  obtain ⟨hlt, -⟩ := List.getElem?_eq_some_iff.mp hc
  obtain ⟨n, hn, hpos, -⟩ := passes_step hstep
  omega

section

variable {text : List Char}

theorem scanFrom_of_end (h : text[σ.pos]? = none) :
    scanFrom strict text σ = (σ.close strict).map (·.script) := by
  rw [scanFrom]
  split
  · rfl
  · rename_i hc
    rw [h] at hc
    cases hc

theorem scanFrom_of_char {c : Char} (h : text[σ.pos]? = some c) :
    scanFrom strict text σ = σ.step strict c text[σ.pos + 1]? >>= scanFrom strict text := by
  rw [scanFrom]
  split
  · rename_i hnone
    rw [h] at hnone
    cases hnone
  · rename_i c' hc'
    obtain rfl : c = c' := Option.some.inj (h.symm.trans hc')
    split
    · rename_i hstep
      rw [hstep]
      rfl
    · rename_i hstep
      rw [hstep]
      rfl

end

/-- The scanners that come up while a text is scanned. -/
inductive Reached (strict : Bool) (text : List Char) : Scanner → Prop
  | start : Reached strict text {}
  | step {σ σ' : Scanner} {c : Char} (h : Reached strict text σ) (hc : text[σ.pos]? = some c)
      (hstep : σ.step strict c text[σ.pos + 1]? = .ok σ') : Reached strict text σ'

theorem Reached.consistent {text : List Char} (h : Reached strict text σ) : σ.Consistent := by
  induction h with
  | start => simp [Consistent]
  | step _ _ hstep ih =>
    obtain ⟨n, -, hbehind⟩ := passes_step hstep
    exact hbehind.consistent ih

end Scanner

end SpectrumTiming.Script
