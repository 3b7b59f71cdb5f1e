import SpectrumTiming.Timer

/-!
# Which descriptions are machines

A description may be wrong in several places at once. `Machine.faults` lists all that is wrong with
it, in the order in which it is told: the length of the pattern, every character of the pattern that
is no digit, every character of the banks that is none, a line and a frame that do not last.
Whatever reads a description comes to the first of these, and succeeds where there are none.

To judge a description, to build a clock and to build a timer are three ways into the same reading.
`Setup` writes each of them out with its own steps: the clock is built by judging the description
and reading it once more, the timer by building the clock and compiling all scripts, where a text
that cannot be read would be one reason more to fail. None ever is, so the three succeed and fail
together and tell the same fault (`Setup.succeed_together`).
-/

namespace SpectrumTiming

/-- The number a decimal digit is written for. -/
def digitValue (c : Char) : Nat := c.toNat - '0'.toNat

theorem digit?_of_isDigit {c : Char} (h : c.isDigit = true) : digit? c = some (digitValue c) := by
  rw [Char.isDigit_iff_toNat] at h
  exact if_pos h

theorem digit?_of_not_isDigit {c : Char} (h : c.isDigit = false) : digit? c = none := by
  refine if_neg fun hrange => ?_
  rw [Char.isDigit_iff_toNat.mpr hrange] at h
  exact absurd h (by decide)

namespace Machine

/-! ## Faults -/

/-- The characters that are no digits, from the left. -/
def strays (cs : List Char) : List Char := cs.filter (!·.isDigit)

/-- What is wrong with the pattern. An empty one is in order. -/
def patternFaults (m : Machine) : List Error :=
  (if m.pattern = "" ∨ m.pattern.length = 8 then [] else [.patternLength m.pattern]) ++
    (strays m.pattern.toList).map (.patternChar · m.pattern)

def bankFaults (m : Machine) : List Error :=
  (strays m.banks.toList).map (.bankChar · m.banks)

def geometryFaults (m : Machine) : List Error :=
  (if m.line = 0 then [.zeroLine] else []) ++ if m.frame = 0 then [.zeroFrame] else []

/-- All that is wrong with a description, in the order in which it is told. -/
def faults (m : Machine) : List Error := m.patternFaults ++ m.bankFaults ++ m.geometryFaults

/-- A description with nothing wrong. -/
structure Readable (m : Machine) : Prop where
  pattern : m.pattern = "" ∨ m.pattern.length = 8 ∧ ∀ c ∈ m.pattern.toList, c.isDigit = true
  banks : ∀ c ∈ m.banks.toList, c.isDigit = true
  line : 0 < m.line
  frame : 0 < m.frame

theorem strays_eq_nil_iff {cs : List Char} : strays cs = [] ↔ ∀ c ∈ cs, c.isDigit = true := by
  simp [strays]

theorem faults_eq_nil_iff {m : Machine} : m.faults = [] ↔ m.Readable := by
  have hpattern : m.patternFaults = [] ↔
      m.pattern = "" ∨ m.pattern.length = 8 ∧ ∀ c ∈ m.pattern.toList, c.isDigit = true := by
    simp only [patternFaults, List.append_eq_nil_iff, List.map_eq_nil_iff, strays_eq_nil_iff]
    by_cases hempty : m.pattern = ""
    · simp [hempty]
    · by_cases hlength : m.pattern.length = 8 <;> simp [hempty, hlength]
  have hbanks : m.bankFaults = [] ↔ ∀ c ∈ m.banks.toList, c.isDigit = true := by
    rw [bankFaults, List.map_eq_nil_iff, strays_eq_nil_iff]
  have hgeometry : m.geometryFaults = [] ↔ 0 < m.line ∧ 0 < m.frame := by
    by_cases hline : m.line = 0 <;> by_cases hframe : m.frame = 0 <;>
      simp [geometryFaults, hline, hframe, Nat.pos_iff_ne_zero]
  rw [faults, List.append_eq_nil_iff, List.append_eq_nil_iff, hpattern, hbanks, hgeometry]
  exact ⟨fun ⟨⟨hp, hb⟩, hl, hf⟩ => ⟨hp, hb, hl, hf⟩,
    fun h => ⟨⟨h.pattern, h.banks⟩, h.line, h.frame⟩⟩

/-! ## Reading, barring faults -/

section Barring

variable {α β : Type}

/-- A result if nothing is wrong, and else the first fault. -/
def barring (faults : List Error) (a : α) : Except Error α :=
  match faults with
  | [] => .ok a
  | e :: _ => .error e

theorem barring_eq_ok_iff {faults : List Error} {a b : α} :
    barring faults a = .ok b ↔ faults = [] ∧ a = b := by
  cases faults <;> simp [barring]

theorem barring_eq_error_iff {faults : List Error} {a : α} {e : Error} :
    barring faults a = .error e ↔ faults.head? = some e := by
  cases faults <;> simp [barring]

/-- What is wrong with a second reading is told only if the first one succeeds. -/
theorem barring_bind (xs ys : List Error) (a : α) (f : α → β) :
    (barring xs a >>= fun a => barring ys (f a)) = barring (xs ++ ys) (f a) := by
  cases xs <;> rfl

theorem exists_of_map_eq_barring [Inhabited α] {x : Except Error α} {f : α → β}
    {faults : List Error} {b : β} (h : x.map f = barring faults b) :
    ∃ a, x = barring faults a ∧ (faults = [] → f a = b) := by
  cases faults with
  | nil =>
    cases x with
    | ok a => exact ⟨a, rfl, fun _ => Except.ok.inj h⟩
    | error e => simp [Except.map, barring] at h
  | cons fault faults =>
    cases x with
    | ok a => simp [Except.map, barring] at h
    | error e => exact ⟨default, by simpa [Except.map, barring] using h, by simp⟩

/-- Digits are read one after the other, up to the first character that is none. -/
theorem mapM_digit_eq (fault : Char → Error) (cs : List Char) :
    cs.mapM (fun c => (digit? c).elim (.error (fault c)) Except.ok) =
      barring ((strays cs).map fault) (cs.map digitValue) := by
  induction cs with
  | nil => rfl
  | cons c cs ih =>
    rw [List.mapM_cons, ih]
    cases hc : c.isDigit with
    | false =>
      have hstray : strays (c :: cs) = c :: strays cs := List.filter_cons_of_pos (by simp [hc])
      rw [digit?_of_not_isDigit hc, hstray]
      rfl
    | true =>
      have hstray : strays (c :: cs) = strays cs := List.filter_cons_of_neg (by simp [hc])
      have hrest := barring_bind ((strays cs).map fault) [] (cs.map digitValue) (digitValue c :: ·)
      rw [List.append_nil] at hrest
      rw [digit?_of_isDigit hc, hstray]
      exact hrest

end Barring

/-- The numbers of the banks, barring faults. -/
theorem bankNumbers_eq (m : Machine) :
    m.bankNumbers = barring m.bankFaults (m.banks.toList.map digitValue) :=
  mapM_digit_eq ..

/-- The delays a pattern is written for. -/
def writtenDelays (m : Machine) : List Nat :=
  if m.pattern = "" then List.replicate 8 0 else m.pattern.toList.map digitValue

/-- A pattern of eight characters is read as any list of digits is. -/
theorem delays_of_length {m : Machine} (h : m.effectivePattern.length = 8) :
    m.delays.map Vector.toList =
      barring ((strays m.effectivePattern.toList).map (.patternChar · m.effectivePattern))
        (m.effectivePattern.toList.map digitValue) := by
  obtain ⟨a, b, c, d, e, f, g, k, hchars⟩ : ∃ a b c d e f g k,
      m.effectivePattern.toList = [a, b, c, d, e, f, g, k] := by
    rw [← String.length_toList] at h
    match hcs : m.effectivePattern.toList, h with
    | [a, b, c, d, e, f, g, k], _ => exact ⟨a, b, c, d, e, f, g, k, rfl⟩
  rw [← mapM_digit_eq, delays, hchars]
  show Functor.map (f := Except Error) Vector.toList _ = _
  simp only [List.mapM_cons, List.mapM_nil, map_bind, bind_assoc, pure_bind, map_pure]
  rfl

theorem delays_of_stray_length {m : Machine} (h : m.effectivePattern.length ≠ 8) :
    m.delays = .error (.patternLength m.effectivePattern) := by
  unfold delays
  split
  · rename_i hchars
    rw [← String.length_toList, hchars] at h
    exact absurd rfl h
  · rfl

/-- The delays, barring faults. -/
theorem exists_delays_eq (m : Machine) :
    ∃ pattern : Vector Nat 8, m.delays = barring m.patternFaults pattern ∧
      (m.patternFaults = [] → pattern.toList = m.writtenDelays) := by
  refine exists_of_map_eq_barring ?_
  by_cases hempty : m.pattern = ""
  · have heffective : m.effectivePattern = "00000000" := if_pos hempty
    have hzeros := delays_of_length (m := m) (by rw [heffective]; rfl)
    rw [hzeros, heffective]
    simp only [patternFaults, writtenDelays, hempty, if_true, true_or]
    rfl
  · have heffective : m.effectivePattern = m.pattern := if_neg hempty
    by_cases hlength : m.pattern.length = 8
    · have hdigits := delays_of_length (m := m) (by rw [heffective]; exact hlength)
      rw [hdigits, heffective]
      simp [patternFaults, writtenDelays, hempty, hlength]
    · rw [delays_of_stray_length (by rw [heffective]; exact hlength), heffective]
      simp [patternFaults, hempty, hlength, barring, Except.map]

end Machine

/-! ## Three ways in -/

namespace Standard

/-- A script with the text it was compiled from. -/
structure Compiled where
  id : ScriptNumber
  text : String
  script : Script

/-- Compiles all scripts for a chip, up to the first text that cannot be read. -/
def compile (v : Variant) : Except Script.Error (List Compiled) :=
  (List.finRange scriptTotal).mapM fun id => do
    return { id, text := text v id, script := ← Script.read (text v id) }

/-- All scripts for a chip. -/
def compiled (v : Variant) : List Compiled :=
  (List.finRange scriptTotal).map fun id => { id, text := text v id, script := script v id }

/-- Compiling the scripts never fails. -/
theorem compile_eq (v : Variant) : compile v = .ok (compiled v) := by
  unfold compile compiled
  simp only [read_text]
  exact List.mapM_pure

end Standard

namespace Setup

/-- Why nothing can be set up. -/
inductive Error
  | machine (e : Machine.Error)
  /-- A text of a script cannot be read. -/
  | script (e : Script.Error)
deriving DecidableEq

/-- Judges a description. -/
def validate (m : Machine) : Except Machine.Error Unit := do
  let _ ← m.delays
  let _ ← m.bankNumbers
  if m.line = 0 then .error .zeroLine
  if m.frame = 0 then .error .zeroFrame

theorem validate_eq (m : Machine) : validate m = Machine.barring m.faults () := by
  obtain ⟨pattern, hpattern, -⟩ := m.exists_delays_eq
  have hgeometry : (do
      if m.line = 0 then .error .zeroLine
      if m.frame = 0 then .error .zeroFrame) = Machine.barring m.geometryFaults () := by
    by_cases hline : m.line = 0 <;> by_cases hframe : m.frame = 0 <;>
      simp only [Machine.geometryFaults, hline, hframe, if_true, if_false] <;> rfl
  unfold validate
  rw [hpattern, m.bankNumbers_eq, hgeometry, Machine.barring_bind, Machine.barring_bind]
  rw [Machine.faults, List.append_assoc]

theorem readable_of_validate {m : Machine} (h : validate m = .ok ()) : m.Readable := by
  rw [validate_eq, Machine.barring_eq_ok_iff] at h
  exact Machine.faults_eq_nil_iff.mp h.1

/-- The clock of a described machine, at the start of its first frame: the description is judged,
and then read. -/
def clock (m : Machine) : Except Machine.Error (Ula × Clock) :=
  match h : validate m with
  | .error e => .error e
  | .ok () => do
    let pattern ← m.delays
    let banks ← m.bankNumbers
    let ula : Ula :=
      { variant := m.variant, pattern, banks, start := m.start, line := m.line, frame := m.frame
        line_pos := (readable_of_validate h).line, frame_pos := (readable_of_validate h).frame }
    return (ula, {})

/-- The timer of a described machine and the scripts it goes by: the clock is built, and then all
scripts are compiled. -/
def timer (m : Machine) (display : Bool) : Except Error (Timer × List Standard.Compiled) := do
  let (ula, clock) ← (clock m).mapError .machine
  let scripts ← (Standard.compile m.variant).mapError .script
  return ({ ula, clock, display }, scripts)

/-! ## What they come to -/

/-- What is read of a description. -/
structure ReadAs (m : Machine) (u : Ula) : Prop where
  variant : u.variant = m.variant
  pattern : u.pattern.toList = m.writtenDelays
  start : u.start = m.start
  line : u.line = m.line
  frame : u.frame = m.frame
  banks : u.banks = m.banks.toList.map digitValue

theorem exists_clock_eq {m : Machine} (h : m.Readable) :
    ∃ u, ReadAs m u ∧ clock m = .ok (u, {}) ∧ m.ula = .ok u := by
  have hnone := Machine.faults_eq_nil_iff.mpr h
  have hparts : m.patternFaults = [] ∧ m.bankFaults = [] := by
    simp only [Machine.faults, List.append_eq_nil_iff] at hnone
    exact hnone.1
  obtain ⟨pattern, hdelays, hpattern⟩ := m.exists_delays_eq
  have hbanks := m.bankNumbers_eq
  rw [hparts.1] at hdelays
  rw [hparts.2] at hbanks
  refine ⟨{ variant := m.variant, pattern, banks := m.banks.toList.map digitValue
            start := m.start, line := m.line, frame := m.frame, line_pos := h.line
            frame_pos := h.frame }, ⟨rfl, hpattern hparts.1, rfl, rfl, rfl, rfl⟩, ?_, ?_⟩
  · unfold clock
    split
    · rename_i e hv
      rw [validate_eq, hnone] at hv
      exact absurd hv nofun
    · rw [hdelays, hbanks]
      rfl
  · unfold Machine.ula
    rw [hdelays, hbanks]
    simp only [Machine.barring, bind, Except.bind]
    rw [dif_neg (Nat.ne_of_gt h.line), dif_neg (Nat.ne_of_gt h.frame)]

/-- Reading a description is judging it. -/
theorem check_eq (m : Machine) : m.check = validate m := by
  unfold Machine.check Machine.ula validate
  show Functor.map (f := Except Machine.Error) _ _ = _
  simp only [map_bind]
  refine congrArg _ (funext fun pattern => congrArg _ (funext fun banks => ?_))
  by_cases hline : m.line = 0
  · simp only [hline]
    rfl
  · by_cases hframe : m.frame = 0
    · simp only [hline, hframe]
      rfl
    · simp only [hline, hframe]
      rfl

theorem clock_eq_error {m : Machine} {e : Machine.Error} (h : validate m = .error e) :
    clock m = .error e := by
  unfold clock
  split
  · rename_i e' hv
    rw [hv] at h
    exact congrArg _ (Except.error.inj h)
  · rename_i hv
    rw [hv] at h
    exact absurd h nofun

theorem ula_eq_error {m : Machine} {e : Machine.Error} (h : validate m = .error e) :
    m.ula = .error e := by
  rw [← check_eq, Machine.check] at h
  cases hu : m.ula with
  | ok u => simp [hu, Except.map] at h
  | error e' =>
    rw [hu] at h
    exact congrArg _ (Except.error.inj h)

theorem timer_eq (m : Machine) (display : Bool) :
    timer m display = ((clock m).map fun (ula, clock) =>
      (({ ula, clock, display } : Timer), Standard.compiled m.variant)).mapError .machine := by
  unfold timer
  rw [Standard.compile_eq]
  cases clock m <;> rfl

/--
**Whatever reads a description succeeds on the same ones, and else tells the same fault.** A
description passes if and only if the pattern is empty or eight digits, the banks are digits, and
line and frame last; if it does not pass, the first of its faults is told. A clock is built of just
those that pass and so is a timer, each failing with the fault that judging tells, since compiling
the scripts does not fail for any chip. The clock has the delays and the banks that are written, in
their order. What these three come to, the reading of a machine comes to as well.
-/
theorem succeed_together (m : Machine) (display : Bool) :
    (validate m = .ok () ↔ m.Readable) ∧
    (∀ e, validate m = .error e ↔ m.faults.head? = some e) ∧
    (clock m).map (fun _ => ()) = validate m ∧
    (timer m display).map (fun _ => ()) = (validate m).mapError .machine ∧
    (∀ v, Standard.compile v = .ok (Standard.compiled v)) ∧
    (∀ u c, clock m = .ok (u, c) → ReadAs m u ∧ c = {} ∧
      timer m display = .ok ({ ula := u, display }, Standard.compiled m.variant)) ∧
    m.check = validate m ∧ m.ula = (clock m).map Prod.fst ∧
      (Timer.ofMachine m display).mapError .machine = (timer m display).map Prod.fst := by
  have htimer := timer_eq m display
  refine ⟨?_, ?_, ?_⟩
  · rw [validate_eq, Machine.barring_eq_ok_iff, Machine.faults_eq_nil_iff]
    exact and_iff_left rfl
  · intro e
    rw [validate_eq, Machine.barring_eq_error_iff]
  · rw [check_eq, Timer.ofMachine]
    cases hv : validate m with
    | error e =>
      rw [clock_eq_error hv] at htimer ⊢
      rw [ula_eq_error hv, htimer]
      exact ⟨rfl, rfl, Standard.compile_eq, nofun, rfl, rfl, rfl⟩
    | ok =>
      obtain ⟨u, hread, hclock, hula⟩ := exists_clock_eq (readable_of_validate hv)
      rw [hclock] at htimer ⊢
      rw [hula, htimer]
      refine ⟨rfl, rfl, Standard.compile_eq, ?_, rfl, rfl, rfl⟩
      rintro _ _ ⟨⟩
      exact ⟨hread, rfl, rfl⟩

/-- Of a letter among eight characters that are nine bytes, a letter among the banks and a line that
does not last, the first is told. The +3 passes. -/
theorem succeed_together_faulty :
    (timer ⟨.sinclair, "6543210é", 14335, 0, 69888, "13x"⟩ true).map (fun _ => ()) =
      .error (.machine (.patternChar 'é' "6543210é")) ∧
    ∃ u c, clock .spectrumPlus3 = .ok (u, c) ∧ u.pattern.toList = [1, 0, 7, 6, 5, 4, 3, 2] ∧
      u.banks = [4, 5, 6, 7] := by
  obtain ⟨-, hfirst, -, hsame, -⟩ :=
    succeed_together ⟨.sinclair, "6543210é", 14335, 0, 69888, "13x"⟩ true
  obtain ⟨-, -, hclock, -, -, hread, -⟩ := succeed_together .spectrumPlus3 false
  refine ⟨?_, ?_⟩
  · rw [hsame, (hfirst (.patternChar 'é' "6543210é")).mpr rfl]
    rfl
  · have hpasses : validate .spectrumPlus3 = .ok () := by rfl
    cases hc : clock .spectrumPlus3 with
    | error e => simp [hc, hpasses, Except.map] at hclock
    | ok r =>
      obtain ⟨hu, -⟩ := hread r.1 r.2 hc
      exact ⟨r.1, r.2, rfl, hu.pattern.trans rfl, hu.banks.trans rfl⟩

end Setup

end SpectrumTiming
