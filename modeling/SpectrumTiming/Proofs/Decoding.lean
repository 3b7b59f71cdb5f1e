import SpectrumTiming.Proofs.Checked
import SpectrumTiming.Proofs.Classification
import SpectrumTiming.Proofs.Encoding

/-!
# What a string of bytes spells

`scriptOf?` takes index bytes off a string, one at a time, for as long as the next byte makes them
collapse, and then looks up the script of the opcode that is left. Here is what it looks for, with no
mention of how: `Spells bytes id count` says of every position below `count` that an index byte stands
there in front of a byte it collapses at, and that an opcode opens behind them. The two agree on every
string (`scriptOf?_eq_some_iff`), so a string has one spelling at most.

An opcode that has opened stays open whatever bytes follow, and so do the positions in front of it.
This is why a decision may be kept once it has been made. To take index bytes off is a loop over a log
that shrinks. With everything checked that it does, it meets no hazard and needs one turn more than
there are bytes at most (`Checked.classify_eq`).
-/

namespace SpectrumTiming

open Capture

namespace Opcode

/-! ## The bytes that lead on -/

theorem primary_eq_cb_iff : ∀ op, primary op = .cb ↔ op = 0xCB := forall_byte (by decide +kernel)

theorem primary_eq_ed_iff : ∀ op, primary op = .ed ↔ op = 0xED := forall_byte (by decide +kernel)

theorem indexed_eq_bit_iff : ∀ op, indexed op = .bit ↔ op = 0xCB := forall_byte (by decide +kernel)

/-! ## Opcodes -/

/-- The bytes begin with a complete opcode, and it is timed by a script. -/
inductive Opens : List UInt8 → ScriptNumber → Prop
  | primary {op : UInt8} {id : ScriptNumber} {rest : List UInt8} (h : primary op = .script id) :
      Opens (op :: rest) id
  | bit (op : UInt8) (rest : List UInt8) : Opens (0xCB :: op :: rest) (bit op)
  | extended {op : UInt8} {id : ScriptNumber} {rest : List UInt8} (h : extended op = .script id) :
      Opens (0xED :: op :: rest) id
  | undocumented {op : UInt8} {rest : List UInt8} (h : Opcode.extended op = .undocumented) :
      Opens (0xED :: op :: rest) 1
  | indexed {p op : UInt8} {id : ScriptNumber} {rest : List UInt8} (hp : isIndexByte p = true)
      (h : indexed op = .script id) : Opens (p :: op :: rest) id
  | indexedBit {p : UInt8} (hp : isIndexByte p = true) (displacement op : UInt8)
      (rest : List UInt8) : Opens (p :: 0xCB :: displacement :: op :: rest) (indexedBit op)

theorem Opens.exists_recognize {bytes : List UInt8} {id : ScriptNumber} (h : Opens bytes id) :
    ∃ taken, recognize bytes = .script id taken := by
  cases h with
  | @primary op id rest h => exact ⟨alwaysTaken op, by simp only [recognize, h]⟩
  | bit op rest => exact ⟨false, by simp only [recognize, (primary_eq_cb_iff _).mpr, recognizeBit]⟩
  | extended h =>
    exact ⟨false, by simp only [recognize, (primary_eq_ed_iff _).mpr, recognizeExtended, h]⟩
  | undocumented h =>
    exact ⟨false, by simp only [recognize, (primary_eq_ed_iff _).mpr, recognizeExtended, h]⟩
  | indexed hp h =>
    exact ⟨false, by simp only [recognize, primary_of_isIndexByte hp, recognizeIndexed, h]⟩
  | indexedBit hp displacement op rest =>
    exact ⟨false, by simp only [recognize, primary_of_isIndexByte hp, recognizeIndexed,
      (indexed_eq_bit_iff _).mpr, recognizeIndexedBit]⟩

theorem opens_of_recognizeExtended {bytes : List UInt8} {id : ScriptNumber} {taken : Bool}
    (h : recognizeExtended bytes = .script id taken) : Opens (0xED :: bytes) id := by
  cases bytes with
  | nil => simp [recognizeExtended] at h
  | cons op rest =>
    cases hop : Opcode.extended op <;> simp only [recognizeExtended, hop, Finding.script.injEq] at h
    · exact .extended (h.1 ▸ hop)
    · exact h.1 ▸ .undocumented hop

theorem opens_of_recognizeIndexed {p : UInt8} (hp : isIndexByte p = true) {bytes : List UInt8}
    {id : ScriptNumber} {taken : Bool} (h : recognizeIndexed bytes = .script id taken) :
    Opens (p :: bytes) id := by
  cases bytes with
  | nil => simp [recognizeIndexed] at h
  | cons op rest =>
    simp only [recognizeIndexed] at h
    cases hop : Opcode.indexed op with
    | script id' =>
      simp only [hop, Finding.script.injEq] at h
      exact .indexed hp (h.1 ▸ hop)
    | standard => simp [hop] at h
    | undocumented => simp [hop] at h
    | bit =>
      obtain rfl := (indexed_eq_bit_iff op).mp hop
      -- the displacement and the opcode behind it have to be there
      cases rest with
      | nil => simp [hop, recognizeIndexedBit] at h
      | cons displacement rest =>
        cases rest with
        | nil => simp [hop, recognizeIndexedBit] at h
        | cons op rest =>
          simp only [hop, recognizeIndexedBit, Finding.script.injEq] at h
          exact h.1 ▸ .indexedBit hp displacement op rest

theorem opens_of_recognize {bytes : List UInt8} {id : ScriptNumber} {taken : Bool}
    (h : recognize bytes = .script id taken) : Opens bytes id := by
  cases bytes with
  | nil => simp [recognize] at h
  | cons first bytes =>
    cases hfirst : primary first <;> simp only [recognize, hfirst] at h
    case script id' =>
      obtain ⟨rfl, -⟩ := Finding.script.inj h
      exact .primary hfirst
    case cb =>
      obtain rfl := (primary_eq_cb_iff first).mp hfirst
      cases bytes with
      | nil => simp [recognizeBit] at h
      | cons op rest =>
        obtain ⟨rfl, -⟩ := Finding.script.inj h
        exact .bit op rest
    case ed =>
      obtain rfl := (primary_eq_ed_iff first).mp hfirst
      exact opens_of_recognizeExtended h
    case index => exact opens_of_recognizeIndexed (isIndexByte_of_primary first hfirst) h

theorem exists_recognize_eq_script_iff {bytes : List UInt8} {id : ScriptNumber} :
    (∃ taken, recognize bytes = .script id taken) ↔ Opens bytes id :=
  ⟨fun ⟨_, h⟩ => opens_of_recognize h, Opens.exists_recognize⟩

theorem recognizeIndexed_eq_collapse_iff {bytes : List UInt8} :
    recognizeIndexed bytes = .collapse ↔ ∃ b, bytes.head? = some b ∧ collapses b = true := by
  cases bytes with
  | nil => simp [recognizeIndexed]
  | cons b rest =>
    cases hb : Opcode.indexed b with
    | bit => rcases rest with _ | ⟨_, _ | ⟨_, _⟩⟩ <;>
        simp [recognizeIndexed, recognizeIndexedBit, collapses, hb]
    | _ => simp [recognizeIndexed, collapses, hb]

/-- Only an index byte collapses, and the byte behind it tells whether it does. -/
theorem recognize_eq_collapse_iff {p : UInt8} {bytes : List UInt8} :
    recognize (p :: bytes) = .collapse ↔
      isIndexByte p = true ∧ ∃ b, bytes.head? = some b ∧ collapses b = true := by
  rw [← recognizeIndexed_eq_collapse_iff]
  constructor
  · intro h
    have hp := isIndexByte_of_collapse h
    simp only [recognize, primary_of_isIndexByte hp] at h
    exact ⟨hp, h⟩
  · rintro ⟨hp, h⟩
    simp only [recognize, primary_of_isIndexByte hp]
    exact h

/-! ## Spellings -/

/-- The bytes are `count` index bytes, each in front of a byte it collapses at, and then an opcode. -/
structure Spells (bytes : List UInt8) (id : ScriptNumber) (count : Nat) : Prop where
  index : ∀ i < count, ∃ p b, bytes[i]? = some p ∧ bytes[i + 1]? = some b ∧
    isIndexByte p = true ∧ collapses b = true
  opens : Opens (bytes.drop count) id

theorem spells_zero_iff {bytes : List UInt8} {id : ScriptNumber} :
    Spells bytes id 0 ↔ Opens bytes id :=
  ⟨fun h => h.opens, fun h => ⟨fun _ hi => absurd hi (Nat.not_lt_zero _), h⟩⟩

/-- One index byte in front, and the spelling of the rest. -/
theorem spells_succ_iff {p : UInt8} {bytes : List UInt8} {id : ScriptNumber} {count : Nat} :
    Spells (p :: bytes) id (count + 1) ↔
      recognize (p :: bytes) = .collapse ∧ Spells bytes id count := by
  rw [recognize_eq_collapse_iff]
  constructor
  · intro h
    obtain ⟨p', b, hp', hb, hindex, hcollapses⟩ := h.index 0 (Nat.succ_pos count)
    obtain rfl : p = p' := Option.some.inj hp'
    refine ⟨⟨hindex, b, ?_, hcollapses⟩, ?_, h.opens⟩
    · rw [List.head?_eq_getElem?]
      exact hb
    · intro i hi
      exact h.index (i + 1) (Nat.succ_lt_succ hi)
  · rintro ⟨⟨hp, b, hhead, hb⟩, h⟩
    refine ⟨fun i hi => ?_, h.opens⟩
    cases i with
    | zero =>
      rw [List.head?_eq_getElem?] at hhead
      exact ⟨p, b, rfl, hhead, hp, hb⟩
    | succ i => exact h.index i (Nat.lt_of_succ_lt_succ hi)

theorem not_spells_nil (id : ScriptNumber) (count : Nat) : ¬Spells [] id count := by
  intro h
  have hopens := h.opens
  rw [List.drop_nil] at hopens
  cases hopens

/-- **Taking index bytes off finds the spelling**, if there is one. -/
theorem scriptOf?_eq_some_iff {bytes : List UInt8} {id : ScriptNumber} {count : Nat} :
    scriptOf? bytes = some (id, count) ↔ Spells bytes id count := by
  induction bytes generalizing count with
  | nil => simp [scriptOf?, not_spells_nil]
  | cons p bytes ih =>
    -- what the front of the string says leaves only one shape for a spelling
    have hzero : Spells (p :: bytes) id 0 ↔ ∃ taken, recognize (p :: bytes) = .script id taken :=
      spells_zero_iff.trans exists_recognize_eq_script_iff.symm
    cases h : recognize (p :: bytes) with
    | pending =>
      rw [scriptOf?_of_pending h]
      cases count with
      | zero => simp [hzero, h]
      | succ count => simp [spells_succ_iff, h]
    | script id' taken =>
      rw [scriptOf?_of_script h]
      cases count with
      | zero => simp [hzero, h]
      | succ count => simp [spells_succ_iff, h]
    | collapse =>
      rw [scriptOf?_of_collapse h]
      cases count with
      | zero => simp [hzero, h]
      | succ count => simp [spells_succ_iff, h, ← ih]

/-- **A decision is final.** -/
theorem scriptOf?_append_of_some {bytes : List UInt8} {r : ScriptNumber × Nat}
    (h : scriptOf? bytes = some r) (more : List UInt8) : scriptOf? (bytes ++ more) = some r := by
  induction bytes generalizing r with
  | nil => simp [scriptOf?] at h
  | cons p bytes ih =>
    have hsame (hne : recognize (p :: bytes) ≠ .pending) :
        recognize (p :: (bytes ++ more)) = recognize (p :: bytes) := recognize_append more hne
    rw [List.cons_append]
    cases hr : recognize (p :: bytes) with
    | pending =>
      rw [scriptOf?_of_pending hr] at h
      exact absurd h (by simp)
    | script id taken =>
      rw [scriptOf?_of_script hr] at h
      rw [scriptOf?_of_script ((hsame (by simp [hr])).trans hr), h]
    | collapse =>
      rw [scriptOf?_of_collapse hr] at h
      obtain ⟨r', hr', rfl⟩ := Option.map_eq_some_iff.mp h
      rw [scriptOf?_of_collapse ((hsame (by simp [hr])).trans hr), ih hr']
      rfl

end Opcode

namespace Checked

/-! ## Taking index bytes off a log -/

/-- The bytes as a log of reads, at addresses that count them. -/
def byteLog (bytes : List UInt8) : List Access :=
  bytes.mapIdx fun i b => ⟨.ofNat i, b, { AccessMarks.memoryRead with memory := false }, "classify"⟩

theorem map_value_byteLog (bytes : List UInt8) : (byteLog bytes).map Access.value = bytes := by
  apply List.ext_getElem?
  intro i
  simp [byteLog, Function.comp_def]

/-- Takes index bytes off the log, one in a turn, up to the opcode behind them or the end. -/
def classifyFrom : Nat → List Access → Nat → Except Hazard (Option (ScriptNumber × Nat))
  | 0, _, _ => .error .endless
  | turns + 1, log, collapsed => do
    match ← dispatch log with
    | .pending => return none
    | .script id _ => return some (id, collapsed)
    | .collapse =>
      match log.tail? with
      | none => .error .noAccess
      | some rest => classifyFrom turns rest (collapsed + 1)

/-- As many turns as there are accesses, and one more, are enough. -/
theorem classifyFrom_eq {turns : Nat} {log : List Access} (h : log.length < turns)
    (collapsed : Nat) :
    classifyFrom turns log collapsed =
      .ok ((Opcode.scriptOf? (log.map Access.value)).map fun (id, n) => (id, n + collapsed)) := by
  induction turns generalizing log collapsed with
  | zero => exact absurd h (Nat.not_lt_zero _)
  | succ turns ih =>
    rw [classifyFrom, dispatch_eq]
    cases hr : recognize log with
    | pending =>
      rw [Opcode.scriptOf?_of_pending hr]
      rfl
    | script id taken =>
      rw [Opcode.scriptOf?_of_script hr]
      simp [bind, Except.bind, pure, Except.pure]
    | collapse =>
      cases log with
      | nil => simp [recognize, Opcode.recognize] at hr
      | cons a rest =>
        have hnext := ih (Nat.lt_of_succ_lt_succ h) (collapsed + 1)
        rw [List.map_cons, Opcode.scriptOf?_of_collapse hr, Option.map_map]
        refine hnext.trans ?_
        congr 2
        funext r
        simp only [Function.comp_apply, Nat.add_assoc, Nat.add_comm 1]

/-- The script of the instruction the bytes spell and the number of index bytes that collapse. -/
def classify (bytes : List UInt8) : Except Hazard (Option (ScriptNumber × Nat)) :=
  classifyFrom (bytes.length + 1) (byteLog bytes) 0

theorem classify_eq (bytes : List UInt8) : classify bytes = .ok (Opcode.scriptOf? bytes) := by
  have hturns : (byteLog bytes).length < bytes.length + 1 := by simp [byteLog]
  rw [classify, classifyFrom_eq hturns, map_value_byteLog]
  simp

end Checked

namespace Opcode

/--
**Classification of strings of bytes.**

Every string is classified, with no hazard on the way, and what is found is its spelling: the index
bytes that collapse are counted and the script is that of the opcode behind them. Nothing is found
only where nothing is spelled. What a string or a log decides, all its extensions decide alike.
-/
theorem classify_iff_spells (bytes : List UInt8) (log : List Access) :
    (Checked.classify bytes = .ok (scriptOf? bytes) ∧
      (∀ id count, scriptOf? bytes = some (id, count) ↔ Spells bytes id count) ∧
      ∀ r, scriptOf? bytes = some r → ∀ more, scriptOf? (bytes ++ more) = some r) ∧
    Checked.dispatch log = .ok (Capture.recognize log) ∧
      (Capture.recognize log ≠ .pending →
        ∀ more, Capture.recognize (log ++ more) = Capture.recognize log) := by
  refine ⟨⟨Checked.classify_eq bytes, ?_, ?_⟩, Checked.dispatch_eq log, ?_⟩
  · intro id count
    exact scriptOf?_eq_some_iff
  · intro r hr more
    exact scriptOf?_append_of_some hr more
  · intro hne more
    exact recognize_log_append more hne

/-- `ADD IY,BC` behind another index byte, and `LDIR`. -/
theorem classify_iff_spells_add :
    Spells [0xDD, 0xFD, 0x09] 4 2 ∧
    (∀ more, scriptOf? ([0xDD, 0xFD, 0x09] ++ more) = some (4, 2)) ∧
    ∀ more, Capture.recognize ([⟨0x4000, 0xED, .memoryRead, ""⟩,
      ⟨0x4001, 0xB0, .memoryRead, ""⟩] ++ more) = .script 33 false := by
  obtain ⟨⟨_, hspells, hlonger⟩, _, hfinal⟩ := classify_iff_spells [0xDD, 0xFD, 0x09]
    [⟨0x4000, 0xED, .memoryRead, ""⟩, ⟨0x4001, 0xB0, .memoryRead, ""⟩]
  exact ⟨(hspells 4 2).mp (by decide), hlonger (4, 2) (by decide), hfinal (by decide)⟩

end Opcode

end SpectrumTiming
