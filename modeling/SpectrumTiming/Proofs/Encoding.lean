import SpectrumTiming.Opcode.Duration
import SpectrumTiming.Proofs.IndexBytes
import SpectrumTiming.Proofs.Scripts

/-!
# Encodings of an instruction

An `Encoding` is a whole instruction as it is fetched: any number of index bytes and then an opcode
of one of the five sets. It says what an executor that follows the manuals fetches and which times
it looks up on the way.

The opcode classes, the durations and the scripts are written down apart from each other. Here they
are held against each other, set by set. The outcome is the same for every encoding
(`Encoding.exists_splits`): some index bytes collapse, the bytes behind them tell a script, and the
times that are looked up are four T-states for each byte that collapses and the length of the script.
-/

namespace SpectrumTiming

open Standard

namespace Opcode

/-- A byte that only leads to another opcode. -/
def leads (b : UInt8) : Bool := b = 0xCB || b = 0xED || isIndexByte b

/-- The primary opcodes that take longer if they branch: `DJNZ`, and `JR`, `CALL` and `RET` on a
condition. -/
def branches (op : UInt8) : Bool :=
  quadrant op = 0 && column op = 0 && (row op = 2 || 4 ≤ row op) ||
    quadrant op = 3 && (column op = 0 || column op = 4)

/-- The opcodes behind `ED` that may repeat. -/
def repeats (op : UInt8) : Bool := quadrant op = 2 && 6 ≤ row op && column op < 4

/-- What the tables say of an opcode is what a script says. -/
structure Timed (id : ScriptNumber) (bytes : Nat) (table : Table) (op : UInt8)
    (forced conditional : Bool) : Prop where
  duration : duration table op = (extent id).length forced
  /-- The script accounts for every byte of the instruction. -/
  bytes : bytes ≤ (extent id).slots
  extra : conditional = true →
    forced = false ∧ Opcode.duration .extra op = (extent id).optional

instance (id : ScriptNumber) (bytes : Nat) (table : Table) (op : UInt8)
    (forced conditional : Bool) : Decidable (Timed id bytes table op forced conditional) :=
  decidable_of_iff
    (duration table op = (extent id).length forced ∧ bytes ≤ (extent id).slots ∧
      (conditional = true → forced = false ∧ duration .extra op = (extent id).optional))
    ⟨fun ⟨h1, h2, h3⟩ => ⟨h1, h2, h3⟩, fun ⟨h1, h2, h3⟩ => ⟨h1, h2, h3⟩⟩

theorem forall_byte {p : UInt8 → Prop} (h : ∀ n < 256, p (.ofNat n)) (b : UInt8) : p b := by
  simpa using h b.toNat b.toNat_lt

/-! ## The tables -/

theorem primary_timed : ∀ op, leads op = false →
    ∃ id, primary op = .script id ∧ Timed id 1 .primary op (alwaysTaken op) (branches op) :=
  forall_byte (by decide +kernel)

theorem bit_timed : ∀ op, Timed (bit op) 2 .bit op false false :=
  forall_byte (by decide +kernel)

theorem extended_timed : ∀ op,
    ∃ id, recognizeExtended [op] = .script id false ∧ Timed id 2 .extended op false (repeats op) :=
  forall_byte (by decide +kernel)

/-- Behind an index byte an opcode has a script of its own, or the index byte collapses and its time
is on top of the primary one. -/
theorem indexed_timed : ∀ op, leads op = false →
    (∃ id, indexed op = .script id ∧ alwaysTaken op = false ∧
      Timed id 2 .indexed op false (branches op)) ∨
    (collapses op = true ∧ duration .indexed op = indexCycles + duration .primary op) :=
  forall_byte (by decide +kernel)

theorem indexedBit_timed : ∀ op, Timed (indexedBit op) 4 .indexedBit op false false :=
  forall_byte (by decide +kernel)

theorem duration_of_isIndexByte {b : UInt8} (h : isIndexByte b = true) :
    duration .indexed b = indexCycles := by
  simp only [isIndexByte, Bool.or_eq_true, decide_eq_true_eq] at h
  rcases h with rfl | rfl <;> rfl

theorem isIndexByte_of_primary : ∀ b, primary b = .index → isIndexByte b = true :=
  forall_byte (by decide +kernel)

theorem isIndexByte_of_collapse {b : UInt8} {rest : List UInt8}
    (h : recognize (b :: rest) = .collapse) : isIndexByte b = true := by
  rw [recognize] at h
  cases hp : primary b with
  | script id => simp [hp] at h
  | cb => cases rest <;> simp [hp, recognizeBit] at h
  | ed =>
    cases rest with
    | nil => simp [hp, recognizeExtended] at h
    | cons op rest => cases he : extended op <;> simp [hp, recognizeExtended, he] at h
  | index => exact isIndexByte_of_primary b hp

theorem scriptOf?_append {front core : List UInt8} {id : ScriptNumber} {forced : Bool} {b : UInt8}
    (hfront : ∀ p ∈ front, isIndexByte p = true) (hb : core.head? = some b)
    (hc : front = [] ∨ collapses b = true) (hcore : recognize core = .script id forced) :
    scriptOf? (front ++ core) = some (id, front.length) := by
  obtain ⟨rest, rfl⟩ := List.head?_eq_some_iff.mp hb
  induction front with
  | nil => simp [scriptOf?, hcore]
  | cons p front ih =>
    obtain ⟨hp, hrest⟩ := List.forall_mem_cons.mp hfront
    have hcol : collapses b = true := hc.resolve_left (List.cons_ne_nil _ _)
    have hrec : recognize (p :: (front ++ b :: rest)) = .collapse := by
      cases front with
      | nil => exact recognize_of_collapses _ hp hcol
      | cons q front =>
        have hq := collapses_of_isIndexByte (hrest q (List.mem_cons_self ..))
        exact recognize_of_collapses _ hp hq
    simp only [List.cons_append, scriptOf?, hrec, ih hrest (Or.inr hcol), Option.map_some,
      List.length_cons]

end Opcode

/-! ## Encodings -/

/-- One of the bytes `DD` and `FD`. -/
abbrev IndexByte := { b : UInt8 // Opcode.isIndexByte b = true }

/-- A whole instruction. -/
inductive Encoding
  | primary (op : UInt8) (plain : Opcode.leads op = false)
  | bit (op : UInt8)
  | extended (front : List IndexByte) (op : UInt8)
  | indexed (front : List IndexByte) (last : IndexByte) (op : UInt8)
      (plain : Opcode.leads op = false)
  | indexedBit (front : List IndexByte) (last : IndexByte) (displacement op : UInt8)

namespace Encoding

open Opcode

/-- Bytes of which all but the first follow an index byte, each with the time that is looked up for
it there. -/
def chain : List UInt8 → List (UInt8 × Option Nat)
  | [] => []
  | b :: rest => (b, none) :: rest.map fun b => (b, some (duration .indexed b))

/-- The bytes in the order they are fetched, each with the time that is reported behind it. -/
def fetches : Encoding → List (UInt8 × Option Nat)
  | .primary op _ => [(op, some (duration .primary op))]
  | .bit op => [(0xCB, none), (op, some (duration .bit op))]
  | .extended front op =>
    chain (front.map (·.val) ++ [0xED]) ++ [(op, some (duration .extended op))]
  | .indexed front last op _ => chain (front.map (·.val) ++ [last.val, op])
  | .indexedBit front last displacement op =>
    chain (front.map (·.val) ++ [last.val]) ++
      [(0xCB, none), (displacement, none), (op, some (duration .indexedBit op))]

def bytes (e : Encoding) : List UInt8 := e.fetches.map Prod.fst

/-- The times that are reported while the bytes are fetched. -/
def reports (e : Encoding) : List (Option Nat) := e.fetches.map Prod.snd

/-- T-states the instruction is documented to take if it does not branch. -/
def documented (e : Encoding) : Nat := (e.reports.map (·.getD 0)).sum

/-- The byte that names the instruction. -/
def opcode : Encoding → UInt8
  | .primary op _ | .bit op | .extended _ op | .indexed _ _ op _ | .indexedBit _ _ _ op => op

/-- Whether the optional path is always taken. -/
def forced : Encoding → Bool
  | .primary op _ | .indexed _ _ op _ => alwaysTaken op
  | .bit _ | .extended _ _ | .indexedBit _ _ _ _ => false

/-- Whether the optional path may be taken or not. -/
def conditional : Encoding → Bool
  | .primary op _ | .indexed _ _ op _ => branches op
  | .extended _ op => repeats op
  | .bit _ | .indexedBit _ _ _ _ => false

/-- What comes on top if the optional path is taken. -/
def extra (e : Encoding) (taken : Bool) : Nat := if taken then duration .extra e.opcode else 0

theorem chain_bytes (bs : List UInt8) : (chain bs).map Prod.fst = bs := by
  cases bs with
  | nil => rfl
  | cons b rest => simp [chain, Function.comp_def]

theorem sum_index {ps : List UInt8} (hps : ∀ p ∈ ps, isIndexByte p = true) :
    (ps.map (duration .indexed)).sum = indexCycles * ps.length := by
  induction ps with
  | nil => rfl
  | cons p ps ih =>
    obtain ⟨hp, hrest⟩ := List.forall_mem_cons.mp hps
    rw [List.map_cons, List.sum_cons, duration_of_isIndexByte hp, ih hrest, List.length_cons,
      Nat.mul_succ, Nat.add_comm]

/-- What is looked up along a chain: four T-states for each index byte in front, and then the times
of the bytes behind them. -/
theorem sum_chain {front : List UInt8} (hfront : ∀ p ∈ front, isIndexByte p = true) {x : UInt8}
    (hx : duration .indexed x = indexCycles) (rest : List UInt8) :
    (((chain (front ++ x :: rest)).map Prod.snd).map (·.getD 0)).sum =
      indexCycles * front.length + (rest.map (duration .indexed)).sum := by
  have hchain : ∀ (b : UInt8) (bs : List UInt8),
      (((chain (b :: bs)).map Prod.snd).map (·.getD 0)).sum = (bs.map (duration .indexed)).sum := by
    intro b bs
    simp only [chain, List.map_cons, List.map_map, Option.getD_none, List.sum_cons, Nat.zero_add]
    rfl
  cases front with
  | nil => rw [List.nil_append, hchain, List.length_nil, Nat.mul_zero, Nat.zero_add]
  | cons p ps =>
    obtain ⟨_, hps⟩ := List.forall_mem_cons.mp hfront
    rw [List.cons_append, hchain, List.map_append, List.sum_append, sum_index hps, List.map_cons,
      List.sum_cons, hx, List.length_cons, Nat.mul_succ, Nat.add_assoc]

/-- An encoding falls into index bytes that collapse and an instruction that tells its script. -/
structure Splits (e : Encoding) (front core : List UInt8) (id : ScriptNumber) : Prop where
  bytes : e.bytes = front ++ core
  index : ∀ p ∈ front, isIndexByte p = true
  head : ∃ b, core.head? = some b ∧ (front = [] ∨ collapses b = true)
  recognized : recognize core = .script id e.forced
  documented : e.documented = indexCycles * front.length + (extent id).length e.forced
  /-- The script accounts for every byte that stays in the log. -/
  logged : core.length ≤ (extent id).slots
  extra : e.conditional = true →
    e.forced = false ∧ duration .extra e.opcode = (extent id).optional

theorem isIndexByte_of_mem (front : List IndexByte) :
    ∀ p ∈ front.map (·.val), isIndexByte p = true := by
  intro p hp
  obtain ⟨q, _, rfl⟩ := List.mem_map.mp hp
  exact q.property

theorem exists_splits_indexed (front : List IndexByte) (last : IndexByte) (op : UInt8)
    (plain : leads op = false) :
    ∃ front' core id, (Encoding.indexed front last op plain).Splits front' core id := by
  have hlast : duration .indexed last.val = indexCycles := duration_of_isIndexByte last.property
  have hbytes : (Encoding.indexed front last op plain).bytes =
      front.map (·.val) ++ [last.val, op] := chain_bytes _
  have hdocumented : (Encoding.indexed front last op plain).documented =
      indexCycles * (front.map (·.val)).length + duration .indexed op :=
    sum_chain (isIndexByte_of_mem front) hlast [op]
  rcases indexed_timed op plain with ⟨id, hid, hfree, htimed⟩ | ⟨hcol, hdur⟩
  · -- an opcode with a script of its own: the last index byte belongs to it
    refine ⟨front.map (·.val), [last.val, op], id, ⟨hbytes, isIndexByte_of_mem front,
      ⟨last.val, rfl, Or.inr (collapses_of_isIndexByte last.property)⟩, ?_, ?_, htimed.bytes, ?_⟩⟩
    · simp only [recognize, primary_of_isIndexByte last.property, recognizeIndexed, hid, forced,
        hfree]
    · rw [hdocumented, htimed.duration]
      simp only [forced, hfree]
    · intro hbranch
      exact ⟨hfree, (htimed.extra hbranch).2⟩
  · -- a primary opcode: the last index byte collapses too
    obtain ⟨id, hid, htimed⟩ := primary_timed op plain
    refine ⟨front.map (·.val) ++ [last.val], [op], id, ⟨?_, ?_, ⟨op, rfl, Or.inr hcol⟩, ?_, ?_,
      htimed.bytes, htimed.extra⟩⟩
    · rw [hbytes, List.append_assoc]
      rfl
    · intro p hp
      rcases List.mem_append.mp hp with hp | hp
      · exact isIndexByte_of_mem front p hp
      · rw [List.mem_singleton.mp hp]
        exact last.property
    · simp only [recognize, hid, forced]
    · rw [hdocumented, hdur, htimed.duration, List.length_append, List.length_singleton,
        Nat.mul_succ, Nat.add_assoc]
      rfl

/-- **The tables agree on every encoding.** -/
theorem exists_splits (e : Encoding) : ∃ front core id, e.Splits front core id := by
  cases e with
  | primary op plain =>
    obtain ⟨id, hid, htimed⟩ := primary_timed op plain
    refine ⟨[], [op], id, ⟨rfl, by simp, ⟨op, rfl, Or.inl rfl⟩, ?_, ?_, htimed.bytes, htimed.extra⟩⟩
    · simp only [recognize, hid, forced]
    · rw [List.length_nil, Nat.mul_zero, Nat.zero_add]
      exact htimed.duration
  | bit op =>
    have htimed := bit_timed op
    refine ⟨[], [0xCB, op], Opcode.bit op, ⟨rfl, by simp, ⟨0xCB, rfl, Or.inl rfl⟩, rfl, ?_,
      htimed.bytes, htimed.extra⟩⟩
    have hown : 0 + (duration .bit op + 0) = (extent (Opcode.bit op)).length false := by
      rw [Nat.zero_add]
      exact htimed.duration
    rw [List.length_nil, Nat.mul_zero, Nat.zero_add]
    exact hown
  | extended front op =>
    obtain ⟨id, hid, htimed⟩ := extended_timed op
    have hsum := sum_chain (isIndexByte_of_mem front) (x := 0xED) rfl []
    refine ⟨front.map (·.val), [0xED, op], id, ⟨?_, isIndexByte_of_mem front,
      ⟨0xED, rfl, Or.inr (by decide)⟩, hid, ?_, htimed.bytes, htimed.extra⟩⟩
    · simp [bytes, fetches, chain_bytes]
    · simp only [documented, reports, fetches, List.map_append, List.sum_append, hsum]
      exact congrArg _ htimed.duration
  | indexed front last op plain => exact exists_splits_indexed front last op plain
  | indexedBit front last displacement op =>
    have htimed := indexedBit_timed op
    have hlast : duration .indexed last.val = indexCycles := duration_of_isIndexByte last.property
    have hsum := sum_chain (isIndexByte_of_mem front) hlast []
    refine ⟨front.map (·.val), [last.val, 0xCB, displacement, op], Opcode.indexedBit op, ⟨?_,
      isIndexByte_of_mem front, ⟨last.val, rfl, Or.inr (collapses_of_isIndexByte last.property)⟩,
      ?_, ?_, htimed.bytes, htimed.extra⟩⟩
    · simp [bytes, fetches, chain_bytes]
    · simp only [recognize, primary_of_isIndexByte last.property, recognizeIndexed]
      rfl
    · have hown : 0 + (0 + (duration .indexedBit op + 0)) =
          (extent (Opcode.indexedBit op)).length false := by
        rw [Nat.zero_add, Nat.zero_add]
        exact htimed.duration
      simp only [documented, reports, fetches, List.map_append, List.sum_append, hsum]
      exact congrArg _ hown

/-- The times that are reported are the T-states of the path, on top of the index bytes. -/
theorem Splits.documented_add_extra {e : Encoding} {front core : List UInt8} {id : ScriptNumber}
    (h : e.Splits front core id) {taken : Bool} (htaken : taken = true → e.conditional = true)
    (v : Variant) :
    indexCycles * front.length + (script v id).totalOn (taken || e.forced) =
      e.documented + e.extra taken := by
  rw [h.documented, totalOn_script]
  cases taken with
  | false => rfl
  | true =>
    obtain ⟨hfree, hextra⟩ := h.extra (htaken rfl)
    simp only [Encoding.extra, Extent.length, hfree, hextra, Bool.true_or, if_true,
      Bool.false_eq_true, if_false, Nat.add_zero, Nat.add_assoc]

theorem Splits.scriptOf? {e : Encoding} {front core : List UInt8} {id : ScriptNumber}
    (h : e.Splits front core id) : Opcode.scriptOf? e.bytes = some (id, front.length) := by
  obtain ⟨b, hb, hc⟩ := h.head
  rw [h.bytes]
  exact scriptOf?_append h.index hb hc h.recognized

end Encoding

end SpectrumTiming
