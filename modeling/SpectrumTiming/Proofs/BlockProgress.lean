import SpectrumTiming.Proofs.Results

/-!
# How far a block instruction has come

A block instruction that repeats handles one byte and then sets the program counter back onto itself.
What it works on, that is the accumulator, the flags, the three pairs, memory and the ports, does not
depend on where it was fetched from: it goes through the states of `Block.handled`, in which bytes
are handled one after the other and nothing else happens (`data_block`).

So everything about these states is said once, whether the instruction is called again and again or
fetched anew each time: where the pointers stand, which bytes have been written, what the flags show,
and when it stops (`goesOn_handled`).
-/

namespace SpectrumTiming.Z80

/-! ## Counters -/

/-- How many steps a counter of `size` values lasts that is lowered before it is compared with zero.
One that begins at zero goes through all values. -/
def lasts (size count : Nat) : Nat := if count = 0 then size else count

theorem lasts_pos {size count : Nat} (hcount : count < size) : 0 < lasts size count := by
  unfold lasts
  split <;> omega

theorem lasts_le {size count : Nat} (hcount : count < size) : lasts size count ≤ size := by
  unfold lasts
  split <;> omega

theorem eq_mod_iff_eq_lasts {size count i : Nat} (hcount : count < size) (hpos : 0 < i)
    (hi : i ≤ lasts size count) : count = i % size ↔ i = lasts size count := by
  unfold lasts at hi ⊢
  by_cases hzero : count = 0
  · rw [if_pos hzero] at hi ⊢
    rcases Nat.lt_or_eq_of_le hi with hlt | heq
    · rw [Nat.mod_eq_of_lt hlt]
      omega
    · rw [heq, Nat.mod_self]
      omega
  · rw [if_neg hzero] at hi ⊢
    rw [Nat.mod_eq_of_lt (by omega)]
    exact eq_comm

/-- How many steps a pair lasts as a counter. -/
def wordCount (w : UInt16) : Nat := lasts 0x10000 w.toNat

/-- How many steps a register lasts as a counter. -/
def byteCount (b : UInt8) : Nat := lasts 0x100 b.toNat

theorem wordCount_le (w : UInt16) : wordCount w ≤ 0x10000 := lasts_le w.toNat_lt

theorem byteCount_le (b : UInt8) : byteCount b ≤ 0x100 := lasts_le b.toNat_lt

theorem sub_eq_zero_iff_wordCount {w : UInt16} {i : Nat} (hpos : 0 < i) (hi : i ≤ wordCount w) :
    w - .ofNat i = 0 ↔ i = wordCount w := by
  rw [UInt16.sub_eq_iff_eq_add, UInt16.zero_add, ← UInt16.toNat_inj, UInt16.toNat_ofNat']
  exact eq_mod_iff_eq_lasts w.toNat_lt hpos hi

theorem sub_eq_zero_iff_byteCount {b : UInt8} {i : Nat} (hpos : 0 < i) (hi : i ≤ byteCount b) :
    b - .ofNat i = 0 ↔ i = byteCount b := by
  rw [UInt8.sub_eq_iff_eq_add, UInt8.zero_add, ← UInt8.toNat_inj, UInt8.toNat_ofNat']
  exact eq_mod_iff_eq_lasts b.toNat_lt hpos hi

theorem word_sub_succ (w : UInt16) (i : Nat) : w - .ofNat (i + 1) = w - .ofNat i - 1 := by
  have hsucc : UInt16.ofNat (i + 1) = .ofNat i + 1 := UInt16.ofNat_add i 1
  rw [hsucc]
  grind

theorem word_add_two_ne (w : UInt16) : w + 2 ≠ w := by
  intro hsame
  have htwo : (2 : UInt16) = 0 := by
    rw [← UInt16.add_right_inj w, hsame, UInt16.add_zero]
  exact absurd htwo (by decide)

theorem byte_sub_succ (b : UInt8) (i : Nat) : b - .ofNat (i + 1) = b - .ofNat i - 1 := by
  have hsucc : UInt8.ofNat (i + 1) = .ofNat i + 1 := UInt8.ofNat_add i 1
  rw [hsucc]
  grind

namespace Block

/-! ## Pointers -/

/-- Where a pointer stands after so many bytes. -/
def pointer (b : Block) (w : UInt16) (i : Nat) : UInt16 :=
  if b.down then w - .ofNat i else w + .ofNat i

@[simp] theorem pointer_zero (b : Block) (w : UInt16) : b.pointer w 0 = w := by
  unfold pointer
  split
  · show w - 0 = w
    exact UInt16.sub_zero w
  · exact UInt16.add_zero w

theorem pointer_succ (b : Block) (w : UInt16) (i : Nat) :
    b.pointer w (i + 1) = b.pointer w i + b.stride := by
  have hsucc : UInt16.ofNat (i + 1) = .ofNat i + 1 := UInt16.ofNat_add i 1
  unfold pointer stride
  rw [hsucc]
  split <;> grind

/-- A pointer comes to no address twice before it has been everywhere. -/
theorem pointer_inj {b : Block} {w : UInt16} {i j : Nat} (hi : i < 0x10000) (hj : j < 0x10000) :
    b.pointer w i = b.pointer w j ↔ i = j := by
  have hnat : UInt16.ofNat i = .ofNat j ↔ i = j := by
    rw [← UInt16.toNat_inj, UInt16.toNat_ofNat', UInt16.toNat_ofNat', Nat.mod_eq_of_lt hi,
      Nat.mod_eq_of_lt hj]
  unfold pointer
  split
  · rw [UInt16.sub_right_inj, hnat]
  · rw [UInt16.add_right_inj, hnat]

/-- The instruction in the other direction. -/
def reversed (b : Block) : Block := { b with down := !b.down }

/-- From the far end, the way back goes over the same addresses. -/
theorem pointer_reversed (b : Block) (w : UInt16) {i m : Nat} (hi : i ≤ m) :
    b.reversed.pointer (b.pointer w m) i = b.pointer w (m - i) := by
  have hm : UInt16.ofNat m = .ofNat (m - i) + .ofNat i := by
    rw [← UInt16.ofNat_add, Nat.sub_add_cancel hi]
  unfold pointer reversed
  rw [hm]
  cases b.down
  · show w + (.ofNat (m - i) + .ofNat i) - .ofNat i = w + .ofNat (m - i)
    grind
  · show w - (.ofNat (m - i) + .ofNat i) + .ofNat i = w - .ofNat (m - i)
    grind

/-! ## One byte -/

variable {b : Block}

theorem blockOnce_transfer (h : b.kind = .transfer) (s : State) :
    (blockOnce b).state s =
      { s with
        memory := s.memory.write s.regs.de (s.memory s.regs.hl)
        regs := { s.regs with
          hl := s.regs.hl + b.stride
          de := s.regs.de + b.stride
          bc := s.regs.bc - 1
          f := s.regs.f.afterTransfer s.regs.a (s.memory s.regs.hl) (s.regs.bc - 1 ≠ 0) } } := by
  obtain ⟨kind, down, repeats⟩ := b
  cases h
  rfl

theorem blockOnce_compare (h : b.kind = .compare) (s : State) :
    (blockOnce b).state s =
      { s with
        regs := { s.regs with
          hl := s.regs.hl + b.stride
          bc := s.regs.bc - 1
          wz := s.regs.wz + b.stride
          f := s.regs.f.afterCompare s.regs.a (s.memory s.regs.hl) (s.regs.bc - 1 ≠ 0) } } := by
  obtain ⟨kind, down, repeats⟩ := b
  cases h
  rfl

theorem blockOnce_input (h : b.kind = .input) (s : State) :
    (blockOnce b).state s =
      { s with
        memory := s.memory.write s.regs.hl (s.ports s.regs.bc)
        regs := { s.regs with
          hl := s.regs.hl + b.stride
          bc := join (s.regs.b - 1) s.regs.c
          wz := s.regs.bc + b.stride
          f := .ofPort (s.regs.b - 1) (s.ports s.regs.bc)
            ((s.regs.c + low b.stride).toNat + (s.ports s.regs.bc).toNat) } } := by
  obtain ⟨kind, down, repeats⟩ := b
  cases h
  rfl

theorem blockOnce_output (h : b.kind = .output) (s : State) :
    (blockOnce b).state s =
      { s with
        regs := { s.regs with
          hl := s.regs.hl + b.stride
          bc := join (s.regs.b - 1) s.regs.c
          wz := join (s.regs.b - 1) s.regs.c + b.stride
          f := .ofPort (s.regs.b - 1) (s.memory s.regs.hl)
            ((low (s.regs.hl + b.stride)).toNat + (s.memory s.regs.hl).toNat) } } := by
  obtain ⟨kind, down, repeats⟩ := b
  cases h
  rfl

end Block

/-- What block instructions work on: a state without the registers that follow the program. -/
def State.data (s : State) : State := { s with regs := { s.regs with pc := 0, wz := 0, r := 0 } }

/-- What happens to the data depends on the data alone. -/
theorem data_blockOnce (b : Block) (s : State) :
    ((blockOnce b).state s).data = ((blockOnce b).state s.data).data := by
  obtain ⟨kind, down, repeats⟩ := b
  cases kind <;> rfl

theorem actions_blockOnce (b : Block) (s : State) :
    (blockOnce b).actions s = (blockOnce b).actions s.data := by
  obtain ⟨kind, down, repeats⟩ := b
  cases kind <;> rfl

theorem goesOn_data (s : State) (kind : BlockKind) :
    s.data.regs.goesOn kind = s.regs.goesOn kind := by
  cases kind <;> rfl

/-- A block instruction handles a byte and, if it goes on, sets the program counter back. -/
theorem state_block (b : Block) (s : State) :
    (block b).state s =
      if b.repeats && ((blockOnce b).state s).regs.goesOn b.kind then
        { (blockOnce b).state s with regs := ((blockOnce b).state s).regs.rewind b.kind }
      else (blockOnce b).state s := by
  have hbind : (block b).state s = Work.state
      (if b.repeats && ((blockOnce b).state s).regs.goesOn b.kind then do
          take b.opcode
          update (·.rewind b.kind)
        else pure ()) ((blockOnce b).state s) := rfl
  rw [hbind]
  split <;> rfl

/-- Setting the program counter back is nothing to the data. -/
theorem data_block (b : Block) (s : State) :
    ((block b).state s).data = ((blockOnce b).state s).data := by
  rw [state_block]
  split
  · cases b.kind <;> rfl
  · rfl

theorem pc_blockOnce (b : Block) (s : State) : ((blockOnce b).state s).regs.pc = s.regs.pc := by
  obtain ⟨kind, down, repeats⟩ := b
  cases kind <;> rfl

theorem pc_block (b : Block) (s : State) :
    ((block b).state s).regs.pc =
      if b.repeats && ((blockOnce b).state s).regs.goesOn b.kind then s.regs.pc - 2
      else s.regs.pc := by
  rw [state_block]
  split
  · rw [← pc_blockOnce b s]
    cases b.kind <;> rfl
  · exact pc_blockOnce b s

namespace Block

/-! ## Byte by byte -/

/-- The state when so many bytes have been handled and nothing else has been done. -/
def handled (b : Block) (s : State) : Nat → State
  | 0 => s
  | i + 1 => (blockOnce b).state (b.handled s i)

variable {b : Block} (s : State) (i : Nat)

/-- The same holds of any state with the same data. -/
theorem data_blockOnce_handled {s' : State} (h : s'.data = (b.handled s i).data) :
    ((blockOnce b).state s').data = (b.handled s (i + 1)).data := by
  rw [data_blockOnce, h, ← data_blockOnce]
  rfl

@[simp] theorem hl_handled : (b.handled s i).regs.hl = b.pointer s.regs.hl i := by
  induction i with
  | zero => exact (b.pointer_zero _).symm
  | succ i ih =>
    have hstep : (b.handled s (i + 1)).regs.hl = (b.handled s i).regs.hl + b.stride := by
      obtain ⟨kind, down, repeats⟩ := b
      cases kind <;> rfl
    rw [hstep, ih, pointer_succ]

@[simp] theorem a_handled : (b.handled s i).regs.a = s.regs.a := by
  induction i with
  | zero => rfl
  | succ i ih =>
    rw [← ih]
    obtain ⟨kind, down, repeats⟩ := b
    cases kind <;> rfl

@[simp] theorem ports_handled : (b.handled s i).ports = s.ports := by
  induction i with
  | zero => rfl
  | succ i ih =>
    rw [← ih]
    obtain ⟨kind, down, repeats⟩ := b
    cases kind <;> rfl

theorem de_handled (h : b.kind = .transfer) :
    (b.handled s i).regs.de = b.pointer s.regs.de i := by
  induction i with
  | zero => exact (b.pointer_zero _).symm
  | succ i ih => rw [handled, blockOnce_transfer h, pointer_succ, ih]

theorem bc_handled (h : b.kind = .transfer ∨ b.kind = .compare) :
    (b.handled s i).regs.bc = s.regs.bc - .ofNat i := by
  induction i with
  | zero => exact (UInt16.sub_zero _).symm
  | succ i ih =>
    rw [handled, word_sub_succ, ← ih]
    rcases h with h | h
    · rw [blockOnce_transfer h]
    · rw [blockOnce_compare h]

/-- A block instruction that uses a port lowers B and leaves C alone. -/
theorem bc_handled_succ (h : b.kind = .input ∨ b.kind = .output) :
    (b.handled s (i + 1)).regs.bc =
      join ((b.handled s i).regs.b - 1) (b.handled s i).regs.c := by
  rw [handled]
  rcases h with h | h
  · rw [blockOnce_input h]
  · rw [blockOnce_output h]

theorem b_handled (h : b.kind = .input ∨ b.kind = .output) :
    (b.handled s i).regs.b = s.regs.b - .ofNat i := by
  induction i with
  | zero => exact (UInt8.sub_zero _).symm
  | succ i ih => rw [Registers.b, bc_handled_succ s i h, high_join, ih, byte_sub_succ]

theorem c_handled (h : b.kind = .input ∨ b.kind = .output) :
    (b.handled s i).regs.c = s.regs.c := by
  induction i with
  | zero => rfl
  | succ i ih => rw [Registers.c, bc_handled_succ s i h, low_join, ih]

/-! ## What is written -/

/-- Where the next byte is written, if anywhere. -/
def target? (b : Block) (r : Registers) (i : Nat) : Option UInt16 :=
  match b.kind with
  | .transfer => some (b.pointer r.de i)
  | .input => some (b.pointer r.hl i)
  | .compare | .output => none

theorem target?_of_reads (h : b.kind = .compare ∨ b.kind = .output) (r : Registers) :
    b.target? r i = none := by
  unfold target?
  rcases h with h | h <;> rw [h]

theorem target?_of_transfer (h : b.kind = .transfer) (r : Registers) :
    b.target? r i = some (b.pointer r.de i) := by
  unfold target?
  rw [h]

theorem target?_of_input (h : b.kind = .input) (r : Registers) :
    b.target? r i = some (b.pointer r.hl i) := by
  unfold target?
  rw [h]

/-- The byte that is moved or compared next. -/
def byteAt (b : Block) (s : State) (i : Nat) : UInt8 :=
  match b.kind with
  | .input => s.ports (b.handled s i).regs.bc
  | .transfer | .compare | .output => (b.handled s i).memory (b.pointer s.regs.hl i)

theorem memory_handled_succ (a : UInt16) :
    (b.handled s (i + 1)).memory a =
      if b.target? s.regs i = some a then b.byteAt s i else (b.handled s i).memory a := by
  rw [handled]
  unfold target? byteAt
  cases h : b.kind with
  | transfer =>
    rw [blockOnce_transfer h, hl_handled, de_handled s i h]
    simp only [Memory.write, Option.some.injEq, eq_comm]
  | compare =>
    rw [blockOnce_compare h]
    rfl
  | input =>
    rw [blockOnce_input h, hl_handled, ports_handled]
    simp only [Memory.write, Option.some.injEq, eq_comm]
  | output =>
    rw [blockOnce_output h]
    rfl

/-- Where nothing has been written, memory is as it was. -/
theorem memory_handled_of_ne {a : UInt16} (h : ∀ j < i, b.target? s.regs j ≠ some a) :
    (b.handled s i).memory a = s.memory a := by
  induction i with
  | zero => rfl
  | succ i ih =>
    rw [memory_handled_succ, if_neg (h i (Nat.lt_succ_self i))]
    exact ih fun j hj => h j (Nat.lt_succ_of_lt hj)

theorem memory_handled_of_reads (h : b.kind = .compare ∨ b.kind = .output) :
    (b.handled s i).memory = s.memory := by
  funext a
  refine memory_handled_of_ne s i fun j _ => ?_
  rw [target?_of_reads j h]
  exact Option.some_ne_none a |>.symm

theorem target?_inj {r : Registers} {i j : Nat} (hi : i < 0x10000) (hj : j < 0x10000)
    {a : UInt16} (hia : b.target? r i = some a) (hja : b.target? r j = some a) : i = j := by
  cases h : b.kind with
  | transfer =>
    rw [target?_of_transfer i h] at hia
    rw [target?_of_transfer j h] at hja
    exact (pointer_inj hi hj).mp (Option.some.inj (hia.trans hja.symm))
  | input =>
    rw [target?_of_input i h] at hia
    rw [target?_of_input j h] at hja
    exact (pointer_inj hi hj).mp (Option.some.inj (hia.trans hja.symm))
  | compare => simp [target?_of_reads i (.inl h)] at hia
  | output => simp [target?_of_reads i (.inr h)] at hia

/-- A byte that has been written stays, since no later one is written to the same place. -/
theorem memory_handled_of_target {a : UInt16} {n : Nat} (hn : n ≤ 0x10000) (hi : i < n)
    (h : b.target? s.regs i = some a) : (b.handled s n).memory a = b.byteAt s i := by
  induction n with
  | zero => exact absurd hi (Nat.not_lt_zero i)
  | succ n ih =>
    rw [memory_handled_succ]
    rcases Nat.lt_or_eq_of_le (Nat.le_of_lt_succ hi) with hlt | rfl
    · have hne : b.target? s.regs n ≠ some a := fun hna =>
        absurd (target?_inj (by omega) (by omega) h hna) (Nat.ne_of_lt hlt)
      rw [if_neg hne]
      exact ih (by omega) hlt
    · rw [if_pos h]

/-- **What has been written stays, and nothing else changes**, as long as the pointer to where it
goes has not been everywhere. -/
theorem memory_handled {p : Nat → UInt16} (hp : ∀ j, b.target? s.regs j = some (p j)) {n : Nat}
    (hn : n ≤ 0x10000) :
    (∀ j < n, (b.handled s n).memory (p j) = b.byteAt s j) ∧
      ∀ a, (∀ j < n, a ≠ p j) → (b.handled s n).memory a = s.memory a := by
  constructor
  · intro j hj
    exact memory_handled_of_target s j hn hj (hp j)
  · intro a ha
    refine memory_handled_of_ne s n fun j hj heq => ?_
    rw [hp j] at heq
    exact ha j hj (Option.some.inj heq).symm

/-! ## When it stops -/

/-- The first byte of the block that equals the accumulator. -/
def match? (b : Block) (s : State) : Option Nat :=
  (List.range (wordCount s.regs.bc)).find? fun i =>
    s.memory (b.pointer s.regs.hl i) = s.regs.a

/-- How many times a repeating block instruction is executed: until its count has run out or, if it
compares, up to the first match. -/
def turns (b : Block) (s : State) : Nat :=
  match b.kind with
  | .transfer => wordCount s.regs.bc
  | .compare => (b.match? s).elim (wordCount s.regs.bc) (· + 1)
  | .input | .output => byteCount s.regs.b

theorem match?_eq_some_iff {m : Nat} :
    b.match? s = some m ↔ m < wordCount s.regs.bc ∧
      s.memory (b.pointer s.regs.hl m) = s.regs.a ∧
      ∀ j < m, s.memory (b.pointer s.regs.hl j) ≠ s.regs.a := by
  unfold match?
  rw [List.find?_range_eq_some]
  simp only [decide_eq_true_eq, List.mem_range, Bool.not_eq_true', decide_eq_false_iff_not]
  exact and_left_comm

theorem match?_eq_none_iff :
    b.match? s = none ↔
      ∀ j < wordCount s.regs.bc, s.memory (b.pointer s.regs.hl j) ≠ s.regs.a := by
  unfold match?
  rw [List.find?_range_eq_none]
  simp only [Bool.not_eq_true', decide_eq_false_iff_not]

theorem zero_handled_succ (h : b.kind = .compare) :
    (b.handled s (i + 1)).regs.f.zero = true ↔
      s.memory (b.pointer s.regs.hl i) = s.regs.a := by
  rw [handled, blockOnce_compare h, a_handled, hl_handled, memory_handled_of_reads s i (.inl h)]
  show decide (_ - _ = 0) = true ↔ _
  rw [decide_eq_true_eq, UInt8.sub_eq_iff_eq_add, UInt8.zero_add]
  exact eq_comm

theorem turns_pos : 0 < b.turns s := by
  unfold turns
  split
  · exact lasts_pos s.regs.bc.toNat_lt
  · cases b.match? s with
    | none => exact lasts_pos s.regs.bc.toNat_lt
    | some m => exact Nat.succ_pos m
  · exact lasts_pos s.regs.b.toNat_lt
  · exact lasts_pos s.regs.b.toNat_lt

theorem bc_handled_ne_zero_iff {i : Nat} (h : b.kind = .transfer ∨ b.kind = .compare)
    (hi : i < wordCount s.regs.bc) :
    (b.handled s (i + 1)).regs.bc ≠ 0 ↔ i + 1 < wordCount s.regs.bc := by
  rw [bc_handled s (i + 1) h, Ne, sub_eq_zero_iff_wordCount (Nat.succ_pos i) hi]
  omega

theorem b_handled_ne_zero_iff {i : Nat} (h : b.kind = .input ∨ b.kind = .output)
    (hi : i < byteCount s.regs.b) :
    (b.handled s (i + 1)).regs.b ≠ 0 ↔ i + 1 < byteCount s.regs.b := by
  rw [b_handled s (i + 1) h, Ne, sub_eq_zero_iff_byteCount (Nat.succ_pos i) hi]
  omega

/-- **It goes on until all its turns are done.** -/
theorem goesOn_handled {i : Nat} (hi : i < b.turns s) :
    (b.handled s (i + 1)).regs.goesOn b.kind = true ↔ i + 1 < b.turns s := by
  unfold turns at hi ⊢
  unfold Registers.goesOn
  cases h : b.kind with
  | transfer =>
    simp only [h] at hi ⊢
    rw [decide_eq_true_eq]
    exact bc_handled_ne_zero_iff s (.inl h) hi
  | compare =>
    simp only [h] at hi ⊢
    have hzero : (b.handled s (i + 1)).regs.f.zero = false ↔
        s.memory (b.pointer s.regs.hl i) ≠ s.regs.a := by
      rw [← Bool.not_eq_true, zero_handled_succ s i h]
    rw [decide_eq_true_eq, Bool.not_eq_true', hzero]
    cases hm : b.match? s with
    | none =>
      rw [Option.elim_none]
      rw [hm, Option.elim_none] at hi
      have hne := match?_eq_none_iff s |>.mp hm i hi
      rw [bc_handled_ne_zero_iff s (.inr h) hi]
      exact and_iff_left hne
    | some m =>
      rw [Option.elim_some]
      rw [hm, Option.elim_some] at hi
      obtain ⟨hlt, hmatch, hfirst⟩ := match?_eq_some_iff s |>.mp hm
      rw [bc_handled_ne_zero_iff s (.inr h) (by omega)]
      rcases Nat.lt_or_eq_of_le (Nat.le_of_lt_succ hi) with hbefore | rfl
      · have hne := hfirst i hbefore
        constructor
        · intro _
          omega
        · intro _
          exact ⟨by omega, hne⟩
      · constructor
        · intro hboth
          exact absurd hmatch hboth.2
        · intro hmore
          omega
  | input =>
    simp only [h] at hi ⊢
    rw [decide_eq_true_eq]
    exact b_handled_ne_zero_iff s (.inl h) hi
  | output =>
    simp only [h] at hi ⊢
    rw [decide_eq_true_eq]
    exact b_handled_ne_zero_iff s (.inr h) hi

end Block

end SpectrumTiming.Z80
