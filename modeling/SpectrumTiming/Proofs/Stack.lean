import SpectrumTiming.Proofs.Repetition

/-!
# The stack

The stack is a part of memory: the words from the stack pointer up, the one on top first
(`State.stack`). A push puts a word in front of them and a pop takes one off, whatever the stack
pointer is and wherever the addresses go round the top of memory, as long as the stack does not come
round to its own top (`stack_push`). So words that have been pushed are popped in the reverse order,
up to as many of them as memory has room for, and a return takes up again where the call was
(`pops_what_was_pushed`).
-/

namespace SpectrumTiming

namespace Z80

/-! ## Words in memory -/

namespace Memory

/-- The word at an address, the low byte first. -/
def word (m : Memory) (addr : UInt16) : UInt16 := join (m (addr + 1)) (m addr)

/-- So many words from an address on, round the top of memory to its bottom. -/
def words (m : Memory) (addr : UInt16) : Nat → List UInt16
  | 0 => []
  | n + 1 => m.word addr :: m.words (addr + 2) n

theorem words_congr {m m' : Memory} {addr : UInt16} {n : Nat}
    (h : ∀ i < 2 * n, m' (addr + .ofNat i) = m (addr + .ofNat i)) :
    m'.words addr n = m.words addr n := by
  induction n generalizing addr with
  | zero => rfl
  | succ n ih =>
    have hlow : m' addr = m addr := by
      have h0 : m' (addr + 0) = m (addr + 0) := h 0 (by omega)
      rwa [UInt16.add_zero] at h0
    have hhigh : m' (addr + 1) = m (addr + 1) := h 1 (by omega)
    have hrest : m'.words (addr + 2) n = m.words (addr + 2) n := by
      refine ih fun i hi => ?_
      have hi2 := h (i + 2) (by omega)
      have hplace : addr + .ofNat (i + 2) = addr + 2 + .ofNat i := by
        rw [UInt16.add_assoc, Nat.add_comm i 2, UInt16.ofNat_add]
        rfl
      rwa [hplace] at hi2
    rw [words, words, hrest, word, word, hlow, hhigh]

end Memory

/-! ## Pushing and popping -/

/-- So many words from the stack pointer up, the one on top first. -/
def State.stack (s : State) (n : Nat) : List UInt16 := s.memory.words s.regs.sp n

theorem state_push (value : UInt16) (s : State) :
    (push value).state s =
      { s with
        memory := (s.memory.write (s.regs.sp - 1) (high value)).write (s.regs.sp - 2) (low value)
        regs := { s.regs with sp := s.regs.sp - 2 } } := rfl

theorem state_pop (s : State) :
    pop.state s = { s with regs := { s.regs with sp := s.regs.sp + 2 } } := rfl

theorem memory_push_of_ne {value a : UInt16} {s : State} (h₁ : a ≠ s.regs.sp - 1)
    (h₂ : a ≠ s.regs.sp - 2) : ((push value).state s).memory a = s.memory a := by
  rw [state_push]
  show (if a = _ then _ else if a = _ then _ else _) = _
  rw [if_neg h₂, if_neg h₁]

/-- The words of a stack lie apart from the two bytes below it. -/
theorem above_ne_below {sp : UInt16} {i k : Nat} (hk : 0 < k) (hi : i + k < 0x10000) :
    sp + .ofNat i ≠ sp - .ofNat k := by
  intro hsame
  have hzero : UInt16.ofNat (i + k) = 0 := by
    rw [UInt16.ofNat_add]
    grind
  have hnat := congrArg UInt16.toNat hzero
  rw [UInt16.toNat_ofNat', Nat.mod_eq_of_lt hi] at hnat
  have h0 : (0 : UInt16).toNat = 0 := rfl
  omega

/-- **A push puts a word on the stack** and leaves those that are there, as long as there is room
for it. -/
theorem stack_push (value : UInt16) (s : State) {n : Nat} (hn : n < 0x8000) :
    ((push value).state s).stack (n + 1) = value :: s.stack n := by
  have hrest : ((push value).state s).memory.words s.regs.sp n = s.memory.words s.regs.sp n :=
    Memory.words_congr fun i hi => memory_push_of_ne
      (above_ne_below (k := 1) (by omega) (by omega)) (above_ne_below (k := 2) (by omega) (by omega))
  have htop : ((push value).state s).memory.word (s.regs.sp - 2) = value := by
    have hup : s.regs.sp - 2 + 1 = s.regs.sp - 1 := by grind
    have hne : s.regs.sp - 1 ≠ s.regs.sp - 2 := by
      rw [Ne, UInt16.sub_right_inj]
      decide
    rw [state_push, Memory.word, hup]
    simp only [Memory.write, if_true, if_neg hne, join_high_low]
  show Memory.word _ (s.regs.sp - 2) :: Memory.words _ (s.regs.sp - 2 + 2) n = _
  rw [UInt16.sub_add_cancel, htop, hrest]
  rfl

/-- A pop takes a word off the stack. -/
theorem stack_pop (s : State) (n : Nat) :
    s.stack (n + 1) = pop.value s :: (pop.state s).stack n := rfl

/-! ## Many of them -/

theorem word_sub_sub (w : UInt16) (m n : Nat) : w - .ofNat m - .ofNat n = w - .ofNat (m + n) := by
  rw [UInt16.ofNat_add]
  grind

theorem word_sub_two (w : UInt16) (n : Nat) : w - 2 - .ofNat n = w - .ofNat (n + 2) := by
  rw [Nat.add_comm]
  exact word_sub_sub w 2 n

/-- **What is pushed last is on top.** -/
theorem stack_pushes (words : List UInt16) (s : State) {n : Nat}
    (hn : n + words.length ≤ 0x8000) :
    (Op.after s (words.map Op.push)).stack (n + words.length) = words.reverse ++ s.stack n := by
  induction words generalizing s n with
  | nil => rfl
  | cons w words ih =>
    rw [List.length_cons] at hn ⊢
    have hcons : Op.after s ((w :: words).map Op.push) =
        Op.after ((push w).state s) (words.map Op.push) := rfl
    rw [hcons, show n + (words.length + 1) = n + 1 + words.length by omega,
      ih ((push w).state s) (by omega), stack_push w s (by omega), List.reverse_cons,
      List.append_assoc]
    rfl

theorem regs_pushes (words : List UInt16) (s : State) :
    (Op.after s (words.map Op.push)).regs =
      { s.regs with sp := s.regs.sp - .ofNat (2 * words.length) } := by
  induction words generalizing s with
  | nil =>
    show s.regs = { s.regs with sp := s.regs.sp - 0 }
    rw [UInt16.sub_zero]
  | cons w words ih =>
    have hcons : Op.after s ((w :: words).map Op.push) =
        Op.after ((push w).state s) (words.map Op.push) := rfl
    rw [hcons, ih, state_push]
    simp only [word_sub_two]
    rfl

/-- Pushing leaves alone what is not right below the stack. -/
theorem memory_pushes (words : List UInt16) (s : State) {a : UInt16}
    (ha : ∀ i < 2 * words.length, a ≠ s.regs.sp - .ofNat (i + 1)) :
    (Op.after s (words.map Op.push)).memory a = s.memory a := by
  induction words generalizing s with
  | nil => rfl
  | cons w words ih =>
    rw [List.length_cons] at ha
    have hfirst : ((push w).state s).memory a = s.memory a :=
      memory_push_of_ne (ha 0 (by omega)) (ha 1 (by omega))
    rw [← hfirst]
    refine ih ((push w).state s) fun i hi => ?_
    have hnext := ha (i + 2) (by omega)
    rw [state_push]
    show a ≠ s.regs.sp - 2 - .ofNat (i + 1)
    rwa [word_sub_two, show i + 1 + 2 = i + 2 + 1 by omega]

/-- Each push shows its high byte first, one address above the low one. -/
theorem results_pushes (words : List UInt16) (s : State) :
    Op.results s (words.map Op.push) = words.mapIdx fun i w =>
      (none, [.bus .write (s.regs.sp - .ofNat (2 * i + 1)) (high w),
        .bus .write (s.regs.sp - .ofNat (2 * i + 2)) (low w)]) := by
  induction words generalizing s with
  | nil => rfl
  | cons w words ih =>
    have hcons : Op.results s ((w :: words).map Op.push) =
        (none, [.bus .write (s.regs.sp - 1) (high w), .bus .write (s.regs.sp - 2) (low w)]) ::
          Op.results ((push w).state s) (words.map Op.push) := rfl
    rw [hcons, ih, List.mapIdx_cons, state_push]
    simp only [word_sub_two]
    rfl

/-- **Popping gives back what is on the stack**, from the top on. -/
theorem results_pops (n : Nat) (s : State) :
    (Op.results s (List.replicate n .pop)).map Prod.fst = (s.stack n).map some := by
  induction n generalizing s with
  | zero => rfl
  | succ n ih =>
    rw [stack_pop, List.map_cons, ← ih]
    rfl

theorem after_pops (n : Nat) (s : State) :
    Op.after s (List.replicate n .pop) =
      { s with regs := { s.regs with sp := s.regs.sp + .ofNat (2 * n) } } := by
  induction n generalizing s with
  | zero =>
    show s = { s with regs := { s.regs with sp := s.regs.sp + 0 } }
    rw [UInt16.add_zero]
  | succ n ih =>
    have hcons : Op.after s (List.replicate (n + 1) .pop) =
        Op.after (pop.state s) (List.replicate n .pop) := rfl
    have hsum : s.regs.sp + 2 + .ofNat (2 * n) = s.regs.sp + .ofNat (2 * (n + 1)) := by
      rw [UInt16.add_assoc, Nat.mul_succ, Nat.add_comm, UInt16.ofNat_add]
      rfl
    rw [hcons, ih, state_pop]
    simp only [hsum]

/-! ## Calls -/

theorem state_call (s : State) :
    call.state s =
      { (push (s.regs.pc + 2)).state s with
        regs := { ((push (s.regs.pc + 2)).state s).regs with
          pc := s.memory.word s.regs.pc, wz := s.memory.word s.regs.pc } } := rfl

theorem state_ret (s : State) :
    ret.state s =
      { pop.state s with
        regs := { (pop.state s).regs with pc := pop.value s, wz := pop.value s } } := rfl

/-- **A return takes up where the call was.** The operand has been read by then, so it does not matter
whether it is still there. -/
theorem state_ret_call (s : State) :
    ret.state (call.state s) =
      { s with
        memory := ((push (s.regs.pc + 2)).state s).memory
        regs := { s.regs with pc := s.regs.pc + 2, wz := s.regs.pc + 2 } } := by
  have htop : pop.value (call.state s) = s.regs.pc + 2 :=
    (List.cons.inj (stack_push (s.regs.pc + 2) s (n := 0) (by decide))).1
  rw [state_ret, htop, state_pop, state_call, state_push]
  simp only [UInt16.sub_add_cancel]

end Z80

namespace Computer

open Z80

/--
**What is pushed is popped, in the reverse order.** Take any computer that captures nothing, and push
up to 32768 words. Each push writes the high byte right below the stack pointer and then the low byte
below that. Pop as often, and the words come back, the last one first; all registers are as before,
and no byte of memory has changed but those that lie right below the stack pointer, two for each
word, round the bottom of memory to its top.

In the same way, when a call has been made, a return leads back behind the two bytes of its operand,
with the stack pointer as it was, wherever the return address was written to.
-/
theorem pops_what_was_pushed (c : Computer) (hidle : c.timer.capture.active = false) :
    (∀ words : List UInt16, words.length ≤ 0x8000 →
      ∃ last pushed popped,
        c.run (words.map .push ++ List.replicate words.length .pop) = .ok (last, pushed ++ popped) ∧
        pushed.map Report.timeless = (words.mapIdx fun i w =>
          (none, [.bus .write (c.processor.regs.sp - .ofNat (2 * i + 1)) (high w),
            .bus .write (c.processor.regs.sp - .ofNat (2 * i + 2)) (low w)])) ∧
        popped.map Report.value? = words.reverse.map some ∧
        last.processor.regs = c.processor.regs ∧
        ∀ a, (∀ i < 2 * words.length, a ≠ c.processor.regs.sp - .ofNat (i + 1)) →
          last.processor.memory a = c.processor.memory a) ∧
    ∃ inside last called returned,
      c.run [.call] = .ok (inside, called) ∧ inside.run [.ret] = .ok (last, returned) ∧
      inside.processor.regs.pc = c.processor.memory.word c.processor.regs.pc ∧
      inside.processor.regs.sp = c.processor.regs.sp - 2 ∧
      last.processor.regs.pc = c.processor.regs.pc + 2 ∧
      last.processor.regs.sp = c.processor.regs.sp ∧
      ∀ a, a ≠ c.processor.regs.sp - 1 → a ≠ c.processor.regs.sp - 2 →
        last.processor.memory a = c.processor.memory a := by
  refine ⟨fun words hlen => ?_, ?_⟩
  · obtain ⟨full, pushed, hpush, hstill⟩ :=
      exists_run_of_idle hidle (words.map .push) (by simp [Op.begins])
    obtain ⟨last, popped, hpop, -⟩ :=
      exists_run_of_idle hstill (List.replicate words.length .pop) (by simp [Op.begins])
    obtain ⟨hfull, hpushed⟩ := run_eq_results hpush
    obtain ⟨hlast, hpopped⟩ := run_eq_results hpop
    have hstack : full.processor.stack words.length = words.reverse := by
      have hall := stack_pushes words c.processor (n := 0) (by omega)
      rw [Nat.zero_add, ← hfull] at hall
      rw [hall]
      exact List.append_nil _
    have hregs := regs_pushes words c.processor
    rw [← hfull] at hregs
    rw [after_pops] at hlast
    refine ⟨last, pushed, popped, run_append_eq_ok.mpr ⟨full, _, _, hpush, hpop, rfl⟩, ?_, ?_, ?_, ?_⟩
    · rw [hpushed, results_pushes]
    · have hvalues := congrArg (List.map Prod.fst) hpopped
      rw [List.map_map, results_pops, hstack] at hvalues
      exact hvalues
    · rw [hlast, hregs]
      simp only [UInt16.sub_add_cancel]
    · intro a ha
      rw [hlast, ← memory_pushes words c.processor ha, ← hfull]
  · obtain ⟨inside, called, hcall, hstill⟩ :=
      exists_run_of_idle hidle [.call] (by simp [Op.begins])
    obtain ⟨last, returned, hret, -⟩ := exists_run_of_idle hstill [.ret] (by simp [Op.begins])
    have hinside : inside.processor = call.state c.processor := (run_eq_results hcall).1
    have hlast : last.processor = ret.state inside.processor := (run_eq_results hret).1
    rw [hinside, state_ret_call] at hlast
    refine ⟨inside, last, called, returned, hcall, hret, ?_, ?_, ?_, ?_, fun a h₁ h₂ => ?_⟩
    · rw [hinside, state_call]
    · rw [hinside, state_call]
      rfl
    · rw [hlast]
    · rw [hlast]
    · rw [hlast]
      exact memory_push_of_ne h₁ h₂

/-- Two words over the bottom of memory, and a call whose return address is written over its own
operand. -/
theorem pops_what_was_pushed_wrapped :
    let c : Computer :=
      { processor :=
          { regs := { sp := 1, pc := 0xFFFF }
            memory := Memory.load (fun _ => 0) 0xFFFF [0x34, 0x12] }
        timer := { ula := .spectrum48k } }
    (∃ last pushed popped,
      c.run [.push 0xABCD, .push 0x00FE, .pop, .pop] = .ok (last, pushed ++ popped) ∧
      pushed.map Report.timeless =
        [(none, [.bus .write 0x0000 0xAB, .bus .write 0xFFFF 0xCD]),
          (none, [.bus .write 0xFFFE 0x00, .bus .write 0xFFFD 0xFE])] ∧
      popped.map Report.value? = [some 0x00FE, some 0xABCD] ∧ last.processor.regs.sp = 1) ∧
    ∃ inside last called returned,
      c.run [.call] = .ok (inside, called) ∧ inside.run [.ret] = .ok (last, returned) ∧
      inside.processor.regs.pc = 0x1234 ∧ last.processor.regs.pc = 1 ∧
      last.processor.regs.sp = 1 := by
  intro c
  obtain ⟨hwords, inside, last, called, returned, hcall, hret, hinside, -, hpc, hsp, -⟩ :=
    pops_what_was_pushed c rfl
  obtain ⟨done, pushed, popped, hrun, hpushed, hpopped, hregs, -⟩ :=
    hwords [0xABCD, 0x00FE] (by decide)
  refine ⟨⟨done, pushed, popped, hrun, hpushed.trans (by decide), hpopped, ?_⟩,
    inside, last, called, returned, hcall, hret, hinside.trans (by decide), hpc.trans (by decide),
    hsp⟩
  rw [hregs]

end Computer

end SpectrumTiming
