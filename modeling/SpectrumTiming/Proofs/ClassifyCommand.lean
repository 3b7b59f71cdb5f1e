import SpectrumTiming.Command.Answer
import SpectrumTiming.Proofs.HexReading

/-!
# Asking for the script of an instruction

`classify` is asked with words, and there are three things it may answer. Each word may be a byte,
and the bytes an instruction: then it shows the script. They may be bytes but no instruction: then
it lists them. Or a word is no byte: then it tells why, of the first such word. `Answers` says this
with no mention of how words are read, and the command answers what it says and nothing else
(`answers_exactly`).

What a word is lies in three layers. Marks `0x` in front are dropped, as many as there are
(`dropMarks_eq_iff`); what is behind them is read as a byte; and the words are read from the left,
up to the first that is none (`mapM_eq_error_iff`).
-/

namespace SpectrumTiming.Command

/-! ## Words that are not options -/

theorem ofText_eq_plain {text : String} (h : text.toList.head? ≠ some '-') :
    Word.ofText text = .plain text := by
  unfold Word.ofText
  split
  · rename_i hcs
    simp [hcs] at h
  · rename_i hcs
    simp [hcs] at h
  · rename_i hcs
    simp [hcs] at h
  · rfl

/-- Words without a dash in front are all taken as they stand. -/
theorem ofWords?_of_plain {words : List String}
    (h : ∀ word ∈ words, word.toList.head? ≠ some '-') :
    Given.ofWords? words = some { plain := words } := by
  induction words with
  | nil => rfl
  | cons word words ih =>
    have hword := ofText_eq_plain (h word List.mem_cons_self)
    have hrest := ih fun w hw => h w (List.mem_cons_of_mem _ hw)
    simp [Given.ofWords?, hword, hrest]

theorem answer_classify {words : List String} (hne : words ≠ [])
    (h : ∀ word ∈ words, word.toList.head? ≠ some '-') :
    answer ("classify" :: words) = answerClassify words := by
  simp [answer, Request.ofWords?, ofWords?_of_plain h, hne, Request.answer]

/-! ## Marks -/

/-- What is left of a word when all marks in front of it have been dropped. -/
def Unmarked (cs rest : List Char) : Prop :=
  (∃ count, cs = (List.replicate count ['0', 'x']).flatten ++ rest) ∧ ¬ ['0', 'x'] <+: rest

theorem unmarked_dropMarks (cs : List Char) : Unmarked cs (dropMarks cs) := by
  fun_induction dropMarks cs with
  | case1 cs ih =>
    obtain ⟨⟨count, hcs⟩, hrest⟩ := ih
    refine ⟨⟨count + 1, ?_⟩, hrest⟩
    rw [List.replicate_succ, List.flatten_cons, List.append_assoc, ← hcs]
    rfl
  | case2 cs hcs => exact ⟨⟨0, rfl⟩, fun ⟨rest, hrest⟩ => hcs rest hrest.symm⟩

theorem dropMarks_eq_iff {cs rest : List Char} : dropMarks cs = rest ↔ Unmarked cs rest := by
  constructor
  · rintro rfl
    exact unmarked_dropMarks cs
  · rintro ⟨⟨count, rfl⟩, hrest⟩
    induction count with
    | zero =>
      obtain ⟨⟨more, hmore⟩, -⟩ := unmarked_dropMarks rest
      cases more with
      | zero => exact hmore.symm
      | succ more =>
        refine absurd ?_ hrest
        rw [hmore, List.replicate_succ, List.flatten_cons, List.append_assoc]
        exact List.prefix_append ..
    | succ count ih => exact ih

/-! ## Words -/

/-- The word is this byte: any number of marks, a plus or none, and digits of its value. -/
def SpellsByte (word : String) (b : UInt8) : Prop :=
  ∃ rest, Unmarked word.toList rest ∧ ∃ sign ds, rest = sign ++ ds ∧ (sign = [] ∨ sign = ['+']) ∧
    ds ≠ [] ∧ Hex.Denotes ds b.toNat

/-- The word is no byte, for this reason. -/
def SpellsNone (word : String) (e : HexError) : Prop :=
  ∃ rest, Unmarked word.toList rest ∧ Hex.TextYields rest (.error e)

theorem readByte_eq_ok_iff {word : String} {b : UInt8} :
    readByte word = .ok b ↔ SpellsByte word b := by
  unfold SpellsByte
  simp only [← Hex.readHexByte_eq_ok_iff, ← dropMarks_eq_iff, exists_eq_left']
  rfl

theorem readByte_eq_error_iff {word : String} {e : HexError} :
    readByte word = .error e ↔ SpellsNone word e := by
  unfold SpellsNone
  simp only [← Hex.readHexByte_eq_iff, ← dropMarks_eq_iff, exists_eq_left']
  rfl

section Reading

variable {ε α β : Type} {f : α → Except ε β}

theorem mapM_eq_ok_iff {xs : List α} {ys : List β} :
    xs.mapM f = .ok ys ↔ List.Forall₂ (fun x y => f x = .ok y) xs ys := by
  induction xs generalizing ys with
  | nil =>
    rw [List.forall₂_nil_left_iff]
    exact ⟨fun h => (Except.ok.inj h).symm, fun h => h ▸ rfl⟩
  | cons x xs ih =>
    rw [List.mapM_cons, List.forall₂_cons_left_iff]
    constructor
    · intro h
      cases hx : f x with
      | error e =>
        rw [hx] at h
        exact absurd h nofun
      | ok y =>
        cases hxs : xs.mapM f with
        | error e =>
          rw [hx, hxs] at h
          exact absurd h nofun
        | ok zs =>
          rw [hx, hxs] at h
          exact ⟨y, zs, rfl, ih.mp hxs, (Except.ok.inj h).symm⟩
    · rintro ⟨y, zs, hx, hzs, rfl⟩
      rw [hx, ih.mpr hzs]
      rfl

/-- What is told of several failures is the leftmost. -/
theorem mapM_eq_error_iff {xs : List α} {e : ε} :
    xs.mapM f = .error e ↔ ∃ before x after ys, xs = before ++ x :: after ∧
      List.Forall₂ (fun x y => f x = .ok y) before ys ∧ f x = .error e := by
  constructor
  · intro h
    induction xs with
    | nil => exact absurd h nofun
    | cons x xs ih =>
      rw [List.mapM_cons] at h
      cases hx : f x with
      | error e' =>
        rw [hx] at h
        obtain rfl : e' = e := Except.error.inj h
        exact ⟨[], x, xs, [], rfl, .nil, hx⟩
      | ok y =>
        cases hxs : xs.mapM f with
        | error e' =>
          rw [hx, hxs] at h
          obtain rfl : e' = e := Except.error.inj h
          obtain ⟨before, z, after, ys, rfl, hbefore, hz⟩ := ih hxs
          exact ⟨x :: before, z, after, y :: ys, rfl, .cons hx hbefore, hz⟩
        | ok ys =>
          rw [hx, hxs] at h
          exact absurd h nofun
  · rintro ⟨before, x, after, ys, rfl, hbefore, hx⟩
    rw [List.mapM_append, mapM_eq_ok_iff.mpr hbefore, List.mapM_cons, hx]
    rfl

end Reading

theorem mapM_readByte_eq_ok_iff {words : List String} {bytes : List UInt8} :
    words.mapM readByte = .ok bytes ↔ List.Forall₂ SpellsByte words bytes := by
  simp only [mapM_eq_ok_iff, readByte_eq_ok_iff]

theorem mapM_readByte_eq_error_iff {words : List String} {e : HexError} :
    words.mapM readByte = .error e ↔ ∃ before word after bytes, words = before ++ word :: after ∧
      List.Forall₂ SpellsByte before bytes ∧ SpellsNone word e := by
  simp only [mapM_eq_error_iff, readByte_eq_ok_iff, readByte_eq_error_iff]

/-! ## Answers -/

/-- The bytes of an instruction with its script, and with the number of index bytes that collapse,
if any do. -/
def shown (bytes : List UInt8) (id : ScriptNumber) (collapsed : Nat) : Answer where
  code := 0
  output :=
    s!"{bytesText bytes} -> {scriptName id}" ++ "\n" ++
    (if 0 < collapsed then s!"  {collapsed} index prefix(es) collapsed (pc:4 each)" ++ "\n"
      else "") ++
    s!"  Sinclair: {Standard.text .sinclair id}" ++ "\n" ++
    s!"  Amstrad:  {Standard.text .amstrad id}" ++ "\n"

/-- The bytes, which are no instruction. -/
def unfinished (bytes : List UInt8) : Answer where
  code := 1
  errors := "Error: \"" ++ bytesText bytes ++ " is not a complete opcode\"" ++ "\n"

/-- Why a word is no byte. -/
def refusal (e : HexError) : Answer where
  code := 1
  errors := s!"Error: {hexReport e}\n"

/-- What the command has to answer. -/
inductive Answers (words : List String) : Answer → Prop
  /-- The words are the bytes of an instruction. -/
  | found {bytes : List UInt8} {id : ScriptNumber} {collapsed : Nat}
      (hwords : List.Forall₂ SpellsByte words bytes)
      (hscript : Opcode.scriptOf? bytes = some (id, collapsed)) :
      Answers words (shown bytes id collapsed)
  /-- The words are bytes, but not those of an instruction. -/
  | incomplete {bytes : List UInt8} (hwords : List.Forall₂ SpellsByte words bytes)
      (hscript : Opcode.scriptOf? bytes = none) :
      Answers words (unfinished bytes)
  /-- A word is no byte, and all in front of it are. -/
  | refused {before after : List String} {word : String} {bytes : List UInt8} {e : HexError}
      (hsplit : words = before ++ word :: after) (hbefore : List.Forall₂ SpellsByte before bytes)
      (hword : SpellsNone word e) :
      Answers words (refusal e)

theorem answerBytes_of_some {bytes : List UInt8} {id : ScriptNumber} {collapsed : Nat}
    (h : Opcode.scriptOf? bytes = some (id, collapsed)) :
    answerBytes bytes = shown bytes id collapsed := by
  simp only [answerBytes, h, Answer.ofLines, shown]
  by_cases hcollapsed : 0 < collapsed
  · simp [hcollapsed, String.join, String.append_assoc]
  · simp [hcollapsed, String.join, String.append_assoc]

theorem answerBytes_of_none {bytes : List UInt8} (h : Opcode.scriptOf? bytes = none) :
    answerBytes bytes = unfinished bytes := by
  simp only [answerBytes, h, Answer.failure]
  rfl

theorem answers_answerClassify (words : List String) : Answers words (answerClassify words) := by
  unfold answerClassify
  split
  · rename_i e h
    obtain ⟨before, word, after, bytes, hsplit, hbefore, hword⟩ := mapM_readByte_eq_error_iff.mp h
    exact .refused hsplit hbefore hword
  · rename_i bytes h
    rw [mapM_readByte_eq_ok_iff] at h
    cases hscript : Opcode.scriptOf? bytes with
    | none =>
      rw [answerBytes_of_none hscript]
      exact .incomplete h hscript
    | some r =>
      rw [answerBytes_of_some hscript]
      exact .found h hscript

theorem Answers.answerClassify_eq {words : List String} {a : Answer} (h : Answers words a) :
    answerClassify words = a := by
  unfold answerClassify
  cases h with
  | found hwords hscript =>
    rw [mapM_readByte_eq_ok_iff.mpr hwords]
    exact answerBytes_of_some hscript
  | incomplete hwords hscript =>
    rw [mapM_readByte_eq_ok_iff.mpr hwords]
    exact answerBytes_of_none hscript
  | refused hsplit hbefore hword =>
    rw [mapM_readByte_eq_error_iff.mpr ⟨_, _, _, _, hsplit, hbefore, hword⟩]
    rfl

theorem answerClassify_eq_iff {words : List String} {a : Answer} :
    answerClassify words = a ↔ Answers words a :=
  ⟨fun h => h ▸ answers_answerClassify words, Answers.answerClassify_eq⟩

/-- The command succeeds if and only if there is a script to show. -/
theorem code_answerClassify_eq_zero_iff {words : List String} :
    (answerClassify words).code = 0 ↔
      ∃ bytes r, List.Forall₂ SpellsByte words bytes ∧ Opcode.scriptOf? bytes = some r := by
  constructor
  · intro hcode
    generalize ha : answerClassify words = a at hcode
    cases answerClassify_eq_iff.mp ha with
    | found hwords hscript => exact ⟨_, _, hwords, hscript⟩
    | incomplete => exact absurd hcode nofun
    | refused => exact absurd hcode nofun
  · rintro ⟨bytes, r, hwords, hscript⟩
    rw [(Answers.found hwords hscript).answerClassify_eq]
    rfl

theorem Answers.code_le_one {words : List String} {a : Answer} (h : Answers words a) :
    a.code ≤ 1 := by
  cases h with
  | found => exact Nat.zero_le 1
  | incomplete => exact Nat.le_refl 1
  | refused => exact Nat.le_refl 1

/-! ## Bytes as they are written -/

theorem spellsByte_write (s : Hex.Style) (b : UInt8) : SpellsByte (s.write b) b := by
  have hdigits := s.denotes_digits b
  refine ⟨s.digits b, ⟨⟨if s.marked then 1 else 0, ?_⟩, ?_⟩, [], s.digits b, rfl, .inl rfl,
    s.digits_ne_nil b, hdigits⟩
  · rw [Hex.Style.write, String.toList_ofList]
    cases s.marked <;> rfl
  · -- an `x` is no digit
    intro hmark
    exact hdigits.ne_none_of_mem (hmark.subset (by simp : 'x' ∈ ['0', 'x'])) (by decide)

theorem head?_write_ne (s : Hex.Style) (b : UInt8) : (s.write b).toList.head? ≠ some '-' := by
  rw [Hex.Style.write, String.toList_ofList]
  cases s.marked with
  | true => nofun
  | false =>
    -- a dash is no digit either
    exact fun hdash => (s.denotes_digits b).ne_none_of_mem (List.mem_of_head? hdash) (by decide)

/-- A list of bytes is read back from its words, in whatever style each of them is written. -/
theorem mapM_readByte_write (items : List (Hex.Style × UInt8)) :
    (items.map fun (s, b) => s.write b).mapM readByte = .ok (items.map Prod.snd) := by
  rw [mapM_readByte_eq_ok_iff, List.forall₂_map_left_iff, List.forall₂_map_right_iff,
    List.forall₂_same]
  exact fun (s, b) _ => spellsByte_write s b

/--
**The answers to `classify`.** Asked with words that are no options, one at least, the command
answers exactly what it has to. It ends with code 0 if and only if all words are bytes and these are
an instruction, and then it shows the script of the instruction; else it ends with code 1 and tells
of the leftmost word that is no byte or, if there is none, of the bytes. Bytes that are written in
hexadecimal, in digits of either case, with zeros and marks in front or without, are read as
themselves.
-/
theorem answers_exactly {words : List String} (hne : words ≠ [])
    (hplain : ∀ word ∈ words, word.toList.head? ≠ some '-') :
    (∀ a, answer ("classify" :: words) = a ↔ Answers words a) ∧
    ((answer ("classify" :: words)).code = 0 ↔
      ∃ bytes r, List.Forall₂ SpellsByte words bytes ∧ Opcode.scriptOf? bytes = some r) ∧
    ((answer ("classify" :: words)).code ≠ 0 → (answer ("classify" :: words)).code = 1) ∧
    ∀ items : List (Hex.Style × UInt8),
      (items.map fun (s, b) => s.write b).mapM readByte = .ok (items.map Prod.snd) ∧
      (items ≠ [] → answer ("classify" :: items.map fun (s, b) => s.write b) =
        answerBytes (items.map Prod.snd)) := by
  rw [answer_classify hne hplain]
  refine ⟨fun a => answerClassify_eq_iff, code_answerClassify_eq_zero_iff, fun hcode => ?_,
    fun items => ⟨mapM_readByte_write items, fun hitems => ?_⟩⟩
  · have hle := (answers_answerClassify words).code_le_one
    omega
  · rw [answer_classify (by simpa using hitems), answerClassify, mapM_readByte_write]
    intro word hword
    obtain ⟨⟨s, b⟩, -, rfl⟩ := List.mem_map.mp hword
    exact head?_write_ne s b

/-- An index byte in front of `LD HL`, in two styles; and a number that is too large for a byte, in
front of a word that is no number at all. -/
theorem answers_exactly_load :
    answer ["classify", "0xDD", "+021"] =
      { code := 0
        output := "[DD, 21] -> CM12\n  1 index prefix(es) collapsed (pc:4 each)\n" ++
          "  Sinclair: 0:4,1:3,2:3\n  Amstrad:  0:4,1:3,2:3\n" } ∧
    answer ["classify", "00", "0x100", "zz"] =
      { code := 1, errors := "Error: ParseIntError \x7b kind: PosOverflow \x7d\n" } := by
  constructor
  · have hbytes : List.Forall₂ SpellsByte ["0xDD", "+021"] [0xDD, 0x21] :=
      mapM_readByte_eq_ok_iff.mp rfl
    have hscript : Opcode.scriptOf? [0xDD, 0x21] = some (12, 1) := by decide
    obtain ⟨hanswer, -⟩ := answers_exactly (by decide : ["0xDD", "+021"] ≠ []) (by decide)
    rw [(hanswer _).mpr (.found hbytes hscript)]
    rfl
  · have hbefore : List.Forall₂ SpellsByte ["00"] [0x00] := mapM_readByte_eq_ok_iff.mp rfl
    have hword : SpellsNone "0x100" .overflow := readByte_eq_error_iff.mp rfl
    obtain ⟨hanswer, -⟩ := answers_exactly (by decide : ["00", "0x100", "zz"] ≠ []) (by decide)
    exact (hanswer _).mpr (.refused rfl hbefore hword)

end SpectrumTiming.Command
