import Mathlib.Data.List.Forall2
import Mathlib.Data.List.Induction
import Mathlib.Data.Nat.Digits.Lemmas
import SpectrumTiming.Text.Hex

/-!
# What hexadecimal digits come to

Hexadecimal digits of either case stand for numbers, which are added up by their places: this is
what the digits denote (`Hex.Denotes`). Where they are to make a byte, they are taken from the left,
and what is met first decides: a character that is no digit, or a digit with which the value is more
than a byte holds. `Hex.DigitsYield` says this with no mention of how digits are read, and
`Hex.TextYields` of a whole text, which may begin with a plus sign or have nothing in it at all. A
text yields one thing only, and it is what reading it gives (`readHexByte_eq_iff`).

A byte may be written in digits of either case, with any number of zeros and with a mark `0x` in
front (`Hex.Style`).
-/

namespace SpectrumTiming

namespace Hex

/-! ## Values -/

/-- The character is a hexadecimal digit, of either case, and stands for the number. -/
def IsDigit (c : Char) (d : Nat) : Prop :=
  d < 16 ∧ (c = Nat.digitChar d ∨ c = (Nat.digitChar d).toUpper)

instance (c : Char) (d : Nat) : Decidable (IsDigit c d) := inferInstanceAs (Decidable (_ ∧ _))

/-- The characters are hexadecimal digits of this value. The last one counts least. -/
def Denotes (cs : List Char) (n : Nat) : Prop :=
  ∃ ds, List.Forall₂ IsDigit cs.reverse ds ∧ Nat.ofDigits 16 ds = n

theorem hexDigit?_eq_some_iff {c : Char} {d : Nat} : hexDigit? c = some d ↔ IsDigit c d := by
  constructor
  · intro h
    -- beyond `f` there is no digit, and up to there all characters can be listed
    have hrange : c.toNat < 103 := by
      have hmax (top : Char) (hc : c ≤ top) (htop : top.toNat < 103) : c.toNat < 103 :=
        Nat.lt_of_le_of_lt hc htop
      unfold hexDigit? at h
      split_ifs at h with h1 h2 h3
      · exact hmax '9' h1.2 (by decide)
      · exact hmax 'f' h2.2 (by decide)
      · exact hmax 'F' h3.2 (by decide)
    have hall : ∀ n : Fin 103, ∀ d ∈ hexDigit? (Char.ofNat n), IsDigit (Char.ofNat n) d := by
      decide
    have hc := hall ⟨c.toNat, hrange⟩ d
    rw [Char.ofNat_toNat] at hc
    exact hc h
  · have hall : ∀ d : Fin 16, hexDigit? (Nat.digitChar d) = some d.val ∧
        hexDigit? (Nat.digitChar d).toUpper = some d.val := by decide
    rintro ⟨hd, rfl | rfl⟩
    · exact (hall ⟨d, hd⟩).1
    · exact (hall ⟨d, hd⟩).2

theorem denotes_nil_iff {n : Nat} : Denotes [] n ↔ n = 0 := by
  constructor
  · rintro ⟨ds, hds, rfl⟩
    cases hds
    rfl
  · rintro rfl
    exact ⟨[], .nil, rfl⟩

/-- A further digit moves the others up by one place. -/
theorem denotes_concat_iff {cs : List Char} {c : Char} {n : Nat} :
    Denotes (cs ++ [c]) n ↔ ∃ k d, Denotes cs k ∧ IsDigit c d ∧ n = 16 * k + d := by
  unfold Denotes
  rw [List.reverse_append, List.reverse_singleton, List.singleton_append]
  constructor
  · rintro ⟨ds, hds, rfl⟩
    obtain ⟨d, rest, hd, hrest, rfl⟩ := List.forall₂_cons_left_iff.mp hds
    exact ⟨_, d, ⟨rest, hrest, rfl⟩, hd, by rw [Nat.ofDigits_cons, Nat.add_comm]⟩
  · rintro ⟨k, d, ⟨ds, hds, rfl⟩, hd, rfl⟩
    exact ⟨d :: ds, .cons hd hds, by rw [Nat.ofDigits_cons, Nat.add_comm]⟩

theorem Denotes.unique {cs : List Char} {m n : Nat} (h : Denotes cs m) (h' : Denotes cs n) :
    m = n := by
  have hdigit : Relator.RightUnique IsDigit := fun c d e hd he => by
    rw [← hexDigit?_eq_some_iff] at hd he
    exact Option.some.inj (hd.symm.trans he)
  obtain ⟨ds, hds, rfl⟩ := h
  obtain ⟨es, hes, rfl⟩ := h'
  rw [List.right_unique_forall₂' hdigit hds hes]

theorem Denotes.ne_none_of_mem {cs : List Char} {n : Nat} (h : Denotes cs n) {c : Char}
    (hc : c ∈ cs) : hexDigit? c ≠ none := by
  obtain ⟨ds, hds, -⟩ := h
  obtain ⟨d, hd⟩ : ∃ d, IsDigit c d := by
    obtain ⟨i, hi, rfl⟩ := List.getElem_of_mem (List.mem_reverse.mpr hc)
    exact ⟨_, hds.get hi (hds.length_eq ▸ hi)⟩
  rw [hexDigit?_eq_some_iff.mpr hd]
  nofun

/-! ## Digits -/

/-- What digits yield: their value if a byte holds it, and else what is met first from the left, a
character that is no digit or a digit with which the value is too large. -/
inductive DigitsYield : List Char → Except HexError Nat → Prop
  | value {cs : List Char} {n : Nat} (h : Denotes cs n) (hn : n < 256) : DigitsYield cs (.ok n)
  | invalidDigit {before after : List Char} {c : Char} {k : Nat} (hbefore : Denotes before k)
      (hk : k < 256) (hc : ∀ d, ¬ IsDigit c d) :
      DigitsYield (before ++ c :: after) (.error .invalidDigit)
  | overflow {before after : List Char} {c : Char} {k n : Nat} (hbefore : Denotes before k)
      (hk : k < 256) (hn : Denotes (before ++ [c]) n) (hlarge : 256 ≤ n) :
      DigitsYield (before ++ c :: after) (.error .overflow)

/-- Digits that a byte holds are read to their value. -/
theorem readHexDigits_append {before : List Char} {k : Nat} (hbefore : Denotes before k)
    (hk : k < 256) (cs : List Char) : readHexDigits 0 (before ++ cs) = readHexDigits k cs := by
  induction before using List.reverseRecOn generalizing k cs with
  | nil =>
    obtain rfl := denotes_nil_iff.mp hbefore
    rfl
  | append_singleton before c ih =>
    obtain ⟨k, d, hfront, hc, rfl⟩ := denotes_concat_iff.mp hbefore
    rw [List.append_assoc, ih hfront (by omega)]
    simp only [List.singleton_append, readHexDigits, hexDigit?_eq_some_iff.mpr hc, if_pos hk]

/-- Some digits always yield something. -/
theorem exists_digitsYield (cs : List Char) : ∃ r, DigitsYield cs r := by
  induction cs using List.reverseRecOn with
  | nil => exact ⟨_, .value (denotes_nil_iff.mpr rfl) (by decide)⟩
  | append_singleton cs c ih =>
    obtain ⟨r, hr⟩ := ih
    cases hr with
    | @value _ k h hk =>
      by_cases hc : ∃ d, IsDigit c d
      · obtain ⟨d, hd⟩ := hc
        have hn := denotes_concat_iff.mpr ⟨k, d, h, hd, rfl⟩
        by_cases hlarge : 16 * k + d < 256
        · exact ⟨_, .value hn hlarge⟩
        · exact ⟨_, .overflow h hk hn (Nat.le_of_not_lt hlarge)⟩
      · exact ⟨_, .invalidDigit h hk fun d hd => hc ⟨d, hd⟩⟩
    | invalidDigit hbefore hk hc =>
      rw [List.append_assoc]
      exact ⟨_, .invalidDigit hbefore hk hc⟩
    | overflow hbefore hk hn hlarge =>
      rw [List.append_assoc]
      exact ⟨_, .overflow hbefore hk hn hlarge⟩

theorem DigitsYield.readHexDigits_eq {cs : List Char} {r : Except HexError Nat}
    (h : DigitsYield cs r) : readHexDigits 0 cs = r := by
  cases h with
  | value h hn =>
    have hread := readHexDigits_append h hn []
    rwa [List.append_nil] at hread
  | @invalidDigit before after c k hbefore hk hc =>
    have hnone : hexDigit? c = none := by
      cases hd : hexDigit? c with
      | none => rfl
      | some d => exact absurd (hexDigit?_eq_some_iff.mp hd) (hc d)
    rw [readHexDigits_append hbefore hk, readHexDigits, hnone]
  | @overflow before after c k n hbefore hk hn hlarge =>
    obtain ⟨k', d, hbefore', hd, rfl⟩ := denotes_concat_iff.mp hn
    obtain rfl := hbefore.unique hbefore'
    rw [readHexDigits_append hbefore hk]
    simp only [readHexDigits, hexDigit?_eq_some_iff.mpr hd, if_neg (Nat.not_lt.mpr hlarge)]

/-- Reading digits gives what they yield. -/
theorem readHexDigits_eq_iff {cs : List Char} {r : Except HexError Nat} :
    readHexDigits 0 cs = r ↔ DigitsYield cs r := by
  refine ⟨?_, DigitsYield.readHexDigits_eq⟩
  rintro rfl
  obtain ⟨r, hr⟩ := exists_digitsYield cs
  rwa [hr.readHexDigits_eq]

/-! ## Texts -/

/-- What a text yields as a byte. A plus in front counts for nothing, but digits have to follow. -/
inductive TextYields : List Char → Except HexError UInt8 → Prop
  | empty : TextYields [] (.error .empty)
  | plus : TextYields ['+'] (.error .invalidDigit)
  | signed {ds : List Char} {r : Except HexError Nat} (hne : ds ≠ []) (h : DigitsYield ds r) :
      TextYields ('+' :: ds) (r.map UInt8.ofNat)
  | unsigned {ds : List Char} {r : Except HexError Nat} (hne : ds ≠ [])
      (hplus : ds.head? ≠ some '+') (h : DigitsYield ds r) : TextYields ds (r.map UInt8.ofNat)

theorem textYields_readHexByte (cs : List Char) : TextYields cs (readHexByte cs) := by
  unfold readHexByte
  split
  · exact .empty
  · exact .plus
  · rename_i ds hne
    exact .signed hne (readHexDigits_eq_iff.mp rfl)
  · rename_i hne hplus hsigned
    refine .unsigned hne (fun hhead => ?_) (readHexDigits_eq_iff.mp rfl)
    obtain ⟨ds, rfl⟩ := List.head?_eq_some_iff.mp hhead
    exact hsigned ds rfl

theorem TextYields.readHexByte_eq {cs : List Char} {r : Except HexError UInt8}
    (h : TextYields cs r) : readHexByte cs = r := by
  cases h with
  | empty => rfl
  | plus => rfl
  | @signed ds r hne h =>
    rw [← h.readHexDigits_eq]
    cases ds with
    | nil => exact absurd rfl hne
    | cons d ds => rfl
  | @unsigned _ r hne hplus h =>
    rw [← h.readHexDigits_eq]
    unfold readHexByte
    split
    · exact absurd rfl hne
    · exact absurd rfl hplus
    · exact absurd rfl hplus
    · rfl

/-- **Reading a text gives what it yields.** -/
theorem readHexByte_eq_iff {cs : List Char} {r : Except HexError UInt8} :
    readHexByte cs = r ↔ TextYields cs r :=
  ⟨fun h => h ▸ textYields_readHexByte cs, TextYields.readHexByte_eq⟩

theorem DigitsYield.denotes {ds : List Char} {r : Except HexError Nat} {b : UInt8}
    (h : DigitsYield ds r) (hr : r.map UInt8.ofNat = .ok b) : Denotes ds b.toNat := by
  cases h with
  | @value _ n hds hn =>
    obtain rfl : UInt8.ofNat n = b := Except.ok.inj hr
    rwa [UInt8.toNat_ofNat_of_lt' hn]
  | invalidDigit => exact absurd hr nofun
  | overflow => exact absurd hr nofun

/-- What is read as a byte: digits of its value, one at least, with a plus in front or without. -/
theorem readHexByte_eq_ok_iff {cs : List Char} {b : UInt8} :
    readHexByte cs = .ok b ↔ ∃ sign ds, cs = sign ++ ds ∧ (sign = [] ∨ sign = ['+']) ∧
      ds ≠ [] ∧ Denotes ds b.toNat := by
  rw [readHexByte_eq_iff]
  constructor
  · generalize hr : Except.ok b = r
    rintro (_ | _ | ⟨hne, h⟩ | ⟨hne, -, h⟩)
    · exact absurd hr nofun
    · exact absurd hr nofun
    · exact ⟨['+'], _, rfl, .inr rfl, hne, h.denotes hr.symm⟩
    · exact ⟨[], _, rfl, .inl rfl, hne, h.denotes hr.symm⟩
  · rintro ⟨sign, ds, rfl, hsign, hne, hds⟩
    have hyield := DigitsYield.value hds b.toNat_lt
    have hb : Except.ok b = (Except.ok b.toNat : Except HexError Nat).map UInt8.ofNat := by
      rw [Except.map, UInt8.ofNat_toNat]
    rw [hb]
    obtain rfl | rfl := hsign
    · refine .unsigned hne (fun hplus => ?_) hyield
      -- a plus is no digit
      exact hds.ne_none_of_mem (List.mem_of_head? hplus) (by decide)
    · exact .signed hne hyield

/-! ## Writing -/

/-- A way to write a byte. -/
structure Style where
  /-- Whether `0x` stands in front. -/
  marked : Bool
  /-- Up to how many digits zeros are filled in. -/
  width : Nat
  /-- Whether the digits are in upper case. -/
  upper : Bool

namespace Style

def digits (s : Style) (b : UInt8) : List Char :=
  let ds := if s.upper then upperDigits b.toNat else Nat.toDigits 16 b.toNat
  List.replicate (s.width - ds.length) '0' ++ ds

def write (s : Style) (b : UInt8) : String :=
  String.ofList ((if s.marked then ['0', 'x'] else []) ++ s.digits b)

end Style

theorem denotes_toDigits (n : Nat) : Denotes (Nat.toDigits 16 n) n := by
  induction n using Nat.strongRecOn with
  | ind n ih =>
    have hdigit (d : Nat) (hd : d < 16) : IsDigit (Nat.digitChar d) d := ⟨hd, .inl rfl⟩
    rw [Nat.toDigits_eq_if (by decide)]
    split
    · rename_i hn
      exact denotes_concat_iff.mpr ⟨0, n, denotes_nil_iff.mpr rfl, hdigit n hn, by omega⟩
    · rename_i hn
      have hlast : n % 16 < 16 := Nat.mod_lt _ (by decide)
      exact denotes_concat_iff.mpr ⟨n / 16, n % 16, ih _ (by omega), hdigit _ hlast, by omega⟩

theorem Denotes.toUpper {cs : List Char} {n : Nat} (h : Denotes cs n) :
    Denotes (cs.map Char.toUpper) n := by
  obtain ⟨ds, hds, rfl⟩ := h
  have htwice : ∀ d : Fin 16, (Nat.digitChar d).toUpper.toUpper = (Nat.digitChar d).toUpper := by
    decide
  refine ⟨ds, ?_, rfl⟩
  rw [← List.map_reverse, List.forall₂_map_left_iff]
  refine hds.imp fun c d => ?_
  rintro ⟨hd, rfl | rfl⟩
  · exact ⟨hd, .inr rfl⟩
  · exact ⟨hd, .inr (htwice ⟨d, hd⟩)⟩

/-- Zeros in front count for nothing. -/
theorem Denotes.zeros {cs : List Char} {n : Nat} (h : Denotes cs n) (count : Nat) :
    Denotes (List.replicate count '0' ++ cs) n := by
  induction count with
  | zero => exact h
  | succ count ih =>
    obtain ⟨ds, hds, rfl⟩ := ih
    refine ⟨ds ++ [0], ?_, Nat.ofDigits_append_zero ds⟩
    rw [List.replicate_succ, List.cons_append, List.reverse_cons]
    exact List.rel_append hds (.cons (by decide) .nil)

theorem Style.denotes_digits (s : Style) (b : UInt8) : Denotes (s.digits b) b.toNat := by
  have h := denotes_toDigits b.toNat
  unfold digits upperDigits
  split
  · exact h.toUpper.zeros _
  · exact h.zeros _

theorem Style.digits_ne_nil (s : Style) (b : UInt8) : s.digits b ≠ [] := by
  unfold digits upperDigits
  split <;> simp [Nat.toDigits_ne_nil]

end Hex

end SpectrumTiming
