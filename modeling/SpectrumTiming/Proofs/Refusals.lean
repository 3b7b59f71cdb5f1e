import SpectrumTiming.Proofs.Composition
import SpectrumTiming.Proofs.Lookahead

/-!
# Where a text is refused

A text that is no script is refused at the first place where it cannot be one, and the error says
which place that is (`read_refused`). Up to there it is the beginning of some script, and one
character behind there it is the beginning of none: whatever follows, it is refused for the same
reason at the same place.

A text is refused where some reader stands in front of a character, or of the end, that it has no use
for (`readChars_eq_error_iff`). What the reader says then follows from its stage and from what it
meets (`Reader.Refuses`), and what was read so far has a tree, which says the rest.
-/

namespace SpectrumTiming

namespace Script

/-- The place an error points at. -/
def Error.pos? : Error → Option Nat
  | .unexpected _ pos | .unfinished pos => some pos
  | .tooMany | .portSource => none

namespace Reader

/-- What becomes of a reader in front of a character, or of the end. -/
def meet (r : Reader) (next? : Option Char) : Except Error Reader := next?.elim r.close r.step

/-- Why a reader refuses what it meets. -/
inductive Refuses (r : Reader) (next? : Option Char) : Error → Prop
  /-- It has no use for the character. -/
  | character {c : Char} (hnext : next? = some c) (hwhole : r.stage.settled none = true) :
    Refuses r next? (.unexpected c r.pos)
  /-- The first letter of a pair stands alone. -/
  | half {p : Pair} (hstage : r.stage = .half p) :
    Refuses r next? (.unexpected p.letters.1 (r.pos - 1))
  /-- So does the first letter of `IO`. -/
  | halfPort {s : Source} (hstage : r.stage = .halfPort s) :
    Refuses r next? (.unexpected 'I' (r.pos - 1))
  /-- An element is cut off. -/
  | unfinished (hnext : next? = none ∨ next? = some ',' ∨ next? = some ']')
    (hwhole : r.stage.settled none = true) : Refuses r next? (.unfinished r.pos)
  /-- An element begins where there is no room for it. -/
  | tooMany {c : Char} (hnext : next? = some c)
    (hbegins : (r.stage = .gap ∧ ∃ h : Grammar.Head, h.chars = [c]) ∨
      ∃ p : Pair, r.stage = .half p ∧ c = p.letters.2)
    (hfull : elementLimit ≤ r.script.size) : Refuses r next? .tooMany
  | portSource : Refuses r next? .portSource

variable {r : Reader} {next? : Option Char} {c : Char} {e : Error}

theorem error_of_map {α β : Type} {f : α → β} {x : Except Error α} (h : x.map f = .error e) :
    x = .error e := by
  cases x with
  | error e' =>
    cases h
    rfl
  | ok a => cases h

theorem start_eq_error {s : Source} (h : r.start s = .error e) :
    e = .tooMany ∧ elementLimit ≤ r.script.size := by
  unfold start at h
  split at h
  · cases h
  · rename_i hfull
    cases h
    exact ⟨rfl, Nat.le_of_not_lt hfull⟩

theorem refuses_of_close (hnext : next? = none ∨ next? = some ',' ∨ next? = some ']')
    (h : r.close = .error e) : r.Refuses next? e := by
  unfold close at h
  cases hstage : r.stage with
  | half p =>
    simp only [hstage] at h
    cases h
    exact .half hstage
  | halfPort s =>
    simp only [hstage] at h
    cases h
    exact .halfPort hstage
  | gap | digit | count | factor =>
    simp only [hstage] at h
    cases h
  | source | colon | times =>
    simp only [hstage] at h
    cases h
    exact .unfinished hnext (by rw [hstage]; rfl)

/-- Where a digit is wanted, any other character is refused. -/
theorem refuses_of_digit {k : Nat → Except Error Reader} (hwhole : r.stage.settled none = true)
    (hk : ∀ d : Fin 10, Nat.digitChar d = c → k d = .error e → r.Refuses (some c) e)
    (h : (digit? c).elim (r.refuse c) k = .error e) : r.Refuses (some c) e := by
  cases hd : digit? c with
  | none =>
    rw [hd] at h
    cases h
    exact .character rfl hwhole
  | some n =>
    obtain ⟨d, rfl, hc⟩ := digit?_eq_some_iff.mp hd
    rw [hd] at h
    exact hk d hc h

/-- Where one character is wanted, any other is refused. -/
theorem refuses_of_expect {expected : Char} {r' : Reader} (hwhole : r.stage.settled none = true)
    (h : (if c = expected then .ok r' else r.refuse c) = .error e) : r.Refuses (some c) e := by
  split at h
  · cases h
  · cases h
    exact .character rfl hwhole

theorem refuses_of_gap (hgap : r.stage = .gap) (h : r.extend c = .error e) :
    r.Refuses (some c) e := by
  have hwhole : r.stage.settled none = true := by rw [hgap]; rfl
  have hstart {s : Source} (hhead : ∃ h : Grammar.Head, h.chars = [c])
      (hs : r.start s = .error e) : r.Refuses (some c) e := by
    obtain ⟨rfl, hfull⟩ := start_eq_error hs
    exact .tooMany rfl (.inl ⟨hgap, hhead⟩) hfull
  unfold extend at h
  simp only [hgap] at h
  split at h
  · cases h
  · cases h
  · cases h
  · exact hstart ⟨.idle, rfl⟩ h
  · exact refuses_of_digit hwhole (fun d hd => hstart ⟨.slot d, by rw [← hd]; rfl⟩) h

theorem refuses_of_extend (h : r.extend c = .error e) : r.Refuses (some c) e := by
  cases hstage : r.stage with
  | gap => exact refuses_of_gap hstage h
  | half p =>
    unfold extend at h
    simp only [hstage] at h
    split at h
    · rename_i hc
      obtain ⟨rfl, hfull⟩ := start_eq_error h
      exact .tooMany rfl (.inr ⟨p, hstage, hc⟩) hfull
    · cases h
      exact .half hstage
  | halfPort s =>
    unfold extend at h
    simp only [hstage] at h
    split at h
    · cases s with
      | memory slot => cases h
      | port | pair | idle =>
        cases h
        exact .portSource
    · cases h
      exact .halfPort hstage
  | factor s n k =>
    unfold extend at h
    simp only [hstage] at h
    cases h
    exact .character rfl (by rw [hstage]; rfl)
  | source s | count s n =>
    have hwhole : r.stage.settled none = true := by rw [hstage]; rfl
    unfold extend at h
    simp only [hstage] at h
    exact refuses_of_expect hwhole h
  | times s n =>
    have hwhole : r.stage.settled none = true := by rw [hstage]; rfl
    unfold extend at h
    simp only [hstage] at h
    exact refuses_of_digit hwhole (fun _ _ hd => by cases hd) h
  | colon s | digit s n =>
    have hwhole : r.stage.settled none = true := by rw [hstage]; rfl
    unfold extend at h
    simp only [hstage] at h
    split at h
    · cases h
    · exact refuses_of_digit hwhole (fun _ _ hd => by cases hd) h

/-- **What a reader says when it refuses** what it meets. -/
theorem refuses_of_meet (h : r.meet next? = .error e) : r.Refuses next? e := by
  cases next? with
  | none => exact refuses_of_close (.inl rfl) h
  | some c =>
    have hstep : r.step c = .error e := h
    unfold step at hstep
    split at hstep
    · unfold space at hstep
      split at hstep
      · exact refuses_of_extend hstep
      · exact refuses_of_extend hstep
      · cases hstep
      · cases hstep
    · exact refuses_of_close (.inr (.inl rfl)) (error_of_map hstep)
    · exact refuses_of_close (.inr (.inr rfl)) (error_of_map hstep)
    · exact refuses_of_extend hstep

theorem readRest_of_leads {xs : List Char} {r' : Reader} (h : Grammar.Leads r xs r')
    (ys : List Char) : r.readRest (xs ++ ys) = r'.readRest ys := by
  unfold Grammar.Leads at h
  rw [readRest, List.foldlM_append, h]
  rfl

theorem readRest_of_meet {ys : List Char} (h : r.meet ys.head? = .error e) :
    r.readRest ys = .error e := by
  cases ys with
  | nil => exact readRest_of_close h
  | cons c ys => exact readRest_of_error h ys

theorem exists_leads_of_readRest {cs : List Char} (h : r.readRest cs = .error e) :
    ∃ xs ys r', cs = xs ++ ys ∧ Grammar.Leads r xs r' ∧ r'.meet ys.head? = .error e := by
  induction cs generalizing r with
  | nil => exact ⟨[], [], r, rfl, rfl, error_of_map h⟩
  | cons c cs ih =>
    cases hstep : r.step c with
    | error e' =>
      rw [readRest_of_error hstep] at h
      cases h
      exact ⟨[], c :: cs, r, rfl, rfl, hstep⟩
    | ok r₁ =>
      rw [readRest_of_ok hstep] at h
      obtain ⟨xs, ys, r', rfl, hleads, hstop⟩ := ih h
      exact ⟨c :: xs, ys, r', rfl, (Grammar.Leads.one hstep).append hleads, hstop⟩

end Reader

/-- A text is refused just where a reader refuses what it meets. -/
theorem readChars_eq_error_iff {cs : List Char} {e : Error} : readChars cs = .error e ↔
    ∃ xs ys r, cs = xs ++ ys ∧ Grammar.Leads {} xs r ∧ r.meet ys.head? = .error e := by
  constructor
  · exact Reader.exists_leads_of_readRest (r := {})
  · rintro ⟨xs, ys, r, rfl, hleads, hstop⟩
    exact (Reader.readRest_of_leads hleads ys).trans (Reader.readRest_of_meet hstop)

end Script

namespace Grammar

open Script (Reader Error elementLimit)

/-! ## What has been read in front of a refusal -/

theorem Part.stage_item (i : Item) (n : Nat) : (item i n).stage ≠ .gap ∧
    (∀ p, (item i n).stage ≠ .half p) ∧ ∀ s, (item i n).stage ≠ .halfPort s := by
  rcases i with ⟨⟨h, l, m, d | ⟨d, e⟩⟩ | ⟨d, l, m⟩, none | x⟩ <;> cases n <;> simp [stage]

section

variable {xs : List Char} {r : Reader} (h : Reads xs r)

include h

theorem Reads.gap (hstage : r.stage = .gap) :
    ∃ f : Front, xs = f.chars ∧ f.elements.length ≤ elementLimit ∧ r = f.reader .nothing := by
  obtain ⟨f, p, rfl, hroom, rfl⟩ := h
  cases p with
  | nothing => exact ⟨f, List.append_nil _, hroom, rfl⟩
  | item i n => exact absurd hstage (Part.stage_item i n).1
  | _ => cases hstage

theorem Reads.half {p : Pair} (hstage : r.stage = .half p) :
    ∃ f : Front, xs = f.chars ++ [p.letters.1] ∧ f.elements.length ≤ elementLimit ∧
      r = f.reader (.half p) := by
  obtain ⟨f, q, rfl, hroom, rfl⟩ := h
  cases q with
  | half q =>
    cases hstage
    exact ⟨f, rfl, hroom, rfl⟩
  | item i n => exact absurd hstage ((Part.stage_item i n).2.1 p)
  | _ => cases hstage

theorem Reads.halfPort {s : Source} (hstage : r.stage = .halfPort s) :
    ∃ (f : Front) (g : Head) (m n : Nat), xs = f.chars ++ (Part.colon g m n).chars ++ ['I'] ∧
      f.elements.length < elementLimit := by
  obtain ⟨f, q, rfl, hroom, rfl⟩ := h
  cases q with
  | halfPort g m n => exact ⟨f, g, m, n, (List.append_assoc ..).symm, hroom⟩
  | item i n => exact absurd hstage ((Part.stage_item i n).2.2 s)
  | _ => cases hstage

end

/-! ## Texts that can go on -/

/-- Some text that begins like this is a script. -/
def Viable (cs : List Char) : Prop := ∃ rest s, Script.readChars (cs ++ rest) = .ok s

namespace Front

variable {f : Front}

theorem viable (hsize : f.elements.length ≤ elementLimit) : Viable f.chars :=
  ⟨[], _, by rw [List.append_nil]; exact readChars_form (.ended f) hsize⟩

theorem viable_of_item (hroom : f.elements.length < elementLimit) (i : Item) (n : Nat)
    {cs : List Char} (rest : List Char) (h : f.chars ++ (Part.item i n).chars = cs ++ rest) : Viable cs := by
  have hchars : (Form.last f i n).chars = cs ++ rest := (List.append_assoc ..).trans h
  have hsize : (Form.last f i n).elements.length ≤ elementLimit := by
    rw [Form.elements, List.length_append]
    exact hroom
  exact ⟨rest, _, by rw [← hchars]; exact readChars_form _ hsize⟩

/-- Where no letter waits for the one behind it, a part can be made an element. -/
theorem viable_part {p : Part} (hroom : f.elements.length + p.begun ≤ elementLimit)
    (hwhole : p.stage.settled none = true) : Viable (f.chars ++ p.chars) := by
  cases p with
  | nothing =>
    rw [Part.chars, List.append_nil]
    exact viable hroom
  | half p => cases hwhole
  | halfPort h m n => cases hwhole
  | head h m =>
    exact viable_of_item hroom ⟨.timed h m 0 (.one 0), none⟩ 0 [':', '0'] (by simp)
  | colon h m n =>
    exact viable_of_item hroom ⟨.timed h m n (.one 0), none⟩ 0 ['0'] (by simp)
  | times b m n =>
    exact viable_of_item hroom ⟨b, some ⟨m, n, 0⟩⟩ 0 ['0'] (by simp)
  | item i n => exact viable_of_item hroom i n [] (List.append_nil _).symm

end Front

/-! ## What an error says -/

section

variable {xs : List Char} {r : Reader}

/-- The place of an error is the one that the reader stands in front of, or the last one it has read,
and the text can go on in front of it. -/
theorem Reads.pos_of_refuses (h : Reads xs r) {next? : Option Char} {e : Error}
    (hrefuses : r.Refuses next? e) {pos : Nat} (hpos : e.pos? = some pos) :
    pos ≤ xs.length ∧ xs.length ≤ pos + 1 ∧ Viable (xs.take pos) := by
  have hlength := Script.pos_of_reads h
  -- in front of a character or of the end, all that was read can go on
  have hwhole (hwhole : r.stage.settled none = true) :
      r.pos ≤ xs.length ∧ xs.length ≤ r.pos + 1 ∧ Viable (xs.take r.pos) := by
    rw [hlength, List.take_length]
    refine ⟨Nat.le_refl _, Nat.le_succ _, ?_⟩
    obtain ⟨f, p, rfl, hroom, rfl⟩ := h
    exact Front.viable_part hroom hwhole
  -- a letter that stands alone is left out
  have hletter {cs : List Char} {c : Char} (hxs : xs = cs ++ [c]) (hviable : Viable cs) :
      r.pos - 1 ≤ xs.length ∧ xs.length ≤ r.pos - 1 + 1 ∧ Viable (xs.take (r.pos - 1)) := by
    rw [hlength, hxs, List.length_append, List.length_singleton, Nat.add_sub_cancel,
      List.take_left]
    exact ⟨Nat.le_succ _, Nat.le_refl _, hviable⟩
  cases hrefuses with
  | character _ hw =>
    cases hpos
    exact hwhole hw
  | unfinished _ hw =>
    cases hpos
    exact hwhole hw
  | half hstage =>
    cases hpos
    obtain ⟨f, hxs, hsize, -⟩ := h.half hstage
    exact hletter hxs (Front.viable hsize)
  | halfPort hstage =>
    cases hpos
    obtain ⟨f, g, m, n, hxs, hroom⟩ := h.halfPort hstage
    exact hletter hxs (Front.viable_part (p := .colon g m n) hroom rfl)
  | tooMany => cases hpos
  | portSource => cases hpos

theorem Reads.char_of_refuses (h : Reads xs r) {ys : List Char} {c : Char} {pos : Nat}
    (hrefuses : r.Refuses ys.head? (.unexpected c pos)) : (xs ++ ys)[pos]? = some c := by
  have hlength := Script.pos_of_reads h
  have hletter {cs : List Char} {c : Char} (hxs : xs = cs ++ [c]) :
      (xs ++ ys)[r.pos - 1]? = some c := by
    rw [hlength, hxs]
    simp
  cases hrefuses with
  | character hnext _ =>
    rw [hlength, List.getElem?_append_right (Nat.le_refl _), Nat.sub_self,
      ← List.head?_eq_getElem?]
    exact hnext
  | half hstage =>
    obtain ⟨f, hxs, -⟩ := h.half hstage
    exact hletter hxs
  | halfPort hstage =>
    obtain ⟨f, g, m, n, hxs, -⟩ := h.halfPort hstage
    exact hletter hxs

/-- The script is full, and the source of a further element has just been read. -/
theorem Reads.front_of_refuses (h : Reads xs r) {ys : List Char}
    (hrefuses : r.Refuses ys.head? .tooMany) :
    ∃ (f : Front) (g : Head) (rest : List Char), xs ++ ys = f.chars ++ g.chars ++ rest ∧
      f.elements.length = elementLimit := by
  cases hrefuses with
  | tooMany hnext hbegins hfull =>
    obtain ⟨rest, rfl⟩ := List.head?_eq_some_iff.mp hnext
    rcases hbegins with ⟨hstage, g, hg⟩ | ⟨p, hstage, rfl⟩
    · obtain ⟨f, rfl, hsize, rfl⟩ := h.gap hstage
      exact ⟨f, g, rest, by simp [hg], Nat.le_antisymm hsize hfull⟩
    · obtain ⟨f, rfl, hsize, rfl⟩ := h.half hstage
      exact ⟨f, .pair p, rest, by simp [Part.chars_pair], Nat.le_antisymm hsize hfull⟩

end

theorem exists_reads_of_error {cs : List Char} {e : Error} (h : Script.readChars cs = .error e) :
    ∃ xs ys r, cs = xs ++ ys ∧ Reads xs r ∧ r.Refuses ys.head? e ∧
      ∀ zs : List Char, zs.head? = ys.head? → Script.readChars (xs ++ zs) = .error e := by
  obtain ⟨xs, ys, r, rfl, hleads, hstop⟩ := Script.readChars_eq_error_iff.mp h
  have hstart : Reads [] {} := ⟨.start [], .nothing, rfl, Nat.zero_le _, rfl⟩
  refine ⟨xs, ys, r, rfl, hstart.leads hleads, Reader.refuses_of_meet hstop, fun zs hzs => ?_⟩
  exact Script.readChars_eq_error_iff.mpr ⟨xs, zs, r, rfl, hleads, hzs ▸ hstop⟩

/-- A text that agrees with another one up to some place goes on as that one does. -/
theorem exists_append_of_agree {cs xs ys : List Char}
    (h : ∀ i ≤ xs.length, cs[i]? = (xs ++ ys)[i]?) :
    ∃ zs, cs = xs ++ zs ∧ zs.head? = ys.head? := by
  induction xs generalizing cs with
  | nil =>
    have hfirst := h 0 (Nat.le_refl _)
    exact ⟨cs, rfl, by rw [List.head?_eq_getElem?, List.head?_eq_getElem?]; exact hfirst⟩
  | cons x xs ih =>
    obtain ⟨cs, rfl⟩ : ∃ rest, cs = x :: rest := by
      have hfirst := h 0 (Nat.zero_le _)
      rw [← List.head?_eq_getElem?] at hfirst
      exact List.head?_eq_some_iff.mp hfirst
    obtain ⟨zs, rfl, hzs⟩ := ih fun i hi => h (i + 1) (Nat.succ_le_succ hi)
    exact ⟨zs, rfl, hzs⟩

/-- A text is refused for too many elements just where a tenth one begins behind nine. -/
theorem readChars_eq_tooMany_iff {cs : List Char} : Script.readChars cs = .error .tooMany ↔
    ∃ (f : Front) (g : Head) (rest : List Char), cs = f.chars ++ g.chars ++ rest ∧
      f.elements.length = elementLimit := by
  constructor
  · intro h
    obtain ⟨xs, ys, r, rfl, hreads, hrefuses, -⟩ := exists_reads_of_error h
    exact hreads.front_of_refuses hrefuses
  · rintro ⟨f, g, rest, rfl, hsize⟩
    have hfront := Front.leads_front f (Nat.le_of_eq hsize)
    have hoverflows := (hfront.overflows (Front.overflows_head g (Nat.le_of_eq hsize.symm))).append
      rest
    rw [Script.readChars, hoverflows]
    rfl

/--
**An error points at the first place that is at fault.** A character that is refused stands where the
error says, and an element that is cut off is so by a comma, a closing bracket or the end there. There
are too many elements just where the source of a tenth one stands behind nine that have been ended. In
front of the place of an error the text can go on to be a script; and any other text that agrees with
it up to there and in the character behind, or in there being none, is refused in the same way.
-/
theorem read_refused (text : String) :
    (∀ c pos, Script.read text = .error (.unexpected c pos) →
      pos < text.length ∧ text.toList[pos]? = some c) ∧
    (∀ pos, Script.read text = .error (.unfinished pos) →
      pos = text.length ∨ text.toList[pos]? = some ',' ∨ text.toList[pos]? = some ']') ∧
    (Script.read text = .error .tooMany ↔ ∃ (f : Front) (g : Head) (rest : List Char),
      text.toList = f.chars ++ g.chars ++ rest ∧ f.elements.length = 9) ∧
    ∀ e pos, Script.read text = .error e → e.pos? = some pos →
      Viable (text.toList.take pos) ∧
      ∀ other : String, (∀ i ≤ pos + 1, other.toList[i]? = text.toList[i]?) →
        Script.read other = .error e := by
  refine ⟨?_, ?_, readChars_eq_tooMany_iff, ?_⟩
  · intro c pos h
    obtain ⟨xs, ys, r, htext, hreads, hrefuses, -⟩ := exists_reads_of_error h
    have hc := hreads.char_of_refuses hrefuses
    rw [← htext] at hc
    rw [← String.length_toList]
    exact ⟨(List.getElem?_eq_some_iff.mp hc).1, hc⟩
  · intro pos h
    obtain ⟨xs, ys, r, htext, hreads, hrefuses, -⟩ := exists_reads_of_error h
    have hlength := Script.pos_of_reads hreads
    cases hrefuses with
    | unfinished hnext hwhole =>
      rw [← String.length_toList, htext, hlength, List.getElem?_append_right (Nat.le_refl _),
        Nat.sub_self, ← List.head?_eq_getElem?]
      refine hnext.imp_left fun hend => ?_
      rw [List.head?_eq_none_iff.mp hend, List.append_nil]
  · intro e pos h hpos
    obtain ⟨xs, ys, r, htext, hreads, hrefuses, hsame⟩ := exists_reads_of_error h
    obtain ⟨hle, hlast, hviable⟩ := hreads.pos_of_refuses hrefuses hpos
    constructor
    · rw [htext, List.take_append_of_le_length hle]
      exact hviable
    · intro other hagree
      rw [htext] at hagree
      obtain ⟨zs, hother, hzs⟩ :=
        exists_append_of_agree fun i hi => hagree i (Nat.le_trans hi hlast)
      rw [Script.read, hother]
      exact hsame zs hzs

/-- A letter that is refused only when the one behind it is seen, and an element that is cut off. -/
theorem read_refused_letter :
    Script.read "0:4,i:IO" = .error (.unexpected 'i' 4) ∧
      Script.read "0:4,i:3" = .error (.unexpected 'i' 4) ∧
      Script.read "0:4,1,2" = .error (.unfinished 5) ∧ Viable "0:4,1".toList ∧
      Script.read "0:4,1,2:3" = .error (.unfinished 5) := by
  have hletter : Script.read "0:4,i:IO" = .error (.unexpected 'i' 4) := by rfl
  have hcut : Script.read "0:4,1,2" = .error (.unfinished 5) := by rfl
  obtain ⟨-, -, -, hlocal⟩ := read_refused "0:4,i:IO"
  obtain ⟨-, -, -, hcutLocal⟩ := read_refused "0:4,1,2"
  obtain ⟨hviable, hothers⟩ := hcutLocal _ 5 hcut rfl
  refine ⟨hletter, ?_, hcut, hviable, ?_⟩
  · exact (hlocal _ 4 hletter rfl).2 "0:4,i:3" (by decide)
  · exact hothers "0:4,1,2:3" (by decide)

end Grammar

end SpectrumTiming
