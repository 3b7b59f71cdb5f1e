import SpectrumTiming.Proofs.Grammar

/-!
# What the reader accepts

The reader accepts the texts that the grammar has a tree for, up to nine elements, and reads them as
their trees say (`read_eq_ok_iff`).

Both directions speak of a text that is not yet over: it is a front and a `Part` of one more
element, and `Front.reader` is the reader that stands behind it. Every front and part is reached by
reading its characters (`Leads`); and wherever the reader is after any characters, there are a front
and a part with these characters (`Reads`), one character after the other.
-/

namespace SpectrumTiming

theorem Script.Reader.step_of_ne (r : Reader) {c : Char} (hspace : c ≠ ' ') (hcomma : c ≠ ',')
    (hclosing : c ≠ ']') : r.step c = r.extend c := by
  unfold step
  split
  · exact absurd rfl hspace
  · exact absurd rfl hcomma
  · exact absurd rfl hclosing
  · rfl

namespace Grammar

open Script (Stage Reader Error elementLimit)

/-! ## A text that is not yet over -/

/-- As much as there is of an element, with the spaces in it. -/
inductive Part
  | nothing
  | half (p : Pair)
  | head (h : Head) (before : Nat)
  | colon (h : Head) (before after : Nat)
  | halfPort (h : Head) (before after : Nat)
  | times (b : Body) (before after : Nat)
  | item (i : Item) (spaces : Nat)

namespace Part

@[simp]
def chars : Part → List Char
  | .nothing => []
  | .half p => [p.letters.1]
  | .head h m => h.chars ++ blanks m
  | .colon h m n => h.chars ++ blanks m ++ [':'] ++ blanks n
  | .halfPort h m n => h.chars ++ blanks m ++ [':'] ++ blanks n ++ ['I']
  | .times b m n => b.chars ++ blanks m ++ ['x'] ++ blanks n
  | .item i n => i.chars ++ blanks n

def stage : Part → Stage
  | .nothing => .gap
  | .half p => .half p
  | .head h _ => .source h.source
  | .colon h _ _ => .colon h.source
  | .halfPort h _ _ => .halfPort h.source
  | .times b _ _ => .times b.source b.cycles
  | .item ⟨b, some x⟩ _ => .factor b.source b.cycles x.digit
  -- a second digit has to touch the first
  | .item ⟨.timed h _ _ (.one d), none⟩ 0 => .digit h.source d
  | .item ⟨b, none⟩ _ => .count b.source b.cycles

theorem chars_pair (p : Pair) : (Head.pair p).chars = (half p).chars ++ [p.letters.2] := by
  cases p <;> rfl

theorem stage_counted (b : Body) (n : Nat) :
    (∃ h l m d, b = .timed h l m (.one d) ∧ n = 0) ∨
      (Part.item ⟨b, none⟩ n).stage = .count b.source b.cycles := by
  rcases b with ⟨h, l, m, d | ⟨d, e⟩⟩ | ⟨d, l, m⟩
  · cases n with
    | zero => exact .inl ⟨h, l, m, d, rfl, rfl⟩
    | succ n => exact .inr rfl
  · exact .inr rfl
  · exact .inr rfl

/-- How many elements have begun: the first letter of a pair begins none yet. -/
def begun : Part → Nat
  | .nothing | .half _ => 0
  | _ => 1

end Part

namespace Front

/-- The reader behind a front and a part of a further element. -/
def reader (f : Front) (p : Part) : Reader where
  pos := (f.chars ++ p.chars).length
  script := .ofElements f.elements
  stage := p.stage
  optional := opened f.chars

/-- A front with further gaps behind it. -/
def behind : Front → List Gap → Front
  | .start hs, gs => .start (hs ++ gs)
  | .close f i n e hs, gs => .close f i n e (hs ++ gs)

variable (f : Front)

theorem chars_behind (gs : List Gap) : (f.behind gs).chars = f.chars ++ gs.map Gap.char := by
  cases f <;> simp [behind, chars]

theorem elements_behind (gs : List Gap) : (f.behind gs).elements = f.elements := by
  cases f <;> rfl

theorem behind_cons (g : Gap) (gs : List Gap) : f.behind (g :: gs) = (f.behind [g]).behind gs := by
  cases f <;> simp [behind]

theorem chars_close (i : Item) (n : Nat) (e : Ending) :
    (close f i n e []).chars = f.chars ++ (Part.item i n).chars ++ [e.char] := by
  simp [chars]

/-! ## One character -/

variable {f}

theorem next_reader {p q : Part} {c : Char} (h : q.chars = p.chars ++ [c]) :
    (f.reader p).next q.stage = f.reader q := by
  have hlength : (f.chars ++ q.chars).length = (f.chars ++ p.chars).length + 1 := by
    rw [h, ← List.append_assoc, List.length_append]
    rfl
  simp only [reader, Reader.next, hlength]

theorem step_gap (f : Front) (g : Gap) :
    (f.reader .nothing).step g.char = .ok ((f.behind [g]).reader .nothing) := by
  have hreader : (f.behind [g]).reader .nothing =
      { f.reader .nothing with
        pos := (f.reader .nothing).pos + 1, optional := opened (f.chars ++ [g.char]) } := by
    simp [reader, elements_behind, chars_behind]
  rw [hreader]
  rcases g with _ | _ | _ | _
  · rw [opened_append rfl]
    rfl
  · rw [Gap.char, opened_opening]
    rfl
  · rw [opened_append rfl]
    rfl
  · rw [Gap.char, Ending.char, opened_closing]
    rfl

theorem space_item (i : Item) (n : Nat) :
    (f.reader (.item i n)).space = .ok (f.reader (.item i (n + 1))) := by
  have hchars : (Part.item i (n + 1)).chars = (Part.item i n).chars ++ [' '] := by simp
  rw [← next_reader hchars]
  rcases i with ⟨⟨h, l, m, d | ⟨d, e⟩⟩ | ⟨d, l, m⟩, none | x⟩ <;> cases n <;> rfl

theorem close_item (i : Item) (n : Nat) :
    (f.reader (.item i n)).close =
      .ok { f.reader (.item i n) with
        script := .ofElements (f.elements ++ [i.element (opened f.chars)]), stage := .gap } := by
  rw [Script.ofElements_concat]
  rcases i with ⟨⟨h, l, m, d | ⟨d, e⟩⟩ | ⟨d, l, m⟩, none | x⟩ <;> cases n <;> rfl

theorem step_ending (i : Item) (n : Nat) (e : Ending) :
    (f.reader (.item i n)).step e.char = .ok ((close f i n e []).reader .nothing) := by
  have hreader : (close f i n e []).reader .nothing =
      { f.reader (.item i n) with
        pos := (f.reader (.item i n)).pos + 1
        script := .ofElements (f.elements ++ [i.element (opened f.chars)])
        stage := .gap
        optional := opened (f.chars ++ (Part.item i n).chars ++ [e.char]) } := by
    simp [reader, chars_close, elements, Part.stage, Nat.add_assoc]
  rw [hreader]
  cases e with
  | comma =>
    have hplain : brackets ((Part.item i n).chars ++ [',']) = [] := by
      simp only [Part.chars, brackets_append, Item.brackets_chars, brackets_blanks]
      rfl
    rw [Ending.char, List.append_assoc, opened_append hplain]
    simp only [Reader.step, close_item]
    rfl
  | closing =>
    rw [Ending.char, opened_closing]
    simp only [Reader.step, close_item]
    rfl

theorem step_next {p q : Part} {c : Char} (h : q.chars = p.chars ++ [c])
    (hstep : (f.reader p).step c = .ok ((f.reader p).next q.stage)) :
    (f.reader p).step c = .ok (f.reader q) := by
  rw [hstep, next_reader h]

theorem step_start {p q : Part} {s : Source} {c : Char} (h : q.chars = p.chars ++ [c])
    (hstage : q.stage = .source s) (hroom : f.elements.length < elementLimit)
    (hstep : (f.reader p).step c = (f.reader p).start s) :
    (f.reader p).step c = .ok (f.reader q) := by
  have hsize : (f.reader p).script.size < elementLimit := hroom
  rw [hstep, Reader.start, if_pos hsize, ← hstage, next_reader h]

end Front

/-! ## What has a tree is read -/

/-- Between two readers lie these characters. -/
def Leads (r : Reader) (cs : List Char) (r' : Reader) : Prop := cs.foldlM Reader.step r = .ok r'

theorem Leads.append {r r' r'' : Reader} {xs ys : List Char} (h : Leads r xs r')
    (h' : Leads r' ys r'') : Leads r (xs ++ ys) r'' := by
  unfold Leads at *
  rw [List.foldlM_append, h]
  exact h'

theorem Leads.one {r r' : Reader} {c : Char} (h : r.step c = .ok r') : Leads r [c] r' := by
  simp only [Leads, List.foldlM_cons, List.foldlM_nil, h]
  rfl

theorem Leads.blanks {r : Nat → Reader} (h : ∀ n, (r n).step ' ' = .ok (r (n + 1))) (n : Nat) :
    Leads (r 0) (blanks n) (r n) := by
  induction n with
  | zero => rfl
  | succ n ih =>
    rw [blanks_succ]
    exact ih.append (.one (h n))

/-- No digit is a character that the reader knows otherwise. -/
theorem digitChar_not_mem (d : Fin 10) :
    Nat.digitChar d ∉ [' ', ',', ']', '[', 'i', 'b', 'N', 'I', 'x'] := by
  revert d
  decide

theorem step_digit (r : Reader) (d : Fin 10) :
    r.step (Nat.digitChar d) =
      match r.stage with
      | .gap => r.start (.memory d)
      | .colon s => .ok (r.next (.digit s d))
      | .digit s n => .ok (r.next (.count s (10 * n + d)))
      | .times s n => .ok (r.next (.factor s n d))
      | _ => r.extend (Nat.digitChar d) := by
  have hother := digitChar_not_mem d
  simp only [List.mem_cons, List.not_mem_nil, or_false, not_or] at hother
  rw [r.step_of_ne hother.1 hother.2.1 hother.2.2.1]
  unfold Reader.extend
  split <;> simp_all

namespace Front

variable {f : Front}

theorem leads_head (h : Head) (hroom : f.elements.length < elementLimit) :
    Leads (f.reader .nothing) h.chars (f.reader (.head h 0)) := by
  cases h with
  | slot d => exact .one (step_start rfl rfl hroom (step_digit _ d))
  | pair p =>
    have hhalf : (f.reader .nothing).step p.letters.1 = .ok (f.reader (.half p)) :=
      step_next rfl (by cases p <;> rfl)
    have hwhole : (f.reader (.half p)).step p.letters.2 = .ok (f.reader (.head (.pair p) 0)) :=
      step_start (by simp [Part.chars_pair]) rfl hroom (by cases p <;> rfl)
    rw [Part.chars_pair]
    exact (Leads.one hhalf).append (.one hwhole)
  | idle => exact .one (step_start rfl rfl hroom rfl)

theorem leads_colon (h : Head) (m n : Nat) (hroom : f.elements.length < elementLimit) :
    Leads (f.reader .nothing) (Part.colon h m n).chars (f.reader (.colon h m n)) := by
  have hbefore := Leads.blanks (r := fun m => f.reader (.head h m))
    (fun m => step_next (by simp) rfl) m
  have hcolon : (f.reader (.head h m)).step ':' = .ok (f.reader (.colon h m 0)) :=
    step_next (by simp) rfl
  have hafter := Leads.blanks (r := fun n => f.reader (.colon h m n))
    (fun n => step_next (by simp) rfl) n
  exact (((leads_head h hroom).append hbefore).append (.one hcolon)).append hafter

theorem leads_body (b : Body) (hroom : f.elements.length < elementLimit) :
    Leads (f.reader .nothing) b.chars (f.reader (.item ⟨b, none⟩ 0)) := by
  rcases b with ⟨h, m, n, d | ⟨d, e⟩⟩ | ⟨d, m, n⟩
  · have hone : (f.reader (.colon h m n)).step (Nat.digitChar d) =
        .ok (f.reader (.item ⟨.timed h m n (.one d), none⟩ 0)) :=
      step_next (by simp) (step_digit _ d)
    exact (leads_colon h m n hroom).append (.one hone)
  · have hone : (f.reader (.colon h m n)).step (Nat.digitChar d) =
        .ok (f.reader (.item ⟨.timed h m n (.one d), none⟩ 0)) :=
      step_next (by simp) (step_digit _ d)
    have htwo : (f.reader (.item ⟨.timed h m n (.one d), none⟩ 0)).step (Nat.digitChar e) =
        .ok (f.reader (.item ⟨.timed h m n (.two d e), none⟩ 0)) :=
      step_next (by simp) (step_digit _ e)
    exact (leads_colon h m n hroom).append ((Leads.one hone).append (.one htwo))
  · have hI : (f.reader (.colon (.slot d) m n)).step 'I' =
        .ok (f.reader (.halfPort (.slot d) m n)) :=
      step_next (by simp) rfl
    have hO : (f.reader (.halfPort (.slot d) m n)).step 'O' =
        .ok (f.reader (.item ⟨.port d m n, none⟩ 0)) :=
      step_next (by simp) rfl
    exact (leads_colon (.slot d) m n hroom).append ((Leads.one hI).append (.one hO))

theorem step_times (b : Body) (n : Nat) :
    (f.reader (.item ⟨b, none⟩ n)).step 'x' = .ok (f.reader (.times b n 0)) := by
  refine step_next (by simp) ?_
  rcases b with ⟨h, l, m, d | ⟨d, e⟩⟩ | ⟨d, l, m⟩ <;> cases n <;> rfl

theorem leads_item (i : Item) (n : Nat) (hroom : f.elements.length < elementLimit) :
    Leads (f.reader .nothing) (Part.item i n).chars (f.reader (.item i n)) := by
  have hblanks (i : Item) (n : Nat) :
      Leads (f.reader (.item i 0)) (blanks n) (f.reader (.item i n)) :=
    Leads.blanks (fun n => space_item i n) n
  rcases i with ⟨b, none | x⟩
  · simpa using (leads_body b hroom).append (hblanks _ n)
  · have htimes := Leads.blanks (r := fun m => f.reader (.times b x.before m))
      (fun m => step_next (by simp) rfl) x.after
    have hdigit : (f.reader (.times b x.before x.after)).step (Nat.digitChar x.digit) =
        .ok (f.reader (.item ⟨b, some x⟩ 0)) :=
      step_next (by simp) (step_digit _ x.digit)
    have hfactor := ((hblanks ⟨b, none⟩ x.before).append (.one (step_times b x.before))).append
      (htimes.append (.one hdigit))
    simpa using ((leads_body b hroom).append hfactor).append (hblanks _ n)

theorem leads_gaps (gs : List Gap) : ∀ f : Front,
    Leads (f.reader .nothing) (gs.map Gap.char) ((f.behind gs).reader .nothing) := by
  induction gs with
  | nil =>
    intro f
    have hsame : f.behind [] = f := by cases f <;> simp [behind]
    rw [hsame]
    rfl
  | cons g gs ih =>
    intro f
    rw [behind_cons]
    exact (Leads.one (step_gap f g)).append (ih (f.behind [g]))

theorem leads_front (f : Front) (hsize : f.elements.length ≤ elementLimit) :
    Leads {} f.chars (f.reader .nothing) := by
  induction f with
  | start gs => exact leads_gaps gs (.start [])
  | close f i n e gs ih =>
    have hroom : f.elements.length < elementLimit := by
      rw [elements, List.length_append] at hsize
      exact hsize
    have hitem := (ih (Nat.le_of_lt hroom)).append (leads_item i n hroom)
    have hclosed := (hitem.append (.one (step_ending i n e))).append
      (leads_gaps gs (.close f i n e []))
    simpa [chars, behind] using hclosed

end Front

/-! ## What is read has a tree -/

/-- The reader has a tree for all that it has read. -/
def Reads (cs : List Char) (r : Reader) : Prop :=
  ∃ (f : Front) (p : Part), f.chars ++ p.chars = cs ∧
    f.elements.length + p.begun ≤ elementLimit ∧ r = f.reader p

theorem digit_of_elim {r r' : Reader} {c : Char} {k : Nat → Except Error Reader}
    (h : (digit? c).elim (r.refuse c) k = .ok r') :
    ∃ d : Fin 10, Nat.digitChar d = c ∧ k d = .ok r' := by
  cases hd : digit? c with
  | none => simp [hd, Reader.refuse] at h
  | some n =>
    obtain ⟨d, rfl, hc⟩ := digit?_eq_some_iff.mp hd
    rw [hd] at h
    exact ⟨d, hc, h⟩

namespace Front

variable {f : Front} {p : Part} {r : Reader}

theorem reads_next {q : Part} {c : Char} (h : q.chars = p.chars ++ [c])
    (hroom : f.elements.length + q.begun ≤ elementLimit) :
    Reads (f.chars ++ p.chars ++ [c]) ((f.reader p).next q.stage) :=
  ⟨f, q, by rw [h, List.append_assoc], hroom, next_reader h⟩

theorem reads_start {q : Part} {s : Source} {c : Char} (h : q.chars = p.chars ++ [c])
    (hbegun : q.begun = 1) (hstage : q.stage = .source s) (hok : (f.reader p).start s = .ok r) :
    Reads (f.chars ++ p.chars ++ [c]) r := by
  unfold Reader.start at hok
  split at hok
  · rename_i hroom
    cases hok
    rw [← hstage]
    exact reads_next h (by rw [hbegun]; exact hroom)
  · cases hok

theorem reads_gap (g : Gap) (hsize : f.elements.length ≤ elementLimit)
    (hok : (f.reader .nothing).step g.char = .ok r) : Reads (f.chars ++ [g.char]) r := by
  rw [step_gap] at hok
  cases hok
  exact ⟨f.behind [g], .nothing, by simp [chars_behind], by rwa [elements_behind], rfl⟩

theorem reads_space (hroom : f.elements.length + p.begun ≤ elementLimit)
    (hok : (f.reader p).space = .ok r) : Reads (f.chars ++ p.chars ++ [' ']) r := by
  cases p with
  | nothing =>
    rw [Part.chars, List.append_nil]
    exact reads_gap .space hroom hok
  | half p => cases p <;> cases hok
  | halfPort h m n => cases hok
  | head h m =>
    cases hok
    exact reads_next (q := .head h (m + 1)) (by simp) hroom
  | colon h m n =>
    cases hok
    exact reads_next (q := .colon h m (n + 1)) (by simp) hroom
  | times b m n =>
    cases hok
    exact reads_next (q := .times b m (n + 1)) (by simp) hroom
  | item i n =>
    rw [space_item] at hok
    cases hok
    exact ⟨f, .item i (n + 1), by simp, hroom, rfl⟩

theorem reads_ending (e : Ending) (hroom : f.elements.length + p.begun ≤ elementLimit)
    (hok : (f.reader p).step e.char = .ok r) : Reads (f.chars ++ p.chars ++ [e.char]) r := by
  cases p with
  | nothing =>
    rw [Part.chars, List.append_nil]
    exact reads_gap (.ending e) hroom hok
  | item i n =>
    rw [step_ending] at hok
    cases hok
    refine ⟨.close f i n e [], .nothing, by simp [chars], ?_, rfl⟩
    rw [elements, List.length_append]
    exact hroom
  | _ => cases e <;> cases hok

/-- Where no element has begun, a character opens a bracket or begins one. -/
theorem reads_first {c : Char} (hsize : f.elements.length ≤ elementLimit)
    (hok : (f.reader .nothing).extend c = .ok r) : Reads (f.chars ++ [c]) r := by
  have hstart {q : Part} {s : Source} (h : q.chars = [c]) (hbegun : q.begun = 1)
      (hstage : q.stage = .source s) (hok : (f.reader .nothing).start s = .ok r) :
      Reads (f.chars ++ [c]) r := by
    simpa using reads_start (p := .nothing) h hbegun hstage hok
  have hhalf {q : Part} (h : q.chars = [c]) (hbegun : q.begun = 0)
      (hok : Except.ok (ε := Error) ((f.reader .nothing).next q.stage) = .ok r) :
      Reads (f.chars ++ [c]) r := by
    cases hok
    simpa using reads_next (p := .nothing) h (by rw [hbegun]; exact hsize)
  unfold Reader.extend at hok
  simp only [reader, Part.stage] at hok
  split at hok
  · exact reads_gap .opening hsize hok
  · exact hhalf (q := .half .ir) rfl rfl hok
  · exact hhalf (q := .half .bc) rfl rfl hok
  · exact hstart (q := .head .idle 0) rfl rfl rfl hok
  · obtain ⟨d, rfl, hd⟩ := digit_of_elim hok
    exact hstart (q := .head (.slot d) 0) rfl rfl rfl hd

/-- Behind a count there may be a factor, and behind its first digit a second one. -/
theorem reads_counted {b : Body} {n : Nat} {c : Char} (hroom : f.elements.length + 1 ≤ elementLimit)
    (hok : (f.reader (.item ⟨b, none⟩ n)).extend c = .ok r) :
    Reads (f.chars ++ (Part.item ⟨b, none⟩ n).chars ++ [c]) r := by
  by_cases hx : c = 'x'
  · subst hx
    have htimes : (f.reader (.item ⟨b, none⟩ n)).extend 'x' = .ok (f.reader (.times b n 0)) :=
      step_times b n
    rw [htimes] at hok
    cases hok
    exact ⟨f, .times b n 0, by simp, hroom, rfl⟩
  · rcases Part.stage_counted b n with ⟨h, l, m, d, rfl, rfl⟩ | hstage
    · unfold Reader.extend at hok
      simp only [reader, Part.stage, if_neg hx] at hok
      obtain ⟨e, rfl, he⟩ := digit_of_elim hok
      cases he
      exact reads_next (q := .item ⟨.timed h l m (.two d e), none⟩ 0) (by simp) hroom
    · unfold Reader.extend at hok
      simp only [reader, hstage, if_neg hx] at hok
      cases hok

theorem reads_extend {c : Char} (hroom : f.elements.length + p.begun ≤ elementLimit)
    (hok : (f.reader p).extend c = .ok r) : Reads (f.chars ++ p.chars ++ [c]) r := by
  cases p with
  | nothing =>
    rw [Part.chars, List.append_nil]
    exact reads_first hroom hok
  | half p =>
    unfold Reader.extend at hok
    simp only [reader, Part.stage] at hok
    split at hok
    · rename_i hc
      exact reads_start (q := .head (.pair p) 0) (by simp [Part.chars_pair, hc]) rfl rfl hok
    · cases hok
  | head h m =>
    unfold Reader.extend at hok
    simp only [reader, Part.stage] at hok
    split at hok
    · rename_i hc
      cases hok
      exact reads_next (q := .colon h m 0) (by simp [hc]) hroom
    · cases hok
  | colon h m n =>
    unfold Reader.extend at hok
    simp only [reader, Part.stage] at hok
    split at hok
    · rename_i hc
      cases hok
      exact reads_next (q := .halfPort h m n) (by simp [hc]) hroom
    · obtain ⟨d, rfl, hd⟩ := digit_of_elim hok
      cases hd
      exact reads_next (q := .item ⟨.timed h m n (.one d), none⟩ 0) (by simp) hroom
  | halfPort h m n =>
    unfold Reader.extend at hok
    simp only [reader, Part.stage] at hok
    split at hok
    · rename_i hc
      cases h with
      | slot d =>
        cases hok
        exact reads_next (q := .item ⟨.port d m n, none⟩ 0) (by simp [hc]) hroom
      | pair p => cases hok
      | idle => cases hok
    · cases hok
  | times b m n =>
    obtain ⟨d, rfl, hd⟩ := digit_of_elim hok
    cases hd
    exact reads_next (q := .item ⟨b, some ⟨m, n, d⟩⟩ 0) (by simp) hroom
  | item i n =>
    obtain ⟨b, none | x⟩ := i
    · exact reads_counted hroom hok
    · cases hok

end Front

theorem Reads.step {cs : List Char} {c : Char} {r r' : Reader} (h : Reads cs r)
    (hok : r.step c = .ok r') : Reads (cs ++ [c]) r' := by
  obtain ⟨f, p, rfl, hroom, rfl⟩ := h
  by_cases hspace : c = ' '
  · subst hspace
    exact Front.reads_space hroom hok
  by_cases hcomma : c = ','
  · subst hcomma
    exact Front.reads_ending .comma hroom hok
  by_cases hclosing : c = ']'
  · subst hclosing
    exact Front.reads_ending .closing hroom hok
  rw [(f.reader p).step_of_ne hspace hcomma hclosing] at hok
  exact Front.reads_extend hroom hok

theorem Reads.leads {r r' : Reader} {ds : List Char} : ∀ {cs : List Char}, Reads cs r →
    Leads r ds r' → Reads (cs ++ ds) r' := by
  induction ds generalizing r with
  | nil =>
    intro cs h hleads
    cases hleads
    rwa [List.append_nil]
  | cons d ds ih =>
    intro cs h hleads
    unfold Leads at hleads
    rw [List.foldlM_cons] at hleads
    cases hstep : r.step d with
    | error e => rw [hstep] at hleads; cases hleads
    | ok r1 =>
      rw [hstep] at hleads
      have hrest := ih (h.step hstep) hleads
      rwa [List.append_assoc] at hrest

/-! ## Acceptance -/

theorem Front.finish_item {f : Front} (i : Item) (n : Nat) :
    (f.reader (.item i n)).finish = .ok (.ofElements (Form.last f i n).elements) := by
  rw [Reader.finish, Front.close_item]
  rfl

/-- A text with a tree is read as what the tree means. -/
theorem readChars_form (t : Form) (hsize : t.elements.length ≤ elementLimit) :
    Script.readChars t.chars = .ok (.ofElements t.elements) := by
  cases t with
  | ended f =>
    have hleads := Front.leads_front f hsize
    unfold Leads at hleads
    rw [Script.readChars, Form.chars, hleads]
    rfl
  | last f i n =>
    have hroom : f.elements.length < elementLimit := by
      rw [Form.elements, List.length_append] at hsize
      exact hsize
    have hleads := (Front.leads_front f (Nat.le_of_lt hroom)).append (Front.leads_item i n hroom)
    unfold Leads at hleads
    have hchars : (Form.last f i n).chars = f.chars ++ (Part.item i n).chars :=
      List.append_assoc _ _ _
    rw [Script.readChars, hchars, hleads]
    exact Front.finish_item i n

/-- A text that is read has a tree. -/
theorem exists_form_of_readChars {cs : List Char} {s : Script} (h : Script.readChars cs = .ok s) :
    ∃ t : Form, t.chars = cs ∧ t.elements.length ≤ elementLimit ∧ s = .ofElements t.elements := by
  unfold Script.readChars at h
  cases hleads : cs.foldlM Reader.step {} with
  | error e => rw [hleads] at h; cases h
  | ok r =>
    rw [hleads] at h
    have hstart : Reads [] {} := ⟨.start [], .nothing, rfl, Nat.zero_le _, rfl⟩
    obtain ⟨f, p, hchars, hroom, rfl⟩ := hstart.leads hleads
    rw [List.nil_append] at hchars
    have hfinish : (f.reader p).finish = .ok s := h
    cases p with
    | nothing =>
      cases hfinish
      exact ⟨.ended f, by simpa [Form.chars] using hchars, hroom, rfl⟩
    | item i n =>
      rw [Front.finish_item] at hfinish
      cases hfinish
      refine ⟨.last f i n, ?_, ?_, rfl⟩
      · rw [← hchars]
        exact List.append_assoc _ _ _
      · rw [Form.elements, List.length_append]
        exact hroom
    | _ => cases hfinish

/--
**The reader accepts the scripts and no other text.** A text is read just when the grammar has a
tree for it with no more than nine elements, and then it is read as the elements of that tree, with
the T-states of the mandatory and of the optional ones added up.
-/
theorem read_eq_ok_iff (text : String) (s : Script) :
    Script.read text = .ok s ↔ ∃ t : Form, t.chars = text.toList ∧ t.elements.length ≤ 9 ∧
      s = .ofElements t.elements := by
  constructor
  · exact exists_form_of_readChars
  · rintro ⟨t, hchars, hsize, rfl⟩
    rw [Script.read, ← hchars]
    exact readChars_form t hsize

example : Script.read " [0 : IO x2 ] ,ir:11" =
    .ok (.ofElements [⟨.port 0, 4, 2, true⟩, ⟨.pair .ir, 11, 1, false⟩]) := by
  rfl

end Grammar

end SpectrumTiming
