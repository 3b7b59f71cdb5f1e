import SpectrumTiming.Proofs.Schedule

/-!
# Suspending a walk

A walk over a script stops where an access is missing or the optional path is not confirmed, and is
taken up again later. `walk_learn` is about one such stop and the costs it leaves. Here the walk has
its clock beside it and may be called at any time, between any accesses and confirmations: the
capture and the clock end up as if all had been known before the first call (`run_suspended`).

This holds for any script, any clock and any capture, also one that no instruction could have led to.
-/

namespace SpectrumTiming

open Capture

/-- A capture that is walked, and the clock that pays for it. -/
structure Walker (ι : Type) where
  capture : Capture ι
  clock : Clock

namespace Walker

variable {ι : Type}

/-- What can be done between the beginning and the end of a walk. -/
inductive Step
  | push (a : Access)
  | confirm
  | walk
deriving DecidableEq

def Step.access? : Step → Option Access
  | .push a => some a
  | .confirm | .walk => none

def walk (u : Ula) (s : Script) (w : Walker ι) : Walker ι where
  capture := (w.capture.walk s).1
  clock := w.clock.payAll u (w.capture.walk s).2

def step (u : Ula) (s : Script) (w : Walker ι) : Step → Walker ι
  | .push a => { w with capture := w.capture.push a }
  | .confirm => { w with capture := { w.capture with taken := true } }
  | .walk => w.walk u s

def run (u : Ula) (s : Script) (w : Walker ι) (xs : List Step) : Walker ι := xs.foldl (step u s) w

/-- The elements that are charged, in the order in which they are. -/
def charged (u : Ula) (s : Script) (w : Walker ι) : List Step → List Element
  | [] => []
  | .walk :: xs => w.capture.ready s ++ (w.walk u s).charged u s xs
  | x :: xs => (w.step u s x).charged u s xs

/-! ## Only what is known in the end counts -/

def learn (w : Walker ι) (ev : Evidence) : Walker ι := { w with capture := w.capture.learn ev }

theorem learn_learn (w : Walker ι) (e f : Evidence) :
    (w.learn e).learn f = w.learn (e.andThen f) := by
  simp [learn, Capture.learn_learn]

theorem walk_learn (u : Ula) (s : Script) (w : Walker ι) (ev : Evidence) :
    ((w.walk u s).learn ev).walk u s = (w.learn ev).walk u s := by
  simp only [walk, learn]
  rw [Capture.walk_learn w.capture ev s, Clock.payAll_append]

/-- What the steps tell all together. -/
def told (xs : List Step) : Evidence where
  accesses := xs.filterMap Step.access?
  taken := xs.contains .confirm

theorem told_append (xs ys : List Step) : told (xs ++ ys) = (told xs).andThen (told ys) := by
  simp [told, Evidence.andThen, List.contains_eq_mem]

theorem walk_run (u : Ula) (s : Script) : ∀ (xs : List Step) (w : Walker ι),
    (w.run u s xs).walk u s = (w.learn (told xs)).walk u s := by
  intro xs
  induction xs with
  | nil =>
    intro w
    have hempty : w.learn (told []) = w := by simp [learn, told]
    rw [hempty]
    rfl
  | cons x xs ih =>
    intro w
    have hrun : w.run u s (x :: xs) = (w.step u s x).run u s xs := rfl
    rw [hrun, ih, ← List.singleton_append, told_append, ← learn_learn]
    cases x with
    | push a =>
      have hpush : w.step u s (.push a) = w.learn (told [.push a]) := by
        simp [step, learn, told, Step.access?, Capture.learn, Capture.push]
      rw [hpush]
    | confirm =>
      have hconfirm : w.step u s .confirm = w.learn (told [.confirm]) := by
        simp [step, learn, told, Step.access?, Capture.learn]
      rw [hconfirm]
    | walk =>
      -- a walk tells nothing, and what it charges early is not charged again
      have hnothing : told [.walk] = {} := rfl
      have hsame : w.learn {} = w := by simp [learn]
      rw [hnothing, hsame]
      exact walk_learn u s w (told xs)

/-! ## What is charged on the way -/

/-- The cursor counts the elements that are charged, and they are those it passes. -/
theorem charged_eq_take (u : Ula) (s : Script) : ∀ (xs : List Step) (w : Walker ι),
    (w.run u s xs).capture.cursor = w.capture.cursor + (w.charged u s xs).length ∧
      w.charged u s xs = (s.elements.drop w.capture.cursor).take (w.charged u s xs).length := by
  intro xs
  induction xs with
  | nil =>
    intro w
    exact ⟨rfl, by simp [charged]⟩
  | cons x xs ih =>
    intro w
    have hrun : w.run u s (x :: xs) = (w.step u s x).run u s xs := rfl
    rw [hrun]
    cases x with
    | push a => exact ih _
    | confirm => exact ih _
    | walk =>
      obtain ⟨hcursor, htake⟩ := ih (w.walk u s)
      have hpass : (w.walk u s).capture.cursor = w.capture.cursor + (w.capture.ready s).length := rfl
      have hready : w.capture.ready s <+: s.elements.drop w.capture.cursor :=
        List.takeWhile_prefix _
      have hfirst := List.prefix_iff_eq_take.mp hready
      have hcharged : w.charged u s (.walk :: xs) =
          w.capture.ready s ++ (w.walk u s).charged u s xs := rfl
      rw [hcharged, List.length_append]
      refine ⟨?_, ?_⟩
      · show ((w.walk u s).run u s xs).capture.cursor = _
        rw [hcursor, hpass, Nat.add_assoc]
      · rw [List.take_add, ← hfirst, List.drop_drop, ← hpass, ← htake]

/--
**A walk may be suspended anywhere.** However accesses, confirmations and walks follow each other:
once a last walk has been done, the capture and the clock are those of any other list of steps with
the same accesses in the same order that confirms if this one does; in particular of the one that
does all walks at its end, in one. To walk twice is to walk once. On the way the elements from the
cursor on are charged in their order, as many as the cursor moves, none twice and none left out.
-/
theorem run_suspended (u : Ula) (s : Script) (w : Walker ι) (xs : List Step) :
    (∀ ys : List Step, ys.filterMap Step.access? = xs.filterMap Step.access? →
      (.confirm ∈ ys ↔ .confirm ∈ xs) →
      w.run u s (xs ++ [.walk]) = w.run u s (ys ++ [.walk])) ∧
    (w.walk u s).walk u s = w.walk u s ∧
    (w.run u s xs).capture.cursor = w.capture.cursor + (w.charged u s xs).length ∧
    w.charged u s xs = (s.elements.drop w.capture.cursor).take (w.charged u s xs).length := by
  have hlast (zs : List Step) : w.run u s (zs ++ [.walk]) = (w.learn (told zs)).walk u s := by
    rw [← walk_run]
    simp only [run, List.foldl_append]
    rfl
  refine ⟨?_, ?_, charged_eq_take u s xs w⟩
  · intro ys haccesses hconfirm
    have htaken : ys.contains .confirm = xs.contains .confirm := by
      rw [Bool.eq_iff_iff, List.contains_iff_mem, List.contains_iff_mem]
      exact hconfirm
    have htold : told ys = told xs := by
      simp only [told, haccesses, htaken]
    rw [hlast xs, hlast ys, htold]
  · have htwice := walk_learn u s w {}
    simpa only [learn, Capture.learn_empty] using htwice

/-- The script of `LDIR`, walked at every access and in one. -/
theorem run_suspended_ldir :
    (run .spectrum48k (Standard.script .sinclair 33) (⟨{}, {}⟩ : Walker ScriptNumber)
        ([.push ⟨0x8000, 0xED, .memoryRead, ""⟩, .walk, .push ⟨0x8001, 0xB0, .memoryRead, ""⟩, .walk,
          .walk, .confirm, .push ⟨0x4000, 0x12, .memoryRead, ""⟩, .walk,
          .push ⟨0x5000, 0x12, .memoryWrite, ""⟩] ++ [.walk])) =
      run .spectrum48k (Standard.script .sinclair 33) (⟨{}, {}⟩ : Walker ScriptNumber)
        ([.push ⟨0x8000, 0xED, .memoryRead, ""⟩, .push ⟨0x8001, 0xB0, .memoryRead, ""⟩,
          .push ⟨0x4000, 0x12, .memoryRead, ""⟩, .push ⟨0x5000, 0x12, .memoryWrite, ""⟩,
          .confirm] ++ [.walk]) :=
  (run_suspended .spectrum48k (Standard.script .sinclair 33) ⟨{}, {}⟩ _).1 _ (by decide) (by decide)

end Walker

end SpectrumTiming
