import Mathlib.Data.List.TakeWhile
import SpectrumTiming.Proofs.Delays
import SpectrumTiming.Proofs.Overflow
import SpectrumTiming.Proofs.Reconciliation
import SpectrumTiming.Proofs.Suspension
import SpectrumTiming.Proofs.WellFormed

/-!
# The sums of a script and what its walk charges

The reader adds up the T-states of a script, factor times count for each element. A walk over the
whole script charges as much, whatever the text, as long as no port cycle is written with a factor:
the reader multiplies it like any other element and the walk pays it once. The two differ by four
T-states for each repetition of a port cycle (`walk_of_read`), and so the sums of `0:IOx2` are not
what is charged (`exists_walk_ne_total`). No standard script has such an element
(`Script.Regular.port_total`).
-/

namespace SpectrumTiming

open Capture

/-! ## Port cycles of a script that was read -/

namespace Script

/-- How many elements are port cycles. -/
def ports (s : Script) : Nat := s.elements.countP Element.isPort

/-- How many port cycles there would be if each were paid as often as its factor says. -/
def portRepeats (s : Script) : Nat :=
  ((s.elements.filter Element.isPort).map Element.repeats).sum

/-- Each element is charged for what it counts, but for the repetitions of a port cycle. -/
theorem sum_charge {es : List Element} (hport : ∀ e ∈ es, e.isPort = true → e.cycles = portCycles) :
    (es.map Element.charge).sum +
        portCycles * ((es.filter Element.isPort).map Element.repeats).sum =
      (es.map Element.total).sum + portCycles * es.countP Element.isPort := by
  induction es with
  | nil => rfl
  | cons e es ih =>
    obtain ⟨he, hes⟩ := List.forall_mem_cons.mp hport
    have hrest := ih hes
    rw [List.map_cons, List.map_cons, List.sum_cons, List.sum_cons]
    by_cases hp : e.isPort = true
    · have htotal : e.total = portCycles * e.repeats := by rw [Element.total, he hp]
      rw [List.filter_cons_of_pos hp, List.countP_cons_of_pos hp, List.map_cons, List.sum_cons,
        Element.charge, if_pos hp, htotal, Nat.mul_add, Nat.mul_add]
      omega
    · rw [List.filter_cons_of_neg hp, List.countP_cons_of_neg hp, Element.charge, if_neg hp]
      omega

theorem cycles_of_read {text : String} {s : Script} (h : read text = .ok s) {e : Element}
    (he : e ∈ s.elements) (hport : e.isPort = true) : e.cycles = portCycles :=
  ((wellFormed_of_read h).elements e he).cycles_port hport

theorem total_of_read {text : String} {s : Script} (h : read text = .ok s) :
    s.total = (s.elements.map Element.total).sum :=
  (wellFormed_of_read h).total_eq

end Script

/-! ## One walk over the whole script -/

namespace Walker

variable {ι : Type}

/-- With all accesses in the log and the optional path taken nothing is left out. -/
theorem ready_of_slots_le {s : Script} {c : Capture ι} (hcursor : c.cursor = 0)
    (htaken : c.taken = true) (hlog : s.slots ≤ c.log.length) : c.ready s = s.elements := by
  have hall : ∀ e ∈ s.elements, c.unlocks e = true := by
    intro e he
    have hslot : e.slot?.all (· < c.log.length) = true := by
      rw [Option.all_eq_true]
      intro slot hs
      exact decide_eq_true (Script.slots_le_iff.mp hlog e he slot hs)
    rw [unlocks, hslot, htaken, Bool.or_true, Bool.and_true]
  rw [ready, hcursor, List.drop_zero]
  exact List.takeWhile_eq_self_iff.mpr hall

/--
**What a walk over a whole script charges.** Take any text that is read as a script, any machine and
any walker at the beginning of the script that takes the optional path and has logged as many
accesses as the script has slots. One walk moves the cursor to the end. It charges the T-states that
the script carries as its sums, but each port cycle once and not as often as its factor says; in
particular it charges just these sums if no port cycle is repeated. Without delays the clock moves
by what is charged. What is charged is added in 32 bits.
-/
theorem walk_of_read {text : String} {s : Script} (hread : Script.read text = .ok s) (u : Ula)
    (w : Walker ι) (hcursor : w.capture.cursor = 0) (htaken : w.capture.taken = true)
    (hlog : s.slots ≤ w.capture.log.length) :
    (w.walk u s).capture.cursor = s.size ∧
    ∃ charged, (w.walk u s).capture.consumed = w.capture.consumed + UInt32.ofNat charged ∧
      (w.capture.consumed.toNat + charged < 2 ^ 32 →
        (w.walk u s).capture.consumed.toNat = w.capture.consumed.toNat + charged) ∧
      charged + Script.portCycles * s.portRepeats = s.total + Script.portCycles * s.ports ∧
      ((∀ e ∈ s.elements, e.isPort = true → e.repeats = 1) → charged = s.total) ∧
      (u.Undelayed → (w.walk u s).clock.elapsed = w.clock.elapsed + charged) := by
  have hready := ready_of_slots_le hcursor htaken hlog
  have hcosts : Cost.total (w.capture.walk s).2 = (s.elements.map Element.charge).sum := by
    rw [← hready]
    exact total_flatMap_costs_eq_charge w.capture _
  have hconsumed : (w.walk u s).capture.consumed =
      w.capture.consumed + UInt32.ofNat (s.elements.map Element.charge).sum := by
    rw [← hcosts]
    rfl
  have hport : ∀ e ∈ s.elements, e.isPort = true → e.cycles = Script.portCycles :=
    fun e he => Script.cycles_of_read hread he
  refine ⟨?_, (s.elements.map Element.charge).sum, hconsumed, fun hfits => ?_, ?_, fun honce => ?_,
    fun h => ?_⟩
  · show w.capture.cursor + (w.capture.ready s).length = s.size
    rw [hready, hcursor, Nat.zero_add]
    rfl
  · rw [hconsumed, toNat_add_of_fits hfits]
  · rw [Script.total_of_read hread]
    exact Script.sum_charge hport
  · have hcharge : s.elements.map Element.charge = s.elements.map Element.total := by
      refine List.map_congr_left fun e he => e.charge_eq_total fun hp => ?_
      rw [Element.total, hport e he hp, honce e he hp]
      rfl
    rw [hcharge, Script.total_of_read hread]
  · have helapsed : (w.walk u s).clock.elapsed =
        w.clock.elapsed +
          (Cost.total (w.capture.walk s).2 + w.clock.waits u (w.capture.walk s).2) :=
      Clock.elapsed_payAll _ _
    rw [helapsed, hcosts, Clock.waits_of_undelayed h, Nat.add_zero]

/-- A script with an optional port cycle, and with another one repeated. -/
theorem walk_of_read_ports :
    ((⟨{ taken := true, log := [⟨0x8000, 0xDB, .memoryRead, ""⟩, ⟨0x40FE, 0xFF, .portRead, ""⟩] },
        {}⟩ : Walker ScriptNumber).walk .undelayed48k
      (.ofElements [⟨.memory 0, 4, 1, false⟩, ⟨.pair .ir, 1, 5, false⟩, ⟨.port 1, 4, 1, true⟩])
      ).capture.consumed = 13 ∧
    ((⟨{ taken := true, log := [⟨0x40FE, 0xFF, .portRead, ""⟩] }, {}⟩ :
        Walker ScriptNumber).walk .undelayed48k (.ofElements [⟨.port 0, 4, 3, false⟩])
      ).capture.consumed = 4 := by
  have hmixed : Script.read "0:4,ir:1x5,[1:IO]" = .ok (.ofElements
      [⟨.memory 0, 4, 1, false⟩, ⟨.pair .ir, 1, 5, false⟩, ⟨.port 1, 4, 1, true⟩]) := by
    rfl
  have hthrice : Script.read "0:IOx3" = .ok (.ofElements [⟨.port 0, 4, 3, false⟩]) := by
    rfl
  obtain ⟨-, charged, hconsumed, -, -, honce, -⟩ := walk_of_read hmixed .undelayed48k
    (⟨{ taken := true, log := [⟨0x8000, 0xDB, .memoryRead, ""⟩, ⟨0x40FE, 0xFF, .portRead, ""⟩] },
      {}⟩ : Walker ScriptNumber) rfl rfl (by decide)
  obtain ⟨-, charged', hconsumed', -, hsums, -⟩ := walk_of_read hthrice .undelayed48k
    (⟨{ taken := true, log := [⟨0x40FE, 0xFF, .portRead, ""⟩] }, {}⟩ : Walker ScriptNumber)
    rfl rfl (by decide)
  have hthirteen : charged = 13 := honce (by decide)
  have hfour : charged' = 4 := Nat.add_right_cancel (m := 12) hsums
  rw [hconsumed, hconsumed', hthirteen, hfour]
  exact ⟨rfl, rfl⟩

/-- A port cycle that is written twice is counted twice and charged once. -/
theorem exists_walk_ne_total :
    ¬ ∀ (text : String) (s : Script), Script.read text = .ok s →
      ∀ (u : Ula) (w : Walker ScriptNumber),
        w.capture.cursor = 0 → w.capture.taken = true → s.slots ≤ w.capture.log.length →
        (w.walk u s).capture.consumed = w.capture.consumed + UInt32.ofNat s.total := by
  intro hall
  have hwalk := hall "0:IOx2" (.ofElements [⟨.port 0, 4, 2, false⟩]) (by rfl) .undelayed48k
    ⟨{ taken := true, log := [⟨0x00FE, 0xFF, .portRead, ""⟩] }, {}⟩ rfl rfl (by decide)
  exact absurd hwalk (by decide)

end Walker

end SpectrumTiming
