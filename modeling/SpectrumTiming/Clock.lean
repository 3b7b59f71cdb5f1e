import SpectrumTiming.Machine

/-!
# The frame clock

The clock counts T-states within a frame, T-states in all, and finished frames. From the count
within the frame follows where the beam is, and from that how long the ULA holds the processor off:
on the 192 display lines, during the first 128 T-states of the line, by the delay pattern.

What is fixed for a machine is in `Ula`; a `Clock` is what moves.
-/

namespace SpectrumTiming

/-- Lines on which the display is fetched. -/
def fetchedLines : Nat := 192

/-- T-states of a display line during which the display is fetched. -/
def fetchedColumns : Nat := 128

namespace Ula

/-- Line and column of the beam, from the first contended T-state of the frame on. -/
def beam? (u : Ula) (counter : Nat) : Option (Nat × Nat) :=
  if counter < u.start then none
  else some ((counter - u.start) / u.line, (counter - u.start) % u.line)

/-- How long the ULA holds off an access that begins at this T-state of the frame. -/
def delay (u : Ula) (counter : Nat) : Nat :=
  match u.beam? counter with
  | some (line, column) =>
    if line < fetchedLines ∧ column < fetchedColumns then
      u.pattern[column % 8]
    else 0
  | none => 0

/-- Whether an address lies in the part of memory the display is fetched from. -/
def inDisplayBank (addr : UInt16) : Bool := 0x4000 ≤ addr && addr ≤ 0x7FFF

/-- Whether an address is contended while the given bank is paged in at the top. -/
def contended (u : Ula) (bank : Nat) (addr : UInt16) : Bool :=
  inDisplayBank addr || (0xC000 ≤ addr && 0 < bank && bank ∈ u.banks)

end Ula

/-- The moving part of the timing of a machine. -/
structure Clock where
  /-- T-states since the frame began. -/
  counter : Nat := 0
  /-- T-states since the machine was reset. -/
  elapsed : Nat := 0
  /-- Frames finished since the machine was reset. -/
  frames : Nat := 0
  /-- The bank paged in at the top of memory. -/
  bank : Nat := 0
deriving DecidableEq

namespace Clock

/-- Lets T-states pass, over the ends of frames where they come. -/
def advance (u : Ula) (c : Clock) (cycles : Nat) : Clock :=
  { c with
    counter := (c.counter + cycles) % u.frame
    elapsed := c.elapsed + cycles
    frames := c.frames + (c.counter + cycles) / u.frame }

/-- Moves within the frame, without counting the T-states. -/
def setCounter (u : Ula) (c : Clock) (tstate : Nat) : Clock :=
  { c with counter := tstate % u.frame }

/-- Pages a bank in at the top of memory. -/
def setBank (c : Clock) (bank : Nat) : Clock := { c with bank }

/-- Line and column of the beam. -/
def beam? (u : Ula) (c : Clock) : Option (Nat × Nat) := u.beam? c.counter

/-- How long the ULA holds off a contended access now. -/
def delay (u : Ula) (c : Clock) : Nat := u.delay c.counter

/-- How long the ULA holds off an access to this address now. -/
def delayAt (u : Ula) (c : Clock) (addr : UInt16) : Nat :=
  if u.contended c.bank addr then c.delay u else 0

theorem counter_advance_lt (u : Ula) (c : Clock) (n : Nat) : (c.advance u n).counter < u.frame :=
  Nat.mod_lt _ u.frame_pos

theorem advance_zero {u : Ula} {c : Clock} (h : c.counter < u.frame) : c.advance u 0 = c := by
  simp [advance, Nat.mod_eq_of_lt h, Nat.div_eq_of_lt h]

/-- Passing T-states in two pieces is passing them at once, whichever ends of frames lie between. -/
theorem advance_advance (u : Ula) (c : Clock) (m n : Nat) :
    (c.advance u m).advance u n = c.advance u (m + n) := by
  have hsum : c.counter + (m + n) =
      u.frame * ((c.counter + m) / u.frame) + ((c.counter + m) % u.frame + n) := by
    have := Nat.div_add_mod (c.counter + m) u.frame
    omega
  simp only [advance, mk.injEq, and_true]
  refine ⟨?_, by omega, ?_⟩
  · rw [hsum, Nat.mul_add_mod]
  · rw [hsum, Nat.mul_add_div u.frame_pos]
    omega

end Clock

end SpectrumTiming
