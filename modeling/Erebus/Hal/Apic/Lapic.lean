import Mathlib.Tactic

/-!
# The timer of the local APIC

`set_timer` turns a delay into ticks by a rate in fixed point, and adds one so as never to be early.
The rate may have been rounded down.

* `rateLoss`: what the rounding of the rate loses, as a function of the frequency.
* `setTimer_iff`: for which frequencies and delays the timer is never early.
-/

namespace Erebus.Hal

def nsPerSec : Nat := 1000000000

/-- `FrequencyScaler::ns_to_ticks_mult` of a counter of `hz` ticks a second. -/
def nsToTicksMult (hz : Nat) : Nat := (hz <<< 32 + nsPerSec / 2) / nsPerSec % 2 ^ 64

/-- `FrequencyScaler::ticks_to_ns_mult`. -/
def ticksToNsMult (hz : Nat) : Nat :=
  if hz ≠ 0 then (nsPerSec <<< 32 + hz / 2) / hz % 2 ^ 64 else 0

/-- `FrequencyScaler::ns_to_ticks`. -/
def nsToTicks (hz ns : Nat) : Nat := (ns * nsToTicksMult hz) >>> 32 % 2 ^ 64

/-- `FrequencyScaler::ticks_to_ns`. -/
def ticksToNs (hz ticks : Nat) : Nat := (ticks * ticksToNsMult hz) >>> 32 % 2 ^ 64

/-- `MAX_TIMER_COUNT`. -/
def maxTimerCount : Nat := 0xFFFFFFFF

/-- The mode, and what the counter of that mode runs at: the TSC, or the bus. -/
structure Lapic where
  useTscDeadline : Bool
  hz : Nat

namespace Lapic

/-- What `Lapic::set_timer` writes. -/
def setTimer (l : Lapic) (nowRaw delayNs : Nat) : Nat :=
  if l.useTscDeadline then (nowRaw + nsToTicks l.hz delayNs + 1) % 2 ^ 64
  else min ((nsToTicks l.hz delayNs + 1) % 2 ^ 64) maxTimerCount

/-- `Lapic::max_timer_delay_ns`. -/
def maxTimerDelayNs (l : Lapic) : Nat :=
  if l.useTscDeadline then (2 ^ 64 - 1) / 2
  else if l.hz ≠ 0 then ticksToNs l.hz maxTimerCount
  else 0

/-- How many ticks that takes. -/
def ticks (l : Lapic) (nowRaw delayNs : Nat) : Nat :=
  if l.useTscDeadline then (l.setTimer nowRaw delayNs + (2 ^ 64 - nowRaw)) % 2 ^ 64
  else l.setTimer nowRaw delayNs

/-- It is late, never early; a count of 0 would stop the timer. -/
def NeverEarly (l : Lapic) (nowRaw delayNs : Nat) : Prop :=
  (l.useTscDeadline = false → l.ticks nowRaw delayNs ≠ 0) ∧
    delayNs * l.hz ≤ l.ticks nowRaw delayNs * nsPerSec

/-! ## The condition on frequency and delay -/

/-- What the rounding of the rate loses each nanosecond, in units of `1 / (2 ^ 32 * nsPerSec)`
ticks; negative where the rate is rounded up. -/
def rateLoss (hz : Nat) : Int := Int.bmod (hz * 2 ^ 32) nsPerSec

/-- How far a delay reaches into its last tick, in units of `1 / nsPerSec` ticks. -/
def lastTick (hz delayNs : Nat) : Nat := (delayNs * hz - 1) % nsPerSec + 1

/-- The ticks of a delay fit in 64 bits at the rounded rate, or in the 32 bits of a countdown. -/
def Fits (l : Lapic) (delayNs : Nat) : Prop :=
  if l.useTscDeadline then
    delayNs = 0 ∨ l.hz < 2 ^ 32 * nsPerSec ∧
      delayNs * (l.hz * 2 ^ 32 - rateLoss l.hz) < (2 ^ 64 - 1) * 2 ^ 32 * nsPerSec
  else delayNs * l.hz ≤ maxTimerCount * nsPerSec

instance (l : Lapic) (delayNs : Nat) : Decidable (l.Fits delayNs) := by
  unfold Fits
  infer_instance

/-- Below `2 ^ 32` GHz the multiplier is the rate, but for what is lost. -/
theorem mult_add_rateLoss {hz : Nat} (h : hz < 2 ^ 32 * nsPerSec) :
    nsToTicksMult hz * nsPerSec + rateLoss hz = hz * 2 ^ 32 := by
  have hmod : nsToTicksMult hz = (hz * 2 ^ 32 + nsPerSec / 2) / nsPerSec := by
    rw [nsToTicksMult, Nat.shiftLeft_eq]
    unfold nsPerSec at *
    exact Nat.mod_eq_of_lt (by omega)
  rw [hmod, rateLoss, Int.bmod]
  unfold nsPerSec
  split <;> omega

/-- The same over a delay. -/
theorem mul_mult_add_rateLoss {hz : Nat} (h : hz < 2 ^ 32 * nsPerSec) (delayNs : Nat) :
    (delayNs * nsToTicksMult hz : Nat) * (nsPerSec : Int) + delayNs * rateLoss hz =
      (delayNs * hz : Nat) * 2 ^ 32 := by
  have hdelay := congrArg ((delayNs : Int) * ·) (mult_add_rateLoss h)
  push_cast
  linarith

/-- From there on its carry is lost. -/
theorem mult_le_of_le {hz : Nat} (h : 2 ^ 32 * nsPerSec ≤ hz) :
    (nsToTicksMult hz + 2 ^ 64) * nsPerSec ≤ hz * 2 ^ 32 + nsPerSec / 2 := by
  have hcarry : 2 ^ 64 ≤ (hz * 2 ^ 32 + nsPerSec / 2) / nsPerSec := by
    rw [Nat.le_div_iff_mul_le (by decide)]
    calc 2 ^ 64 * nsPerSec = 2 ^ 32 * nsPerSec * 2 ^ 32 := rfl
      _ ≤ hz * 2 ^ 32 := Nat.mul_le_mul_right _ h
      _ ≤ hz * 2 ^ 32 + nsPerSec / 2 := Nat.le_add_right _ _
  have hmult : nsToTicksMult hz + 2 ^ 64 ≤ (hz * 2 ^ 32 + nsPerSec / 2) / nsPerSec := by
    rw [nsToTicksMult, Nat.shiftLeft_eq]
    omega
  exact (Nat.mul_le_mul_right _ hmult).trans (Nat.div_mul_le_self _ _)

/-- The same over a delay. -/
theorem mul_mult_le_of_le {hz : Nat} (h : 2 ^ 32 * nsPerSec ≤ hz) (delayNs : Nat) :
    (delayNs * nsToTicksMult hz + delayNs * 2 ^ 64) * nsPerSec ≤
      delayNs * hz * 2 ^ 32 + delayNs * (nsPerSec / 2) := by
  have hdelay := Nat.mul_le_mul_left delayNs (mult_le_of_le h)
  rw [Nat.mul_add] at hdelay
  linarith

/-- At most half a unit is gained. -/
theorem neg_le_rateLoss (hz : Nat) : -(nsPerSec / 2 : Int) ≤ rateLoss hz := by
  rw [rateLoss, Int.bmod]
  unfold nsPerSec
  split <;> omega

/-- The count that is aimed at, however large. -/
def count (l : Lapic) (delayNs : Nat) : Nat := delayNs * nsToTicksMult l.hz / 2 ^ 32 + 1

theorem ticks_eq (l : Lapic) {nowRaw : Nat} (delayNs : Nat) (hnow : nowRaw < 2 ^ 64) :
    l.ticks nowRaw delayNs = if l.useTscDeadline then l.count delayNs % 2 ^ 64
      else min (l.count delayNs % 2 ^ 64) maxTimerCount := by
  rw [ticks, setTimer, count, nsToTicks, Nat.shiftRight_eq_div_pow]
  split <;> omega

/-- **`set_timer`** is never early if and only if the delay fits, and the rounding of the rate loses
no more of it than reaches into its last tick. -/
theorem setTimer_iff (l : Lapic) (nowRaw delayNs : Nat) (hnow : nowRaw < 2 ^ 64)
    (hdelay : delayNs < 2 ^ 64) :
    l.NeverEarly nowRaw delayNs ↔
      l.Fits delayNs ∧ delayNs * rateLoss l.hz ≤ 2 ^ 32 * lastTick l.hz delayNs := by
  rw [NeverEarly, Fits, ticks_eq l delayNs hnow, count, lastTick]
  rcases Nat.lt_or_ge l.hz (2 ^ 32 * nsPerSec) with hlt | hge
  · -- the products with the delay are all that is not linear
    have hrate := mul_mult_add_rateLoss hlt delayNs
    have hfits : (delayNs : Int) * (l.hz * 2 ^ 32 - rateLoss l.hz) =
        (delayNs * nsToTicksMult l.hz : Nat) * (nsPerSec : Int) := by
      rw [Int.mul_sub]
      push_cast at hrate ⊢
      linarith
    have hgain : (delayNs : Int) * -(nsPerSec / 2) ≤ delayNs * rateLoss l.hz :=
      Int.mul_le_mul_of_nonneg_left (neg_le_rateLoss l.hz) (Int.natCast_nonneg _)
    rw [hfits]
    have hzero : delayNs = 0 → delayNs * l.hz = 0 ∧ delayNs * nsToTicksMult l.hz = 0 := by
      rintro rfl
      simp
    generalize delayNs * nsToTicksMult l.hz = product at *
    generalize delayNs * l.hz = wanted at *
    generalize (delayNs : Int) * rateLoss l.hz = lost at *
    unfold nsPerSec maxTimerCount at *
    cases l.useTscDeadline with
    | true =>
      simp only [if_true, hlt, true_and]
      omega
    | false =>
      simp only [Bool.false_eq_true, if_false]
      omega
  · -- only a delay of 0 fits
    have hwanted := Nat.mul_le_mul_left delayNs hge
    have hlost := mul_mult_le_of_le hge delayNs
    rcases Nat.eq_zero_or_pos delayNs with rfl | hpos
    · cases l.useTscDeadline <;> simp [maxTimerCount]
    generalize delayNs * nsToTicksMult l.hz = product at *
    generalize delayNs * l.hz = wanted at *
    simp only [nsPerSec, maxTimerCount] at *
    cases l.useTscDeadline with
    | true =>
      simp only [if_true, Nat.not_lt.2 hge, false_and, or_false]
      omega
    | false =>
      simp only [Bool.false_eq_true, if_false]
      omega

/-- A minute, on a TSC of 2.4 GHz. -/
theorem setTimer_early : ∃ l : Lapic, ∃ nowRaw delayNs, 0 < l.hz ∧ nowRaw < 2 ^ 64 ∧
    delayNs ≤ l.maxTimerDelayNs ∧ ¬ l.NeverEarly nowRaw delayNs :=
  ⟨⟨true, 2400000000⟩, 0, 60000000000, by decide, by decide, by decide,
    by unfold NeverEarly; decide⟩

/-- Ten seconds, there: the rate is rounded down. -/
theorem setTimer_iff_tenSeconds : 0 < rateLoss 2400000000 ∧
    Lapic.NeverEarly ⟨true, 2400000000⟩ 0 10000000000 :=
  ⟨by decide, (setTimer_iff _ 0 10000000000 (by decide) (by decide)).2 (by decide)⟩

end Lapic
end Erebus.Hal
