import Erebus.Sched.Eevdf

/-!
# Slices

`set_weight` and `set_slice_ns` accept more than the arithmetic of the queue can take.

* `Configured`: what the two setters leave.
* `slices_iff`: for which weights and slices a new deadline lies ahead, the lag is limited to
  `MAX_LAG_SLICES` slices, and something is left of every slice that is not over.
-/

namespace Erebus.Sched

/-- `MIN_SLICE_NS`. -/
def minSliceNs : Nat := 250000

namespace Entity

/-- `Entity::set_slice_ns`. -/
def setSliceNs (e : Entity) (sliceNs : Nat) : Entity :=
  { e with sliceNs := if minSliceNs ≤ sliceNs then sliceNs else minSliceNs }

/-- `Entity::to_real`. -/
def toReal (e : Entity) (virtualNs : Nat) : Nat := virtualNs * e.weight / nice0Weight % 2 ^ 64

/-- What the two setters leave. -/
structure Configured (e : Entity) : Prop where
  weight_lt : e.weight < 2 ^ 32
  rate_eq : e.rate = nice0Weight <<< rateShift / e.weight
  slice_ge : minSliceNs ≤ e.sliceNs
  slice_lt : e.sliceNs < 2 ^ 64

/-- The virtual length of some time at a weight, in units of `2 ^ -32` ns. -/
def scaled (weight ns : Nat) : Nat := ns * (2 ^ 42 / weight)

/-- The same in nanoseconds, however large. -/
def span (weight ns : Nat) : Nat := scaled weight ns / 2 ^ 32

/-- The limit in `account_leave`. -/
def lagLimit (e : Entity) : Int := toSigned (e.toVirtual (maxLagSlices * e.sliceNs % 2 ^ 64))

variable {e : Entity}

theorem setters_configured (e : Entity) {weight sliceNs : Nat} (hweight : weight < 2 ^ 32)
    (hslice : sliceNs < 2 ^ 64) : ((e.setWeight weight).setSliceNs sliceNs).Configured := by
  refine ⟨?_, rfl, ?_, ?_⟩ <;> simp only [setSliceNs, setWeight] <;> split
  all_goals first | omega | decide

theorem Configured.toVirtual_eq (h : e.Configured) (ns : Nat) :
    e.toVirtual ns = span e.weight ns % 2 ^ 64 := by
  rw [toVirtual, h.rate_eq, rateShift, Nat.shiftRight_eq_div_pow]
  rfl

theorem toSigned_cases {n : Nat} (hn : n < 2 ^ 64) :
    toSigned n ≤ n ∧ (n < 2 ^ 63 → toSigned n = n) ∧ (¬ n < 2 ^ 63 → toSigned n < 0) := by
  unfold toSigned
  rw [Int.bmod_def]
  push_cast
  split_ifs <;> omega

/-- Two slices must not leave the 64 bits, and their virtual length not the 63. -/
theorem Configured.lagLimit_iff (h : e.Configured) :
    e.lagLimit = span e.weight (maxLagSlices * e.sliceNs) ↔
      maxLagSlices * e.sliceNs < 2 ^ 64 ∧ span e.weight (maxLagSlices * e.sliceNs) < 2 ^ 63 := by
  have hlt : maxLagSlices * e.sliceNs < 2 ^ 65 := by
    have := h.slice_lt
    unfold maxLagSlices
    omega
  rw [lagLimit, h.toVirtual_eq]
  generalize maxLagSlices * e.sliceNs = ns at hlt
  have hcases :=
    toSigned_cases (Nat.mod_lt (span e.weight (ns % 2 ^ 64)) (show 0 < 2 ^ 64 by decide))
  by_cases hns : ns < 2 ^ 64
  · rw [Nat.mod_eq_of_lt hns] at hcases ⊢
    omega
  · -- what wrapped is shorter
    have hrate : 0 < 2 ^ 42 / e.weight :=
      Nat.div_pos (h.weight_lt.le.trans (by decide)) e.weight_pos
    have hwrap : span e.weight ns = span e.weight (ns % 2 ^ 64) + 2 ^ 32 * (2 ^ 42 / e.weight) := by
      unfold span scaled
      generalize 2 ^ 42 / e.weight = rate
      have hsplit : ns * rate = ns % 2 ^ 64 * rate + 2 ^ 32 * rate * 2 ^ 32 := by
        rw [show ns % 2 ^ 64 = ns - 2 ^ 64 by omega, Nat.sub_mul]
        have := Nat.mul_le_mul_right rate (Nat.le_of_not_lt hns)
        omega
      rw [hsplit, Nat.add_mul_div_right _ _ (by decide)]
    exact iff_of_false (by omega) fun hand => hns hand.1

/-- A slice on from a virtual time below `2 ^ 62` is ahead of it, if it has a virtual length. -/
theorem Configured.ahead_iff (h : e.Configured) (hspan : span e.weight e.sliceNs ≤ 3 * 2 ^ 62)
    {v : Nat} (hv : v < 2 ^ 62) :
    v < (v + e.toVirtual e.sliceNs) % 2 ^ 64 ↔ 2 ^ 32 ≤ scaled e.weight e.sliceNs := by
  rw [h.toVirtual_eq]
  unfold span at *
  omega

end Entity

namespace EevdfQueue

open Entity

/-- `EevdfQueue::slice_left_ns`. -/
def sliceLeftNs (q : EevdfQueue) : Nat :=
  match q.current with
  | none => 0
  | some e =>
    if e.vdeadline ≤ e.vruntime then 0 else min (e.toReal (e.vdeadline - e.vruntime)) e.sliceNs

/-- The lag that `enqueue` gives back to an entity. -/
def restoredLag (q : EevdfQueue) (e : Entity) : Nat :=
  let magnitude := e.vlag.natAbs % 2 ^ 64
  if q.totalWeight = 0 then magnitude
  else magnitude * (q.totalWeight + e.weight) / q.totalWeight % 2 ^ 64

variable {q : EevdfQueue} {e : Entity}

theorem place_vruntime_eq (q : EevdfQueue) (e : Entity) : (q.place e).vruntime =
    if e.vlag < 0 then (q.virtualTime + q.restoredLag e) % 2 ^ 64
    else q.virtualTime - min q.virtualTime (q.restoredLag e) :=
  rfl

theorem place_lt (hnow : q.virtualTime < 2 ^ 62)
    (hlag : e.vlag < 0 → q.virtualTime + q.restoredLag e < 2 ^ 62) :
    (q.place e).vruntime < 2 ^ 62 := by
  rw [place_vruntime_eq]
  split
  · exact (Nat.mod_le ..).trans_lt (hlag ‹_›)
  · exact (Nat.sub_le ..).trans_lt hnow

theorem leave_lag (hlimit : 0 ≤ e.lagLimit) : |(q.accountLeave e).2.vlag| ≤ e.lagLimit := by
  unfold Entity.lagLimit at *
  simp only [accountLeave, clamp]
  generalize toSigned (e.toVirtual _) = limit at *
  split
  · rw [abs_neg, abs_of_nonneg hlimit]
  · split <;> rw [abs_le] <;> omega

/-- What is left of a slice, as a condition on the weight. -/
theorem sliceLeftNs_pos_iff (q : EevdfQueue) (he : e.Configured) :
    (∀ v d, v < d → d - v < 2 ^ 42 →
      0 < sliceLeftNs { q with current := some { e with vruntime := v, vdeadline := d } }) ↔
      nice0Weight ≤ e.weight := by
  have hslice := he.slice_ge
  have hweight := he.weight_lt
  unfold minSliceNs at hslice
  simp only [sliceLeftNs, toReal, nice0Weight]
  constructor
  · -- a virtual nanosecond of a lighter one is less than a real one
    intro hall
    have hone := hall 0 1 (by decide) (by decide)
    simp only [Nat.one_ne_zero, Nat.le_zero, if_false, Nat.sub_zero, Nat.one_mul] at hone
    omega
  · intro hge v d hlt hnear
    have hleast : 1024 ≤ (d - v) * e.weight := by
      calc 1024 ≤ e.weight := hge
        _ = 1 * e.weight := (Nat.one_mul _).symm
        _ ≤ (d - v) * e.weight := Nat.mul_le_mul_right _ (by omega)
    have hmost : (d - v) * e.weight < 2 ^ 42 * 2 ^ 32 := Nat.mul_lt_mul'' hnear hweight
    rw [if_neg (Nat.not_le.2 hlt)]
    generalize (d - v) * e.weight = left at *
    omega

end EevdfQueue
end Erebus.Sched
