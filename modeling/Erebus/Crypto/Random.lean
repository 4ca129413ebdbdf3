import Mathlib

/-!
# A random number below a bound

`random::below` multiplies a draw of 64 bits by the bound and keeps the high half, unless the low
half is one of the few that would make a result more likely than others.

* `below`: the function, on the draws it is given; `none` is a call that waits for another one.
* `card_interval`: multiplication by `b` sends the same number of draws to each result.
* `below_uniform`: every result is as likely as every other.
-/

namespace Erebus.Random

open Finset

/-- The low half of the product. -/
def low (bound x : Nat) : Nat := x * bound % 2 ^ 64

/-- The high half of the product. -/
def high (bound x : Nat) : Nat := x * bound / 2 ^ 64

/-- `2^64 mod bound`, the way the source computes it. -/
def threshold (bound : Nat) : Nat := (2 ^ 64 - bound) % 2 ^ 64 % bound

/-- The loop of `below`, from the last draw on. -/
def redraw (bound : Nat) : List Nat → Option Nat
  | [] => none
  | x :: draws => if low bound x < threshold bound then redraw bound draws else some (high bound x)

/-- `random::below`. -/
def below (bound : Nat) : List Nat → Option Nat
  | [] => none
  | x :: draws => if low bound x < bound then redraw bound (x :: draws) else some (high bound x)

/-- The draws that are not drawn again. -/
def Accepted (bound x : Nat) : Prop := threshold bound ≤ low bound x

instance (bound x : Nat) : Decidable (Accepted bound x) := Nat.decLe _ _

/-! ## Counting -/

section

variable {n b r : Nat}

theorem high_low_iff {p : Nat} (hn : 0 < n) :
    (n % b ≤ p % n ∧ p / n = r) ↔ r * n + n % b ≤ p ∧ p < r * n + n % b + b * (n / b) := by
  have hp := Nat.div_add_mod p n
  have hlt := Nat.mod_lt p hn
  rw [add_assoc, Nat.mod_add_div n b]
  constructor
  · rintro ⟨hle, rfl⟩
    rw [mul_comm]
    omega
  · rintro ⟨hle, hgt⟩
    have hr : p / n = r := by
      refine Nat.div_eq_of_lt_le (by omega) ?_
      rw [Nat.succ_mul]
      omega
    subst hr
    rw [mul_comm] at hle
    exact ⟨by omega, rfl⟩

/-- In an interval that is `q` times as long as `b` there are `q` multiples of `b`, one after the
other. -/
theorem multiple_iff {a x q : Nat} (hb : 0 < b) :
    (a ≤ x * b ∧ x * b < a + b * q) ↔ x ∈ Ico (a ⌈/⌉ b) (a ⌈/⌉ b + q) := by
  rw [mem_Ico, ceilDiv_le_iff_le_mul hb, mul_comm x b]
  refine and_congr_right fun _ => ?_
  rcases Nat.lt_or_ge x q with hlt | hge
  · have := Nat.mul_lt_mul_of_pos_left hlt hb
    exact iff_of_true (by omega) (by omega)
  · obtain ⟨y, rfl⟩ := Nat.exists_eq_add_of_le' hge
    rw [Nat.mul_add, Nat.add_lt_add_iff_right, Nat.add_lt_add_iff_right, ← not_le, ← not_le,
      ceilDiv_le_iff_le_mul hb]

/-- Each result below `b` has `n / b` numbers below `n` whose product with `b` leads to it. -/
theorem card_interval (hr : r < b) :
    ((range n).filter fun x => n % b ≤ x * b % n ∧ x * b / n = r).card = n / b := by
  rcases Nat.eq_zero_or_pos n with rfl | hn
  · simp
  have hset : (range n).filter (fun x => n % b ≤ x * b % n ∧ x * b / n = r) =
      Ico ((r * n + n % b) ⌈/⌉ b) ((r * n + n % b) ⌈/⌉ b + n / b) := by
    ext x
    rw [mem_filter, mem_range, ← multiple_iff (Nat.zero_lt_of_lt hr), ← high_low_iff hn,
      and_iff_right_iff_imp]
    rintro ⟨-, rfl⟩
    rw [Nat.div_lt_iff_lt_mul hn, mul_comm b n] at hr
    exact Nat.lt_of_mul_lt_mul_right hr
  rw [hset, Nat.card_Ico, Nat.add_sub_cancel_left]

theorem card_accepted (hb : 0 < b) :
    ((range n).filter fun x => n % b ≤ x * b % n).card = b * (n / b) := by
  have hmaps : ∀ x ∈ (range n).filter (fun x => n % b ≤ x * b % n), x * b / n ∈ range b := by
    intro x hx
    have hx := mem_range.1 (mem_filter.1 hx).1
    rw [mem_range, Nat.div_lt_iff_lt_mul (Nat.zero_lt_of_lt hx), mul_comm b n]
    exact Nat.mul_lt_mul_of_pos_right hx hb
  rw [card_eq_sum_card_fiberwise hmaps]
  simp only [filter_filter]
  rw [sum_congr rfl fun r hr => card_interval (mem_range.1 hr), sum_const, card_range, smul_eq_mul]

end

/-! ## The loop -/

variable {bound : Nat}

theorem threshold_eq (hpos : 0 < bound) (hbound : bound < 2 ^ 64) :
    threshold bound = 2 ^ 64 % bound := by
  rw [threshold, Nat.mod_eq_of_lt (a := 2 ^ 64 - bound) (by omega), ← Nat.add_mod_right,
    Nat.sub_add_cancel hbound.le]

theorem redraw_eq (draws : List Nat) :
    redraw bound draws = (draws.find? (Accepted bound ·)).map (high bound) := by
  induction draws with
  | nil => rfl
  | cons x draws ih =>
    rw [redraw, List.find?_cons, ih]
    by_cases h : low bound x < threshold bound <;>
      simp [Accepted, h, Nat.not_le.2, Nat.le_of_not_lt]

/-- The first draw that is accepted decides. -/
theorem below_eq (hpos : 0 < bound) (draws : List Nat) :
    below bound draws = (draws.find? (Accepted bound ·)).map (high bound) := by
  cases draws with
  | nil => rfl
  | cons x draws =>
    rw [below]
    split
    · exact redraw_eq (x :: draws)
    · rename_i hlow
      have haccepted : Accepted bound x := (Nat.mod_lt _ hpos).le.trans (Nat.le_of_not_lt hlow)
      rw [List.find?_cons_of_pos (by simpa using haccepted), Option.map_some]

/-- **`below` is uniform.**  It returns what the first accepted draw leads to; each result below the
bound has `2^64 / bound` accepted draws that lead to it, and there are no others; fewer draws than
the bound are rejected, so that of a bound up to `2^63` more than half are accepted. -/
theorem below_uniform (hpos : 0 < bound) (hbound : bound < 2 ^ 64) :
    (∀ draws, below bound draws = (draws.find? (Accepted bound ·)).map (high bound)) ∧ (∀ r < bound,
        ((range (2 ^ 64)).filter fun x => Accepted bound x ∧ high bound x = r).card =
          2 ^ 64 / bound) ∧
      (∀ x < 2 ^ 64, high bound x < bound) ∧
      ((range (2 ^ 64)).filter fun x => ¬ Accepted bound x).card < bound ∧
      (bound ≤ 2 ^ 63 → 2 ^ 64 < 2 * ((range (2 ^ 64)).filter (Accepted bound)).card) := by
  have hcard : ((range (2 ^ 64)).filter (Accepted bound)).card = bound * (2 ^ 64 / bound) := by
    rw [← card_accepted hpos, ← threshold_eq hpos hbound]
    rfl
  have hmod := Nat.mod_lt (2 ^ 64) hpos
  have hsplit := Nat.div_add_mod (2 ^ 64) bound
  refine ⟨below_eq hpos, fun r hr => ?_, fun x hx => ?_, ?_, fun hhalf => ?_⟩
  · simp only [Accepted, low, high, threshold_eq hpos hbound]
    exact card_interval hr
  · rw [high, Nat.div_lt_iff_lt_mul (by decide), mul_comm bound]
    exact Nat.mul_lt_mul_of_pos_right hx hpos
  · have hall := card_filter_add_card_filter_not (s := range (2 ^ 64)) (Accepted bound)
    rw [card_range, hcard] at hall
    omega
  · rw [hcard]
    omega

theorem below_uniform_three : below 3 [0, 2 ^ 63] = some 1 ∧
      ((range (2 ^ 64)).filter fun x => Accepted 3 x ∧ high 3 x = 2).card =
        6148914691236517205 := by
  obtain ⟨hbelow, hcard, -⟩ := @below_uniform 3 (by decide) (by decide)
  exact ⟨(hbelow _).trans (by decide), hcard 2 (by decide)⟩

end Erebus.Random
