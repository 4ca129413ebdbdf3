import Mathlib.Tactic

/-!
# Words with several fields, and how many parties are where

What programs that synchronise through one atomic word rest on.

* A word that packs fields is the concatenation of the fields, the highest one first. Masks act on
  each field; an addition acts on one field as long as it does not carry.
* `census p f`: how many of finitely many parties are in a state with `p`, and how that changes when
  one moves.
-/

namespace PackedWord

section

variable {m n : Nat}

theorem toNat_append (x : BitVec m) (y : BitVec n) :
    (x ++ y).toNat = x.toNat * 2 ^ n + y.toNat := by
  rw [BitVec.toNat_append, ← Nat.shiftLeft_add_eq_or_of_lt y.isLt, Nat.shiftLeft_eq]

theorem mul_add_mod {k y : Nat} (hy : y < 2 ^ n) :
    (k * 2 ^ n + y) % 2 ^ (m + n) = k % 2 ^ m * 2 ^ n + y := by
  rw [Nat.pow_add, Nat.mul_comm (2 ^ m), Nat.mod_mul, Nat.mul_add_mod_of_lt hy, Nat.mul_comm k,
    Nat.mul_add_div (Nat.two_pow_pos n), Nat.div_eq_of_lt hy, Nat.add_zero,
    Nat.add_comm, Nat.mul_comm]

/-- A word is its fields. -/
theorem append_inj {x x' : BitVec m} {y y' : BitVec n} : x ++ y = x' ++ y' ↔ x = x' ∧ y = y' := by
  constructor
  · intro h
    have hnat := congrArg BitVec.toNat h
    rw [toNat_append, toNat_append] at hnat
    have hlow : y.toNat = y'.toNat := by
      have := congrArg (· % 2 ^ n) hnat
      simpa [Nat.mul_add_mod_of_lt, Nat.mul_comm, y.isLt, y'.isLt] using this
    have hhigh : x.toNat * 2 ^ n = x'.toNat * 2 ^ n := by omega
    constructor
    · exact BitVec.eq_of_toNat_eq (Nat.eq_of_mul_eq_mul_right (Nat.two_pow_pos n) hhigh)
    · exact BitVec.eq_of_toNat_eq hlow
  · rintro ⟨rfl, rfl⟩
    rfl

/-- An addition to the upper field. -/
theorem append_add_high (x a : BitVec m) (y : BitVec n) : (x ++ y) + (a ++ 0#n) = (x + a) ++ y := by
  apply BitVec.eq_of_toNat_eq
  rw [BitVec.toNat_add, toNat_append, toNat_append, toNat_append, BitVec.toNat_add,
    BitVec.toNat_zero, Nat.add_zero, Nat.add_right_comm, ← Nat.add_mul]
  exact mul_add_mod y.isLt

end

section

variable {ι σ : Type*} [Fintype ι]

/-- How many parties are in a state with `p`. -/
def census (p : σ → Bool) (f : ι → σ) : Nat := (Finset.univ.filter fun a => p (f a) = true).card

variable {p : σ → Bool} {f : ι → σ} {a : ι} {c : σ}

theorem census_eq_zero : census p f = 0 ↔ ∀ a, p (f a) = false := by
  simp [census, Finset.filter_eq_empty_iff]

variable [DecidableEq ι]

/-- **One party moves.** -/
theorem census_update (p : σ → Bool) (f : ι → σ) (a : ι) (c : σ) :
    census p (Function.update f a c) + (p (f a)).toNat = census p f + (p c).toNat := by
  have hsplit : ∀ g : ι → σ, census p g = (p (g a)).toNat + ∑ b ∈ Finset.univ.erase a,
      (p (g b)).toNat := by
    intro g
    rw [Finset.add_sum_erase _ (fun b => (p (g b)).toNat) (Finset.mem_univ a), census,
      Finset.card_filter]
    apply Finset.sum_congr rfl
    intro b _
    cases p (g b) <;> rfl
  have hrest : ∑ b ∈ Finset.univ.erase a, (p (Function.update f a c b)).toNat =
      ∑ b ∈ Finset.univ.erase a, (p (f b)).toNat := by
    apply Finset.sum_congr rfl
    intro b hb
    rw [Function.update_of_ne (Finset.ne_of_mem_erase hb)]
  rw [hsplit (Function.update f a c), hsplit f, hrest, Function.update_self]
  omega

theorem census_update_same (h : p c = p (f a)) : census p (Function.update f a c) = census p f := by
  have hcensus := census_update p f a c
  rwa [h, Nat.add_right_cancel_iff] at hcensus

theorem census_update_le (h : p c = true → p (f a) = true) :
    census p (Function.update f a c) ≤ census p f := by
  have hcensus := census_update p f a c
  have hle := Bool.toNat_le_toNat h
  omega

end

end PackedWord
