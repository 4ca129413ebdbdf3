import Erebus.Memory.Vmm.PageMap.Model

/-!
# Pages of an address space

A walk of `L` levels looks at the lowest `12 + 9 L` bits of an address.

* `lin L v`: those bits; canonical addresses are told apart by them.
* `page L l v`: the number of the page of level `l` that holds `v`. Its last nine bits are the slot
  at that level, the others number the table.
* `InHalf L start size`: a range inside one half of the canonical address space.
-/

namespace Erebus.Vmm

/-- The bytes a walk of `L` levels can tell apart. -/
def span (L : Nat) : Nat := 2 ^ (12 + 9 * L)

/-- The translated part of an address. -/
def lin (L v : Nat) : Nat := v % span L

/-- The number of the page of level `l` around an address. -/
def page (L l v : Nat) : Nat := lin L v / levelCoverage l

theorem pageSize_eq : pageSize = 4096 := rfl

theorem sizeToBytes_eq (size : PageSize) : sizeToBytes size = match size with
      | .size4K => 4096
      | .size2M => 2097152
      | .size1G => 1073741824 := by
  cases size <;> rfl

theorem levelCoverage_eq (l : Nat) : levelCoverage l = 2 ^ (12 + 9 * (l - 1)) := by
  rw [levelCoverage, pageSize, Nat.shiftLeft_eq, Nat.shiftLeft_eq, one_mul, ← pow_add,
    mul_comm (l - 1)]

@[simp] theorem levelCoverage_one : levelCoverage 1 = 4096 := rfl

theorem levelCoverage_pos (l : Nat) : 0 < levelCoverage l := by
  rw [levelCoverage_eq]
  positivity

theorem levelCoverage_succ {l : Nat} (hl : 1 ≤ l) :
    levelCoverage (l + 1) = levelCoverage l * 512 := by
  rw [levelCoverage_eq, levelCoverage_eq, show 12 + 9 * (l + 1 - 1) = 12 + 9 * (l - 1) + 9 by omega,
    pow_add]
  rfl

/-- A page of a level holds whole pages of every lower level. -/
theorem levelCoverage_dvd {l m : Nat} (hlm : l ≤ m) : levelCoverage l ∣ levelCoverage m := by
  rw [levelCoverage_eq, levelCoverage_eq]
  exact pow_dvd_pow 2 (by omega)

theorem levelCoverage_dvd_span {L l : Nat} (hl : l ≤ L + 1) : levelCoverage l ∣ span L := by
  rw [levelCoverage_eq, span]
  exact pow_dvd_pow 2 (by omega)

theorem tableIndex_eq (v l : Nat) : tableIndex v l = v / levelCoverage l % 512 := by
  rw [tableIndex, levelCoverage_eq, Nat.shiftRight_eq_div_pow]
  exact Nat.and_two_pow_sub_one_eq_mod _ 9

theorem tableIndex_lt (v l : Nat) : tableIndex v l < 512 := by
  rw [tableIndex_eq]
  exact Nat.mod_lt _ (by decide)

/-- The slot at a level is the last digit of the page number. -/
theorem tableIndex_eq_page {L l : Nat} (hl : 1 ≤ l) (hL : l ≤ L) (v : Nat) :
    tableIndex v l = page L l v % 512 := by
  have hspan : span L = levelCoverage l * (512 * 2 ^ (9 * (L - l))) := by
    have hexp : 12 + 9 * L = 12 + 9 * (l - 1) + (9 + 9 * (L - l)) := by omega
    rw [span, levelCoverage_eq, hexp, pow_add 2 (12 + 9 * (l - 1)), pow_add 2 9]
    rfl
  rw [tableIndex_eq, page, lin, hspan, Nat.mod_mul_right_div_self, Nat.mod_mul_right_mod]

/-- The table at a level is told by the remaining digits. -/
theorem page_succ {L l : Nat} (hl : 1 ≤ l) (v : Nat) : page L (l + 1) v = page L l v / 512 := by
  rw [page, page, levelCoverage_succ hl, Nat.div_div_eq_div_mul]

theorem page_top (L v : Nat) : page L (L + 1) v = 0 := by
  apply Nat.div_eq_of_lt
  calc lin L v < span L := Nat.mod_lt _ (by rw [span]; positivity)
    _ = levelCoverage (L + 1) := by rw [levelCoverage_eq, span, Nat.add_sub_cancel]

theorem page_eq_iff {L l : Nat} (hl : 1 ≤ l) (hL : l ≤ L) (v w : Nat) : page L l v = page L l w ↔
      page L (l + 1) v = page L (l + 1) w ∧ tableIndex v l = tableIndex w l := by
  rw [page_succ hl, page_succ hl, tableIndex_eq_page hl hL, tableIndex_eq_page hl hL]
  omega

theorem page_eq_of_le {L l m : Nat} (hlm : l ≤ m) {v w : Nat} (h : page L l v = page L l w) :
    page L m v = page L m w := by
  obtain ⟨k, hk⟩ := levelCoverage_dvd hlm
  rw [page, page, hk, ← Nat.div_div_eq_div_mul, ← Nat.div_div_eq_div_mul]
  exact congrArg (· / k) h

/-! ## Canonical addresses -/

/-- The canonical form: the bits above the translated ones repeat the highest of them. -/
def Canonical (L v : Nat) : Prop := v < span L / 2 ∨ (2 ^ 64 - span L / 2 ≤ v ∧ v < 2 ^ 64)

/-- A range that lies in one half of the canonical address space. -/
def InHalf (L start size : Nat) : Prop :=
  start + size ≤ span L / 2 ∨ (2 ^ 64 - span L / 2 ≤ start ∧ start + size ≤ 2 ^ 64)

section

variable {L : Nat}
variable {v start size k : Nat}

theorem isUpperHalf_iff (hv : v < 2 ^ 64) : isUpperHalf v = true ↔ 2 ^ 63 ≤ v := by
  simp only [isUpperHalf, Nat.shiftRight_eq_div_pow, ne_eq, decide_not, Bool.not_eq_true',
    decide_eq_false_iff_not]
  omega

variable (hL : L = 4 ∨ L = 5) (h : InHalf L start size)
include hL h

/-- Going up inside a half goes up in the translated part. -/
theorem InHalf.lin_add (hk : k < size) : lin L (start + k) = lin L start + k := by
  rcases hL with rfl | rfl <;> simp only [InHalf, lin, span] at * <;> omega

theorem InHalf.lin_le (hsize : 0 < size) : lin L start + size ≤ span L := by
  rcases hL with rfl | rfl <;> simp only [InHalf, lin, span] at * <;> omega

theorem InHalf.canonical (hk : k < size) : Canonical L (start + k) := by
  rcases hL with rfl | rfl <;> simp only [InHalf, Canonical, span] at * <;> omega

theorem InHalf.lt (hk : k < size) : start + k < 2 ^ 64 := by
  rcases hL with rfl | rfl <;> simp only [InHalf, span] at * <;> omega

/-- All addresses of such a range are in the half of its first. -/
theorem InHalf.isUpperHalf_add (hk : k < size) : isUpperHalf (start + k) = isUpperHalf start := by
  have hlt := h.lt hL hk
  have hstart : start < 2 ^ 64 := by omega
  rw [Bool.eq_iff_iff, isUpperHalf_iff hlt, isUpperHalf_iff hstart]
  rcases hL with rfl | rfl <;> simp only [InHalf, span] at * <;> omega

omit hL h

theorem InHalf.mono {start' size' : Nat} (h : InHalf L start size) (hle : start ≤ start')
    (hend : start' + size' ≤ start + size) : InHalf L start' size' := by
  simp only [InHalf] at *
  omega

theorem Canonical.eq_of_lin (hL : L = 4 ∨ L = 5) {w : Nat} (hv : Canonical L v) (hw : Canonical L w)
    (h : lin L v = lin L w) : v = w := by
  rcases hL with rfl | rfl <;> simp only [Canonical, lin, span] at * <;> omega

end

end Erebus.Vmm
