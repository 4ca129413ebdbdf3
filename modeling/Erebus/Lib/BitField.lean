import Mathlib.Tactic

/-!
# Bit fields of a machine word

Registers and descriptors pack their fields into one word. A field is given by its offset and width;
a flag is a field of one bit.

* `get`, `set`: a field of several bits. A value that is too wide is cut to the field.
* `flag`, `setFlag`: one bit.
* the simp lemmas say that a store is seen by its own field and by no field beside it.
-/

namespace BitField

variable {n : Nat}
variable {off width v i : Nat} {e : BitVec n} {b : Bool}

/-- The `width` lowest bits of a word. -/
def mask (n width : Nat) : BitVec n := BitVec.ofNat n (2 ^ width - 1)

/-- Read the field of `width` bits at bit `off`. -/
def get (off width : Nat) (e : BitVec n) : Nat := ((e >>> off) &&& mask n width).toNat

/-- Store `v` into the field of `width` bits at bit `off`. -/
def set (off width v : Nat) (e : BitVec n) : BitVec n :=
  (e &&& ~~~(mask n width <<< off)) ||| ((BitVec.ofNat n v &&& mask n width) <<< off)

/-- Read the bit `i`. -/
def flag (i : Nat) (e : BitVec n) : Bool := ((e >>> i) &&& 1#n) ≠ 0#n

/-- Store into the bit `i`. -/
def setFlag (i : Nat) (b : Bool) (e : BitVec n) : BitVec n :=
  (e &&& ~~~(1#n <<< i)) ||| ((BitVec.ofNat n b.toNat) <<< i)

/-- The mask as it is computed. -/
theorem mask_eq (width : Nat) : (1#n <<< width) - 1#n = mask n width := by
  cases n with
  | zero => exact Subsingleton.elim _ _
  | succ n =>
    have hone : 1 < 2 ^ (n + 1) := Nat.one_lt_two_pow n.succ_ne_zero
    rw [mask, ← BitVec.ofNat_sub_ofNat_of_le _ _ hone Nat.one_le_two_pow]
    congr 1
    apply BitVec.eq_of_toNat_eq
    rw [BitVec.toNat_shiftLeft, BitVec.toNat_ofNat, BitVec.toNat_ofNat, Nat.mod_eq_of_lt hone,
      Nat.one_shiftLeft]

theorem mask_getLsbD (width j : Nat) :
    (mask n width).getLsbD j = (decide (j < n) && decide (j < width)) := by
  simp [mask, BitVec.getLsbD_ofNat, Nat.testBit_two_pow_sub_one]

theorem flag_eq (i : Nat) (e : BitVec n) : flag i e = e.getLsbD i := by
  have hbit : (e >>> i) &&& 1#n = if e.getLsbD i then 1#n else 0#n := by
    ext j hj
    by_cases h0 : j = 0
    · subst h0
      cases hb : e.getLsbD i <;> simp [hb]
    · cases hb : e.getLsbD i <;> simp [h0]
  rw [flag, hbit]
  cases hb : e.getLsbD i with
  | false => simp
  | true =>
    have hn : i < n := BitVec.lt_of_getLsbD hb
    have h1 : (1#n) ≠ 0#n := by
      intro h
      have htop := congrArg (fun x : BitVec n => x.getLsbD 0) h
      simp at htop
      omega
    simp [h1]

theorem set_getLsbD (off width v : Nat) (e : BitVec n) (j : Nat) : (set off width v e).getLsbD j =
      if off ≤ j ∧ j < off + width ∧ j < n then v.testBit (j - off) else e.getLsbD j := by
  simp only [set, BitVec.getLsbD_or, BitVec.getLsbD_and, BitVec.getLsbD_not,
    BitVec.getLsbD_shiftLeft, mask_getLsbD, BitVec.getLsbD_ofNat]
  by_cases hn : j < n
  · by_cases hoff : off ≤ j
    · have hsub : j - off < n := by omega
      have hwidth : j - off < width ↔ j < off + width := by omega
      by_cases hw : j < off + width <;> simp [hn, hoff, hw, hsub, hwidth, Nat.not_lt.2 hoff]
    · simp [hn, hoff, Nat.not_le.1 hoff]
  · simp [hn, BitVec.getLsbD_of_ge _ _ (Nat.not_lt.1 hn)]

theorem setFlag_getLsbD (i : Nat) (b : Bool) (e : BitVec n) (j : Nat) :
    (setFlag i b e).getLsbD j = if j = i ∧ j < n then b else e.getLsbD j := by
  by_cases hn : j < n
  · by_cases hji : j = i
    · subst hji
      cases b <;> simp [setFlag, hn]
    · by_cases hlt : j < i
      · simp [setFlag, hn, hji, hlt]
      · have hsub : j - i ≠ 0 := by omega
        cases b <;> simp [setFlag, hn, hji, hlt, hsub]
  · simp [hn, BitVec.getLsbD_of_ge _ _ (Nat.not_lt.1 hn)]

theorem get_testBit (off width : Nat) (e : BitVec n) (k : Nat) :
    (get off width e).testBit k = (decide (k < width) && e.getLsbD (off + k)) := by
  rw [get, BitVec.testBit_toNat, BitVec.getLsbD_and, BitVec.getLsbD_ushiftRight, mask_getLsbD]
  by_cases hk : k < n
  · simp [hk, Bool.and_comm]
  · have hge : e.getLsbD (off + k) = false := BitVec.getLsbD_of_ge _ _ (by omega)
    simp [hge]

/-- A field is determined by its bits. -/
theorem get_congr {off' : Nat} {m : Nat} {e' : BitVec m}
    (h : ∀ k < width, e.getLsbD (off + k) = e'.getLsbD (off' + k)) :
    get off width e = get off' width e' := by
  apply Nat.eq_of_testBit_eq
  intro k
  rw [get_testBit, get_testBit]
  by_cases hk : k < width
  · simp [hk, h k hk]
  · simp [hk]

theorem get_lt (off width : Nat) (e : BitVec n) : get off width e < 2 ^ width := by
  apply Nat.lt_pow_two_of_testBit
  intro k hk
  rw [get_testBit]
  simp [Nat.not_lt.2 hk]

@[simp] theorem flag_zero (i : Nat) : flag i (0#n) = false := by
  simp [flag]

theorem get_set (h : off + width ≤ n) : get off width (set off width v e) = v % 2 ^ width := by
  apply Nat.eq_of_testBit_eq
  intro k
  rw [get_testBit, Nat.testBit_mod_two_pow, set_getLsbD]
  by_cases hk : k < width
  · have hin : off ≤ off + k ∧ off + k < off + width ∧ off + k < n := by omega
    simp [hk, hin]
  · simp [hk]

theorem get_set_of_apart {off' width' : Nat} (h : off + width ≤ off' ∨ off' + width' ≤ off) :
    get off width (set off' width' v e) = get off width e := by
  apply get_congr
  intro k hk
  rw [set_getLsbD, if_neg (by omega)]

theorem get_setFlag (h : i < off ∨ off + width ≤ i) :
    get off width (setFlag i b e) = get off width e := by
  apply get_congr
  intro k hk
  rw [setFlag_getLsbD, if_neg (by omega)]

theorem flag_set (h : i < off ∨ off + width ≤ i) : flag i (set off width v e) = flag i e := by
  rw [flag_eq, flag_eq, set_getLsbD, if_neg (by omega)]

theorem flag_setFlag (h : i < n) : flag i (setFlag i b e) = b := by
  rw [flag_eq, setFlag_getLsbD, if_pos ⟨rfl, h⟩]

theorem flag_setFlag_of_ne {j : Nat} (h : i ≠ j) : flag i (setFlag j b e) = flag i e := by
  rw [flag_eq, flag_eq, setFlag_getLsbD, if_neg (fun hij => h hij.1)]

end BitField
