import Erebus.Memory.Pmm.Model

/-!
# Creating an object cache

`KmemCache::create` pads, rounds and divides 32-bit sizes before it looks at any bound.

* `Checked`: a 32-bit value that remembers whether anything wrapped on the way.
* `slabOrderFor`: the order of a cache's slabs; `none` is a division by zero.
* `Outcome.Sound`: what a caller may expect of `create`, on success and on failure.
* `create_sound_iff`: it gets that exactly when rounding up the padded size does not wrap.
-/

namespace Erebus.Heap

/-! ## 32-bit sizes -/

/-- `PAGE_SIZE`. -/
def pageSize : Nat := 4096

/-- A `std::uint32_t`, and whether an addition on the way wrapped around. -/
structure Checked where
  val : Nat
  wrapped : Bool := false
  deriving DecidableEq, Repr

namespace Checked

def add (n : Checked) (m : Nat) : Checked :=
  ⟨(n.val + m) % 2 ^ 32, n.wrapped || decide (2 ^ 32 ≤ n.val + m)⟩

/-- `align_up`; `a` is a power of two, so masking drops the remainder. -/
def alignUp (n : Checked) (a : Nat) : Checked :=
  let sum := n.add (a - 1)
  { sum with val := sum.val - sum.val % a }

theorem add_of_lt {n : Checked} {m : Nat} (h : n.val + m < 2 ^ 32) :
    n.add m = ⟨n.val + m, n.wrapped⟩ := by
  rw [add, Nat.mod_eq_of_lt h, decide_eq_false (Nat.not_le.2 h), Bool.or_false]

theorem alignUp_wrapped (n : Checked) (a : Nat) :
    (n.alignUp a).wrapped = (n.wrapped || decide (2 ^ 32 ≤ n.val + (a - 1))) := rfl

/-- Rounding up without wrapping gives the next multiple. -/
theorem alignUp_of_lt {n : Checked} {a : Nat} (ha : 0 < a) (h : n.val + (a - 1) < 2 ^ 32) :
    a ∣ (n.alignUp a).val ∧ n.val ≤ (n.alignUp a).val ∧ (n.alignUp a).val < 2 ^ 32 := by
  have hval : (n.alignUp a).val = n.val + (a - 1) - (n.val + (a - 1)) % a := by
    rw [alignUp, add_of_lt h]
  have hmod : (n.val + (a - 1)) % a < a := Nat.mod_lt _ ha
  rw [hval]
  exact ⟨Nat.dvd_sub_mod _, by omega, by omega⟩

end Checked

/-! ## The order of a slab -/

/-- `MIN_OBJECTS_PER_SLAB`. -/
def minObjectsPerSlab : Nat := 32

/-- `MAX_SLAB_ORDER`. -/
def maxSlabOrder : Nat := 3

/-- The first loop of `slab_order_for`: make room for one object. -/
def fitOne (size : Nat) : Nat → Nat → Nat
  | 0, order => order
  | fuel + 1, order => if pageSize <<< order < size then fitOne size fuel (order + 1) else order

/-- The second loop: make room for more objects, up to `MAX_SLAB_ORDER`. It divides by `size`. -/
def fitMore (size : Nat) : Nat → Nat → Option Nat
  | 0, order => some order
  | fuel + 1, order =>
    if order < maxSlabOrder then
      if size = 0 then
        none
      else if pageSize <<< order / size < minObjectsPerSlab then
        fitMore size fuel (order + 1)
      else
        some order
    else
      some order

/-- `slab_order_for`; a 32-bit size fits in a slab of order 20. -/
def slabOrderFor (size : Nat) : Option Nat := fitMore size (maxSlabOrder + 1) (fitOne size 21 0)

theorem shiftLeft_eq_mul (order : Nat) : pageSize <<< order = pageSize * 2 ^ order :=
  Nat.shiftLeft_eq ..

/-- The first loop stops by itself, at the first order with room. -/
theorem fitOne_spec {size : Nat} : ∀ fuel order : Nat, size ≤ pageSize * 2 ^ (order + fuel) →
    order ≤ fitOne size fuel order ∧ size ≤ pageSize * 2 ^ fitOne size fuel order ∧
      (order < fitOne size fuel order → pageSize * 2 ^ (fitOne size fuel order - 1) < size) := by
  intro fuel
  induction fuel with
  | zero => exact fun order h => ⟨le_rfl, h, fun hlt => absurd hlt (lt_irrefl _)⟩
  | succ fuel ih =>
    intro order h
    rw [fitOne, shiftLeft_eq_mul]
    split
    · rename_i hsmall
      obtain ⟨hle, hroom, hfirst⟩ := ih (order + 1) (by rwa [Nat.add_right_comm])
      refine ⟨by omega, hroom, fun _ => ?_⟩
      rcases Nat.eq_or_lt_of_le hle with heq | hlt
      · rw [← heq]
        exact hsmall
      · exact hfirst hlt
    · exact ⟨le_rfl, by omega, fun hlt => absurd hlt (lt_irrefl _)⟩

/-- The second loop only goes up, and not past `MAX_SLAB_ORDER`. -/
theorem fitMore_spec {size : Nat} (hsize : size ≠ 0) : ∀ fuel order : Nat,
    ∃ order', fitMore size fuel order = some order' ∧ order ≤ order' ∧
    order' ≤ max order maxSlabOrder := by
  intro fuel
  induction fuel with
  | zero => exact fun order => ⟨order, rfl, le_rfl, Nat.le_max_left ..⟩
  | succ fuel ih =>
    intro order
    simp only [fitMore, if_neg hsize]
    split
    · rename_i hlt
      split
      · obtain ⟨order', heq, hle, hmax⟩ := ih (order + 1)
        exact ⟨order', heq, by omega, by omega⟩
      · exact ⟨order, rfl, le_rfl, Nat.le_max_left ..⟩
    · exact ⟨order, rfl, le_rfl, Nat.le_max_left ..⟩

/-- **The order of a slab**: there is room for one object, and past `MAX_SLAB_ORDER` for not more
than one. -/
theorem slabOrderFor_spec {size : Nat} (hpos : 0 < size) (h32 : size < 2 ^ 32) :
    ∃ order, slabOrderFor size = some order ∧ size ≤ pageSize * 2 ^ order ∧
      (maxSlabOrder < order → pageSize * 2 ^ order < 2 * size) := by
  have hbound : size ≤ pageSize * 2 ^ (0 + 21) := by
    have : pageSize * 2 ^ (0 + 21) = 2 ^ 33 := by decide
    omega
  obtain ⟨-, hroom, hfirst⟩ := fitOne_spec 21 0 hbound
  obtain ⟨order, heq, hle, hmax⟩ := fitMore_spec hpos.ne' (maxSlabOrder + 1) (fitOne size 21 0)
  refine ⟨order, heq, hroom.trans (Nat.mul_le_mul_left _ (Nat.pow_le_pow_right two_pos hle)),
    fun hbig => ?_⟩
  obtain rfl : order = fitOne size 21 0 := by omega
  have hsucc : pageSize * 2 ^ fitOne size 21 0 = 2 * (pageSize * 2 ^ (fitOne size 21 0 - 1)) := by
    rw [Nat.mul_left_comm, ← pow_succ', Nat.sub_add_cancel (by omega)]
  have := hfirst (by omega)
  omega

/-! ## `create` -/

/-- `Error`, as far as the heap returns it. -/
inductive Error where
  | invalidArgument | outOfMemory
  deriving DecidableEq, Repr

/-- `CacheFlags`. -/
structure CacheFlags where
  redZone : Bool := false
  poison : Bool := false
  deriving DecidableEq, Repr

/-- The parameters a `KmemCache` is made with. -/
structure KmemCache where
  objSize : Nat
  size : Nat
  order : Nat
  flags : CacheFlags
  ctor : Bool
  deriving DecidableEq, Repr

namespace KmemCache

/-- The number of objects `new_slab` carves out, as it stores it. -/
def total (cache : KmemCache) : Nat := (pageSize <<< cache.order / cache.size) % 2 ^ 16

end KmemCache

/-- The objects that are out of the caches that hold descriptors, CPU arrays and node arrays. -/
structure MetaCaches where
  cache : List Nat := []
  cpuArray : List Nat := []
  nodeArray : List Nat := []
  deriving DecidableEq, Repr

/-- How a call of `create` ends. -/
inductive Outcome where
  | divideByZero (wrapped : Bool)
  | returned (result : Except Error KmemCache) (out : MetaCaches) (wrapped : Bool)

/-- The bytes of the guard word. -/
def CacheFlags.guard (flags : CacheFlags) : Nat := if flags.redZone then 8 else 0

/-- `std::has_single_bit`. -/
def hasSingleBit (n : Nat) : Bool := n != 0 && n &&& (n - 1) == 0

/-- The padded size of an object. -/
def stride (objSize : Nat) (flags : CacheFlags) : Checked :=
  if flags.redZone then Checked.add ⟨objSize, false⟩ 8 else ⟨objSize, false⟩

/-- `KmemCache::create`. The last three arguments are the answers of the caches it allocates
from. -/
def create (objSize alignment : Nat) (flags : CacheFlags) (ctor : Bool) (out : MetaCaches)
    (cacheMem cpuMem nodeMem : Option Nat) : Outcome :=
  if objSize = 0 ∨ hasSingleBit alignment = false then
    .returned (.error .invalidArgument) out false
  else
    let flags := if ctor then { flags with poison := false } else flags
    let size := (stride objSize flags).alignUp (max alignment 8)
    match slabOrderFor size.val with
    | none => .divideByZero size.wrapped
    | some order =>
      if Pmm.maxOrder < order then
        .returned (.error .invalidArgument) out size.wrapped
      else
        match cacheMem with
        | none => .returned (.error .outOfMemory) out size.wrapped
        | some cacheMem =>
          let out := { out with cache := cacheMem :: out.cache }
          match cpuMem with
          | none =>
            .returned (.error .outOfMemory) { out with cache := out.cache.erase cacheMem }
              size.wrapped
          | some cpuMem =>
            let out := { out with cpuArray := cpuMem :: out.cpuArray }
            match nodeMem with
            | none =>
              let out := { out with cpuArray := out.cpuArray.erase cpuMem }
              .returned (.error .outOfMemory) { out with cache := out.cache.erase cacheMem }
                size.wrapped
            | some nodeMem =>
              .returned (.ok ⟨objSize, size.val, order, flags, ctor⟩)
                { out with nodeArray := nodeMem :: out.nodeArray } size.wrapped

/-! ## What a caller may expect -/

/-- The layout of the slabs of a cache. -/
structure KmemCache.WellFormed (cache : KmemCache) (objSize alignment : Nat)
    (flags : CacheFlags) : Prop where
  stride_aligned : alignment ∣ cache.size
  room : objSize + flags.guard ≤ cache.size
  some_object : 1 ≤ cache.total
  total_le : cache.total ≤ 2 ^ 15 - 1
  inside : ∀ i < cache.total, i * cache.size + cache.size ≤ pageSize <<< cache.order
  object_aligned : ∀ slab, pageSize <<< cache.order ∣ slab →
    ∀ i < cache.total, alignment ∣ slab + i * cache.size

/-- Nothing wraps or divides by zero, a cache is laid out well, and a failed call keeps nothing. -/
def Outcome.Sound (objSize alignment : Nat) (flags : CacheFlags) (out : MetaCaches) : Outcome → Prop
  | .divideByZero _ => False
  | .returned (.error _) out' wrapped => wrapped = false ∧ out' = out
  | .returned (.ok cache) _ wrapped => wrapped = false ∧ cache.WellFormed objSize alignment flags

section Create

variable {objSize alignment : Nat} {flags : CacheFlags} {ctor : Bool} {out : MetaCaches}
  {cacheMem cpuMem nodeMem : Option Nat}

theorem hasSingleBit_two_pow (k : Nat) : hasSingleBit (2 ^ k) = true := by
  have hpos : 2 ^ k ≠ 0 := (Nat.two_pow_pos k).ne'
  simp [hasSingleBit, Nat.and_two_pow_sub_one_eq_mod]

theorem stride_val (hobj : objSize + flags.guard < 2 ^ 32) :
    stride objSize flags = ⟨objSize + flags.guard, false⟩ := by
  unfold stride CacheFlags.guard at *
  split
  · rename_i hflag
    rw [if_pos hflag] at hobj
    exact Checked.add_of_lt hobj
  · rfl

/-- If padding and rounding did not set the mark, they did not wrap. -/
theorem stride_alignUp_wrapped (hobj : objSize < 2 ^ 32) (a : Nat) :
    ((stride objSize flags).alignUp a).wrapped = false ↔
    objSize + flags.guard + (a - 1) < 2 ^ 32 := by
  rw [Checked.alignUp_wrapped, Bool.or_eq_false_iff, decide_eq_false_iff_not, Nat.not_le]
  by_cases hfit : objSize + flags.guard < 2 ^ 32
  · rw [stride_val hfit]
    exact and_iff_right rfl
  · have hflag : flags.redZone = true := by
      by_contra hno
      rw [CacheFlags.guard, if_neg hno] at hfit
      exact hfit hobj
    have hguard : flags.guard = 8 := if_pos hflag
    have hwrapped : (stride objSize flags).wrapped = true := by
      rw [stride, if_pos hflag]
      exact decide_eq_true (by rw [hguard] at hfit; exact Nat.not_lt.1 hfit)
    constructor
    · rintro ⟨hno, -⟩
      exact nomatch hwrapped.symm.trans hno
    · intro h
      omega

/-- A cache whose stride is a multiple of a power of two that divides the slab, with room for an
object and an order from `slab_order_for`, is well formed. -/
theorem wellFormed_of_stride {size order k : Nat} {fl : CacheFlags} (halign : alignment = 2 ^ k)
    (hdvd : max alignment 8 ∣ size) (hroom : objSize + flags.guard ≤ size) (hpos : 0 < size)
    (hfit : size ≤ pageSize * 2 ^ order)
    (hbig : maxSlabOrder < order → pageSize * 2 ^ order < 2 * size) :
    (KmemCache.mk objSize size order fl ctor).WellFormed objSize alignment flags := by
  have hdvd' : alignment ∣ size := by
    refine Dvd.dvd.trans ?_ hdvd
    rcases le_total alignment 8 with hle | hle
    · rw [max_eq_right hle]
      rw [halign] at hle ⊢
      exact Nat.pow_dvd_pow 2
        ((Nat.pow_le_pow_iff_right Nat.one_lt_two).1 (show 2 ^ k ≤ 2 ^ 3 from hle))
    · rw [max_eq_left hle]
  have h8 : 8 ≤ size := le_trans (Nat.le_max_right ..) (Nat.le_of_dvd hpos hdvd)
  -- small orders hold at most 4096 objects, large ones a single one
  have hcount : pageSize * 2 ^ order / size ≤ 4096 := by
    apply Nat.div_le_of_le_mul
    by_cases hsmall : order ≤ maxSlabOrder
    · calc pageSize * 2 ^ order ≤ pageSize * 2 ^ 3 :=
        Nat.mul_le_mul_left _ (Nat.pow_le_pow_right two_pos hsmall)
        _ = 8 * 4096 := rfl
        _ ≤ size * 4096 := Nat.mul_le_mul_right _ h8
    · have := hbig (Nat.not_le.1 hsmall)
      omega
  have htotal : (KmemCache.mk objSize size order fl ctor).total = pageSize * 2 ^ order / size := by
    show (pageSize <<< order / size) % 2 ^ 16 = _
    rw [shiftLeft_eq_mul]
    exact Nat.mod_eq_of_lt (by omega)
  constructor
  · exact hdvd'
  · exact hroom
  · rw [htotal]
    exact Nat.div_pos hfit hpos
  · rw [htotal]
    omega
  · intro i hi
    rw [htotal] at hi
    show i * size + size ≤ pageSize <<< order
    rw [shiftLeft_eq_mul, ← Nat.succ_mul]
    exact (Nat.mul_le_mul_right _ hi).trans (Nat.div_mul_le_self ..)
  · intro slab hslab i _
    refine Nat.dvd_add (Dvd.dvd.trans ?_ hslab) (Dvd.dvd.mul_left hdvd' i)
    -- the slab is a power of two that an object, and so its alignment, fits in
    show alignment ∣ pageSize <<< order
    have hpow : pageSize <<< order = 2 ^ (12 + order) := by
      rw [shiftLeft_eq_mul, pow_add]
      rfl
    have hle : alignment ≤ 2 ^ (12 + order) := by
      rw [← hpow, shiftLeft_eq_mul]
      exact (Nat.le_of_dvd hpos hdvd').trans hfit
    rw [hpow]
    rw [halign] at hle ⊢
    exact Nat.pow_dvd_pow 2 ((Nat.pow_le_pow_iff_right Nat.one_lt_two).1 hle)

variable (flags ctor out cacheMem cpuMem nodeMem) in
/-- `create`, by what the rounded size comes to; the rest is who runs out of memory. -/
theorem create_eq {size : Checked} (hsize : (stride objSize flags).alignUp (max alignment 8) = size)
    (hobj : objSize ≠ 0) (halign : hasSingleBit alignment = true) : (slabOrderFor size.val = none ∧
        create objSize alignment flags ctor out cacheMem cpuMem nodeMem =
          .divideByZero size.wrapped) ∨
      (∃ e, create objSize alignment flags ctor out cacheMem cpuMem nodeMem =
        .returned (.error e) out size.wrapped) ∨
      ∃ order fl out', slabOrderFor size.val = some order ∧
        create objSize alignment flags ctor out cacheMem cpuMem nodeMem =
          .returned (.ok ⟨objSize, size.val, order, fl, ctor⟩) out' size.wrapped := by
  have hstride : stride objSize (if ctor = true then { flags with poison := false } else flags) =
      stride objSize flags := by
    split <;> rfl
  unfold create
  rw [if_neg (by rw [not_or]; exact ⟨hobj, by rw [halign]; decide⟩)]
  simp only [hstride, hsize]
  cases slabOrderFor size.val with
  | none => exact Or.inl ⟨rfl, rfl⟩
  | some order =>
    right
    dsimp only
    split
    · exact Or.inl ⟨_, rfl⟩
    · cases cacheMem with
      | none => exact Or.inl ⟨_, rfl⟩
      | some cacheMem =>
        cases cpuMem with
        | none => exact Or.inl ⟨.outOfMemory, by simp only [List.erase_cons_head]⟩
        | some cpuMem =>
          cases nodeMem with
          | none => exact Or.inl ⟨.outOfMemory, by simp only [List.erase_cons_head]⟩
          | some nodeMem => exact Or.inr ⟨order, _, _, rfl, rfl⟩

/-- **`create` is sound exactly when rounding the padded size up to the alignment does not wrap
around.**  Otherwise the rounded size is 0, which it divides by, or the guard word pushed the padded
size past the end. -/
theorem create_sound_iff (hpos : 0 < objSize) (h32 : objSize < 2 ^ 32)
    (halign : ∃ k < 32, alignment = 2 ^ k) :
    (create objSize alignment flags ctor out cacheMem cpuMem nodeMem).Sound objSize
      alignment flags out ↔ objSize + flags.guard + (max alignment 8 - 1) < 2 ^ 32 := by
  obtain ⟨k, -, hk⟩ := halign
  have hbit : hasSingleBit alignment = true := hk ▸ hasSingleBit_two_pow k
  rw [← stride_alignUp_wrapped h32]
  rcases create_eq flags ctor out cacheMem cpuMem nodeMem rfl hpos.ne' hbit with
    ⟨hnone, heq⟩ | ⟨e, heq⟩ | ⟨order, fl, out', horder, heq⟩
  · -- without a wrap the rounded size is positive, so there is an order
    rw [heq]
    refine iff_of_false id fun hno => ?_
    have hsum := (stride_alignUp_wrapped h32 _).1 hno
    have hval := stride_val (show objSize + flags.guard < 2 ^ 32 by omega)
    rw [hval] at hnone
    obtain ⟨-, hle, hlt⟩ :=
      Checked.alignUp_of_lt (n := ⟨objSize + flags.guard, false⟩) (by omega) hsum
    obtain ⟨order, hsome, -⟩ :=
      slabOrderFor_spec (lt_of_lt_of_le (show 0 < objSize + flags.guard by omega) hle) hlt
    exact absurd (hnone.symm.trans hsome) (by simp)
  · rw [heq]
    exact and_iff_left rfl
  · rw [heq]
    refine and_iff_left_of_imp fun hno => ?_
    have hsum := (stride_alignUp_wrapped h32 _).1 hno
    have hval := stride_val (show objSize + flags.guard < 2 ^ 32 by omega)
    rw [hval] at horder ⊢
    obtain ⟨hdvd, hle, hlt⟩ :=
      Checked.alignUp_of_lt (n := ⟨objSize + flags.guard, false⟩) (by omega) hsum
    have hsize := lt_of_lt_of_le (show 0 < objSize + flags.guard by omega) hle
    obtain ⟨order', hsome, hfit, hbig⟩ := slabOrderFor_spec hsize hlt
    obtain rfl : order = order' := Option.some.inj (horder.symm.trans hsome)
    exact wellFormed_of_stride hk hdvd hle hsize hfit hbig

theorem create_sound_iff_guarded :
    (create 24 16 ⟨true, false⟩ false {} (some 1) (some 2) (some 3)).Sound 24 16 ⟨true, false⟩ {} :=
  (create_sound_iff (by decide) (by decide) ⟨4, by decide, by decide⟩).2 (by decide)

/-- The largest object size, without flags: rounding up gives 0, and the slab is divided by it. -/
theorem create_divides_by_zero :
    create (2 ^ 32 - 1) 8 {} false {} (some 1) (some 2) (some 3) = .divideByZero true ∧
      ¬ (create (2 ^ 32 - 1) 8 {} false {} (some 1) (some 2) (some 3)).Sound
        (2 ^ 32 - 1) 8 {} {} := by
  have heq : create (2 ^ 32 - 1) 8 {} false {} (some 1) (some 2) (some 3) = .divideByZero true := by
    rfl
  exact ⟨heq, by rw [heq]; exact id⟩

end Create

end Erebus.Heap
