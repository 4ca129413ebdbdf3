import Erebus.Memory.Vmm.Vma.Layout

/-!
# What is where

The abstract address space: which page of which object backs an address, and with which attributes.

* `attributes s addr`: the abstract map.
* `SameContents s s'`: two address spaces hold the same, however their areas are cut.
* `SameContents.split`, `SameContents.absorb`: cutting an area at a page boundary and merging two
  areas that `can_merge` accepts are invisible.
-/

namespace Erebus.Vmm
namespace AddressSpace

/-- What backs an address: the object, the page of the object, and the attributes of the area. -/
structure Attributes where
  object : Option Nat
  pageIndex : Nat
  flags : VMAFlags
  numaNode : Nat

end AddressSpace

/-- What an area says about an address in it. -/
def VMArea.attributes (v : VMArea) (addr : Nat) : AddressSpace.Attributes :=
  ⟨v.vmObject, add64 v.objectOffset ((addr - v.start) / v.pageBytes), v.flags, v.preferredNumaNode⟩

namespace AddressSpace

/-- The abstract map of an address space. -/
def attributes (s : AddressSpace) (addr : Nat) : Option Attributes :=
  (s.findVma addr).map fun i => (s.area i).attributes addr

/-- The areas begin and end on boundaries of their pages. -/
def Aligned (s : AddressSpace) (ids : List Nat) : Prop :=
  ∀ i ∈ ids, (s.area i).start % (s.area i).pageBytes = 0 ∧
    (s.area i).stop % (s.area i).pageBytes = 0

/-- The two address spaces say the same about every address. -/
def SameContents (s s' : AddressSpace) : Prop := ∀ addr, s'.attributes addr = s.attributes addr

variable {s s' s'' : AddressSpace} {ids ids' a b : List Nat} {i j addr point upper : Nat}

theorem SameContents.refl (s : AddressSpace) : SameContents s s := fun _ => rfl

theorem SameContents.trans (h : SameContents s s') (h' : SameContents s' s'') :
    SameContents s s'' :=
  fun addr => (h' addr).trans (h addr)

/-- The area around an address tells. -/
theorem Layout.attributes_eq (h : Layout s ids) (hi : i ∈ ids)
    (hc : (s.area i).contains addr = true) :
    s.attributes addr = some ((s.area i).attributes addr) := by
  rw [attributes, h.findVma_iff.2 ⟨hi, hc⟩, Option.map_some]

theorem Layout.attributes_none (h : Layout s ids)
    (hnone : ∀ i ∈ ids, (s.area i).contains addr = false) : s.attributes addr = none := by
  rw [attributes, Option.map_eq_none_iff]
  by_contra hne
  obtain ⟨i, hi⟩ := Option.ne_none_iff_exists'.1 hne
  obtain ⟨hmem, hc⟩ := h.findVma_iff.1 hi
  rw [hnone i hmem] at hc
  cases hc

/-- Two layouts hold the same if the areas around each address say the same. -/
theorem SameContents.of_areas (h : Layout s ids) (h' : Layout s' ids')
    (hfwd : ∀ addr, ∀ i ∈ ids, (s.area i).contains addr = true →
      ∃ j ∈ ids', (s'.area j).contains addr = true ∧
      (s'.area j).attributes addr = (s.area i).attributes addr)
    (hbwd : ∀ addr, ∀ j ∈ ids', (s'.area j).contains addr = true →
    ∃ i ∈ ids, (s.area i).contains addr = true) : SameContents s s' := by
  intro addr
  by_cases hex : ∃ i ∈ ids, (s.area i).contains addr = true
  · obtain ⟨i, hi, hc⟩ := hex
    obtain ⟨j, hj, hcj, hsame⟩ := hfwd addr i hi hc
    rw [h.attributes_eq hi hc, h'.attributes_eq hj hcj, hsame]
  · have hnone : ∀ i ∈ ids, (s.area i).contains addr = false := fun i hi => by
      cases hc : (s.area i).contains addr with
      | false => rfl
      | true => exact absurd ⟨i, hi, hc⟩ hex
    have hnone' : ∀ j ∈ ids', (s'.area j).contains addr = false := fun j hj => by
      cases hc : (s'.area j).contains addr with
      | false => rfl
      | true => exact absurd (hbwd addr j hj hc) hex
    rw [h.attributes_none hnone, h'.attributes_none hnone']

theorem pageBytes_pos (v : VMArea) : 0 < v.pageBytes := by
  rw [VMArea.pageBytes, getPageBytes, Nat.shiftLeft_eq]
  exact Nat.mul_pos (by decide) (Nat.two_pow_pos _)

/-- Going on from a page boundary counts whole pages. -/
theorem div_split {x y z bpp : Nat} (hxy : x ≤ y) (hyz : y ≤ z) (hx : x % bpp = 0)
    (hy : y % bpp = 0) (hpos : 0 < bpp) : (y - x) / bpp + (z - y) / bpp = (z - x) / bpp := by
  obtain ⟨k, hk⟩ : bpp ∣ y - x :=
    Nat.dvd_sub (Nat.dvd_of_mod_eq_zero hy) (Nat.dvd_of_mod_eq_zero hx)
  have hz : z - x = bpp * k + (z - y) := by omega
  rw [hz, hk, Nat.mul_div_cancel_left k hpos, Nat.add_comm (bpp * k),
    Nat.add_mul_div_left _ _ hpos, Nat.add_comm]

theorem add64_assoc (x y z : Nat) : add64 (add64 x y) z = add64 x (y + z) := by
  simp only [add64]
  omega

/-! ## Cutting -/

/-- The upper part says the same as the whole. -/
theorem attributes_upper {v : VMArea} (hle : v.start ≤ point) (hpoint : point % v.pageBytes = 0)
    (hstart : v.start % v.pageBytes = 0) (haddr : point ≤ addr) (stop : Nat) : VMArea.attributes
        { v with
          start := point
          objectOffset := add64 v.objectOffset ((point - v.start) / v.pageBytes)
          stop := stop } addr = v.attributes addr := by
  have hdiv := div_split hle haddr hstart hpoint (pageBytes_pos v)
  simp only [VMArea.attributes, VMArea.pageBytes] at hdiv ⊢
  rw [add64_assoc, hdiv]

/-- **Cutting an area at a page boundary** is invisible. -/
theorem SameContents.split (h : Layout s (a ++ i :: b)) (hlt : (s.area i).start < point)
    (hstop : point < (s.area i).stop) (hnew : upper ∉ a ++ i :: b)
    (haligned : s.Aligned (a ++ i :: b)) (hpoint : point % (s.area i).pageBytes = 0) :
    SameContents s (s.splitAt i point upper) ∧
    (s.splitAt i point upper).Aligned (a ++ i :: upper :: b) := by
  have hi : i ∈ a ++ i :: b := by simp
  have hui : upper ≠ i := fun heq => hnew (heq ▸ hi)
  obtain ⟨hself, hupper, hother⟩ := splitAt_area (s := s) point hui
  have hneu : ∀ j ∈ a ++ i :: b, j ≠ upper := fun j hj heq => hnew (heq ▸ hj)
  have hmem : ∀ j ∈ a ++ i :: upper :: b, j = upper ∨ j ∈ a ++ i :: b := fun j hj => by
    simp only [List.mem_append, List.mem_cons] at hj ⊢
    tauto
  have hin : ∀ j ∈ a ++ i :: b, j ∈ a ++ i :: upper :: b := fun j hj => by
    simp only [List.mem_append, List.mem_cons] at hj ⊢
    tauto
  have hupper_mem : upper ∈ a ++ i :: upper :: b := by simp
  constructor
  · refine SameContents.of_areas h (h.split hlt hstop hnew) (fun addr j hj hc => ?_)
      fun addr j hj hc => ?_
    · rw [contains_iff] at hc
      rcases eq_or_ne j i with rfl | hne
      · -- the address is in one of the two parts
        rcases Nat.lt_or_ge addr point with hbelow | habove
        · refine ⟨j, hin j hj, ?_, ?_⟩
          · rw [contains_iff, hself]
            exact ⟨hc.1, hbelow⟩
          · rw [hself]
            rfl
        · refine ⟨upper, hupper_mem, ?_, ?_⟩
          · rw [contains_iff, hupper]
            exact ⟨habove, hc.2⟩
          · rw [hupper]
            exact attributes_upper (le_of_lt hlt) hpoint (haligned j hj).1 habove _
      · refine ⟨j, hin j hj, ?_, ?_⟩
        · rwa [contains_iff, hother j hne (hneu j hj)]
        · rw [hother j hne (hneu j hj)]
    · rw [contains_iff] at hc
      rcases hmem j hj with rfl | hj
      · rw [hupper] at hc
        refine ⟨i, hi, ?_⟩
        rw [contains_iff]
        exact ⟨le_of_lt (lt_of_lt_of_le hlt hc.1), hc.2⟩
      · rcases eq_or_ne j i with rfl | hne
        · rw [hself] at hc
          refine ⟨j, hj, ?_⟩
          rw [contains_iff]
          exact ⟨hc.1, lt_trans hc.2 hstop⟩
        · rw [hother j hne (hneu j hj)] at hc
          exact ⟨j, hj, contains_iff.2 hc⟩
  · intro j hj
    rcases hmem j hj with rfl | hj
    · rw [hupper]
      exact ⟨hpoint, (haligned i hi).2⟩
    · rcases eq_or_ne j i with rfl | hne
      · rw [hself]
        exact ⟨(haligned j hj).1, hpoint⟩
      · rw [hother j hne (hneu j hj)]
        exact haligned j hj

/-! ## Merging -/

theorem canMerge_iff (left right : Nat) : s.canMerge (some left) (some right) = true ↔
    (s.area left).vmObject ≠ none ∧ (s.area left).vmObject = (s.area right).vmObject ∧
      (s.area left).stop = (s.area right).start ∧ (s.area left).flags = (s.area right).flags ∧
      (s.area left).preferredNumaNode = (s.area right).preferredNumaNode ∧
      add64 (s.area left).objectOffset ((s.area left).sizeBytes / (s.area left).pageBytes) =
        (s.area right).objectOffset := by
  simp only [canMerge, Bool.and_eq_true, decide_eq_true_eq, Option.isSome_iff_ne_none, and_assoc]

/-- **Merging two areas that fit** is invisible. -/
theorem SameContents.absorb (h : Layout s (a ++ i :: j :: b))
    (haligned : s.Aligned (a ++ i :: j :: b)) (hmerge : s.canMerge (some i) (some j) = true) :
    SameContents s (s.absorbed i j) ∧ (s.absorbed i j).Aligned (a ++ i :: b) := by
  obtain ⟨-, hobject, hadjacent, hflags, hnode, hoffset⟩ := (canMerge_iff i j).1 hmerge
  have hi : i ∈ a ++ i :: j :: b := by simp
  have hj : j ∈ a ++ i :: j :: b := by simp
  have hpages : (s.area j).pageBytes = (s.area i).pageBytes := by
    rw [VMArea.pageBytes, VMArea.pageBytes, hflags]
  have hself : (s.absorbed i j).area i = { s.area i with stop := (s.area j).stop } :=
    setArea_same ..
  have hother : ∀ k, k ≠ i → (s.absorbed i j).area k = s.area k := fun k hk => setArea_other s _ hk
  have hin : ∀ k ∈ a ++ i :: b, k ∈ a ++ i :: j :: b := fun k hk => by
    simp only [List.mem_append, List.mem_cons] at hk ⊢
    tauto
  have hij := h.proper i hi
  have hjj := h.proper j hj
  -- what the right one says is what the left one says further on
  have hright : ∀ addr, (s.area j).start ≤ addr →
      ((s.absorbed i j).area i).attributes addr = (s.area j).attributes addr := by
    intro addr haddr
    have hdiv := div_split (x := (s.area i).start) (z := addr)
        (by rw [← hadjacent]; exact le_of_lt hij.1) haddr
      (haligned i hi).1 (by rw [← hadjacent]; exact (haligned i hi).2) (pageBytes_pos _)
    have hsize : (s.area i).sizeBytes = (s.area j).start - (s.area i).start := by
      rw [VMArea.sizeBytes, hadjacent]
    rw [hself]
    simp only [VMArea.attributes, hobject, hflags, hnode, ← hoffset, hpages, hsize,
      add64_assoc, hdiv]
    rw [← hpages]
    rfl
  constructor
  · refine SameContents.of_areas h h.absorb (fun addr k hk hc => ?_) fun addr k hk hc => ?_
    · rw [contains_iff] at hc
      rcases eq_or_ne k i with rfl | hki
      · refine ⟨k, by simp, ?_, by rw [hself]; rfl⟩
        rw [contains_iff, hself]
        exact ⟨hc.1, lt_trans (lt_of_lt_of_le hc.2 (le_of_eq hadjacent)) hjj.1⟩
      rcases eq_or_ne k j with rfl | hkj
      · refine ⟨i, by simp, ?_, hright addr hc.1⟩
        rw [contains_iff, hself]
        exact ⟨(le_of_lt hij.1).trans (hadjacent ▸ hc.1), hc.2⟩
      · refine ⟨k, ?_, ?_, by rw [hother k hki]⟩
        · simp only [List.mem_append, List.mem_cons] at hk ⊢
          tauto
        · rwa [contains_iff, hother k hki]
    · rw [contains_iff] at hc
      rcases eq_or_ne k i with rfl | hki
      · rw [hself] at hc
        rcases Nat.lt_or_ge addr (s.area k).stop with hbelow | habove
        · exact ⟨k, hi, contains_iff.2 ⟨hc.1, hbelow⟩⟩
        · exact ⟨j, hj, contains_iff.2 ⟨hadjacent ▸ habove, hc.2⟩⟩
      · rw [hother k hki] at hc
        exact ⟨k, hin k hk, contains_iff.2 hc⟩
  · intro k hk
    rcases eq_or_ne k i with rfl | hki
    · rw [hself]
      refine ⟨(haligned k hi).1, ?_⟩
      show (s.area j).stop % (s.area k).pageBytes = 0
      rw [← hpages]
      exact (haligned j hj).2
    · rw [hother k hki]
      exact haligned k (hin k hk)

end AddressSpace
end Erebus.Vmm
