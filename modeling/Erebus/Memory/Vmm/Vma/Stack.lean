import Erebus.Memory.Vmm.Vma.World

/-!
# Stacks that grow

`expand_stack_locked` makes an area begin further down. Start, key in the tree and offset into the
object move together; the limits are on the area, not on the stack it may once have been split from.

* `expandStackLocked_spec`: what the call leaves, from any space whose areas are in order.
* `split_stack_outgrows`: a stack that was split grows beyond the limit, and into pages that were in
  use before.
-/

namespace Erebus.Vmm
namespace AddressSpace

open Memory

variable {s : AddressSpace} {ids : List Nat}

/-- An area that begins `growth` pages further down and `growth` indices earlier has the pages it
had, and the ones below them before those. -/
theorem lowered_index {start newStart offset pageBytes : Nat} (hpos : 0 < pageBytes)
    (hle : newStart ≤ start) (hstart : start % pageBytes = 0) (hnew : newStart % pageBytes = 0)
    (hroom : (start - newStart) / pageBytes ≤ offset) (addr : Nat) :
    (start ≤ addr → offset - (start - newStart) / pageBytes + (addr - newStart) / pageBytes =
        offset + (addr - start) / pageBytes) ∧ (newStart ≤ addr → addr < start →
        offset - (start - newStart) / pageBytes + (addr - newStart) / pageBytes < offset) := by
  have hdvd : pageBytes ∣ start - newStart :=
    Nat.dvd_sub (Nat.dvd_of_mod_eq_zero hstart) (Nat.dvd_of_mod_eq_zero hnew)
  have hmul := Nat.div_mul_cancel hdvd
  constructor
  · intro h
    rw [show addr - newStart = addr - start + (start - newStart) / pageBytes * pageBytes by omega,
      Nat.add_mul_div_right _ _ hpos]
    omega
  · intro h hlt
    have :=
      (Nat.div_lt_iff_lt_mul hpos (x := addr - newStart) (y := (start - newStart) / pageBytes)).2
        (by omega)
    omega

/-- **`expand_stack_locked`** changes nothing or makes one area longer. What it returns contains the
address; the areas stay in order and apart, in the list and in the tree; every address that was in
an area keeps its page of the object and its flags; an area that has grown is not longer than the
limit, and its new pages come before its old ones in the object. -/
theorem expandStackLocked_spec (h : Layout s ids) (ha : s.Aligned ids) (m : Memory)
    (faultAddr : Nat) :
    ∃ r m' s', expandStackLocked m s faultAddr = (r, m', s') ∧ Same m m' ∧ Layout s' ids ∧
      (∀ e, r = .error e → s' = s) ∧ ∀ vma, r = .ok vma → vma ∈ ids ∧
      (s'.area vma).contains faultAddr = true ∧
        (∀ addr, s.findVma addr ≠ none → s'.attributes addr = s.attributes addr) ∧
        (∀ addr, s.findVma addr = none → s'.findVma addr ≠ none → s'.findVma addr = some vma ∧
          (s'.area vma).objectOffset + (addr - (s'.area vma).start) / (s'.area vma).pageBytes <
            (s.area vma).objectOffset) ∧
        (s.findVma faultAddr = none → (s'.area vma).sizeBytes ≤ maxStackBytes) := by
  obtain ⟨r, m', s', heq, hsame, ⟨rfl, hfound⟩ |
    ⟨a, stack, b, newStart, rfl, rfl, rfl, hnew, hlt, hbefore, hsize, hroom⟩⟩ :=
      expandStackLocked_cases h m faultAddr
  · refine ⟨r, m', _, heq, hsame, h, fun _ _ => rfl, fun vma hr => ?_⟩
    obtain ⟨hmem, hin⟩ := h.findVma_iff.1 (hfound vma hr)
    refine ⟨hmem, hin, fun _ _ => rfl, fun _ hnone hne => absurd hnone hne, fun hnone => ?_⟩
    rw [hfound vma hr] at hnone
    cases hnone
  · have hmem : stack ∈ a ++ stack :: b := by simp
    have hle : newStart ≤ faultAddr := hnew ▸ Nat.sub_le ..
    have hproper := (h.proper stack hmem).1
    have hlayout : Layout (s.lowered stack newStart) (a ++ stack :: b) :=
      h.lower rfl (hle.trans_lt hlt) hbefore
    have hindex :=
      lowered_index (Nat.pos_of_dvd_of_pos (getPageBytes_dvd _) (by decide)) (hle.trans hlt.le)
      (ha stack hmem).1 (hnew ▸ alignDown_mod ..) hroom
    refine ⟨_, m', _, heq, hsame, hlayout, nofun, ?_⟩
    rintro vma ⟨rfl⟩
    refine ⟨hmem, ?_, fun addr haddr => ?_, fun addr hnone haddr => ?_, fun _ => ?_⟩
    · rw [lowered_same, contains_iff]
      exact ⟨hle, hlt.trans hproper⟩
    · obtain ⟨i, hi⟩ := Option.ne_none_iff_exists'.1 haddr
      obtain ⟨himem, hin⟩ := h.findVma_iff.1 hi
      have hin' := contains_iff.1 hin
      rcases eq_or_ne i stack with rfl | hne
      · rw [h.attributes_eq himem hin, hlayout.attributes_eq himem]
        · rw [lowered_same, VMArea.attributes, VMArea.attributes]
          have := (hindex addr).1 hin'.1
          simp only [VMArea.pageBytes, add64] at this ⊢
          rw [this]
        · rw [lowered_same, contains_iff]
          exact ⟨by dsimp only; omega, hin'.2⟩
      · rw [h.attributes_eq himem hin, hlayout.attributes_eq himem] <;> rw [lowered_other s _ hne]
        exact hin
    · obtain ⟨i, hi⟩ := Option.ne_none_iff_exists'.1 haddr
      obtain ⟨himem, hin⟩ := hlayout.findVma_iff.1 hi
      have hold : ∀ j ∈ a ++ stack :: b, (s.area j).contains addr ≠ true := fun j hj hc => by
        rw [h.findVma_iff.2 ⟨hj, hc⟩] at hnone
        cases hnone
      rcases eq_or_ne i stack with rfl | hne
      · refine ⟨hi, ?_⟩
        have hout := hold i himem
        rw [lowered_same, contains_iff] at hin
        rw [ne_eq, contains_iff] at hout
        rw [lowered_same]
        exact (hindex addr).2 hin.1 (by dsimp only at hin; omega)
      · rw [lowered_other s _ hne] at hin
        exact absurd hin (hold i himem)
    · rw [lowered_same]
      exact hsize

end AddressSpace

namespace World

open AddressSpace

/-- **A stack that was split outgrows the limit.**  The two pages grow, although the stack is too
long, and get an index above those that `alloc` left free below the stack; an address in the long
rest is no reason to refuse. -/
theorem split_stack_outgrows :
    ∃ m' s', expandStackLocked splitStack.1 splitStack.2 0x5000 = (.ok 1, m', s') ∧
      s'.tree = [(0x5000, 1), (0x8000, 2)] ∧ (s'.area 1).stop = 0x8000 ∧
      (s'.area 2).flags.getAccess.has .stack = true ∧ (s'.area 2).vmObject = (s'.area 1).vmObject ∧
      maxStackBytes < (s'.area 2).stop - (s'.area 1).start ∧
      maxStackBytes / (s'.area 1).pageBytes ≤ (s'.area 1).objectOffset ∧
      (expandStackLocked splitStack.1 splitStack.2 0x8000).1 = .ok 2 ∧
      maxStackBytes < (splitStack.2.area 2).sizeBytes := by
  refine ⟨_, _, rfl, ?_⟩
  decide +kernel

/-- A fault below the two pages: their area grows by a page, with the index of a page freed
before. -/
theorem expandStackLocked_spec_split : ∃ m' s',
    expandStackLocked splitStack.1 splitStack.2 0x5000 = (.ok 1, m', s') ∧
      (splitStack.2.area 1).start = 0x6000 ∧ (s'.area 1).contains 0x5000 = true ∧
      s'.attributes 0x6000 = splitStack.2.attributes 0x6000 ∧
      s'.attributes 0x8000 = splitStack.2.attributes 0x8000 ∧
      (s'.area 1).sizeBytes ≤ maxStackBytes := by
  have hreach : (system fun _ => True).Reachable splitWorld :=
    splitWorld_reachable fun _ _ => trivial
  have hlayout :=
    (reachable_accounted hreach).layouts splitStack.2 (Multiset.mem_cons_self splitStack.2 0)
  have hareas : splitStack.2.areas = [1, 2] := by decide +kernel
  have haligned : splitStack.2.Aligned splitStack.2.areas := by
    rw [hareas, Aligned]
    decide +kernel
  obtain ⟨r, m', s', heq, -, -, -, hok⟩ :=
    expandStackLocked_spec hlayout haligned splitStack.1 0x5000
  obtain rfl : Except.ok 1 = r := by
    have hr : (expandStackLocked splitStack.1 splitStack.2 0x5000).1 = .ok 1 := by decide +kernel
    rw [← hr, heq]
  obtain ⟨-, hin, hkept, -, hsize⟩ := hok 1 rfl
  exact ⟨m', s', heq, by decide +kernel, hin, hkept 0x6000 (by decide +kernel),
    hkept 0x8000 (by decide +kernel), hsize (by decide +kernel)⟩

end World
end Erebus.Vmm
