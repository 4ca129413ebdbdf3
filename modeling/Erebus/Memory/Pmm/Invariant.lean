import Erebus.Lib.BitField
import Erebus.Lib.Buddy
import Erebus.Memory.Pmm.Model

/-!
# The invariant of the physical memory manager

* `PcpList.Ok` and `PcpList.toList`: a per-CPU ring is a queue with two ends.
* `Place`: everywhere a block can be: on a free list, in a per-CPU list, in a deferred-free ring, or
  in somebody's hands. `shelf s g` lists the blocks of each place, and `Buddy.Shelved` says that
  together they tile the injected frames.
* `Ghost`: what the state does not spell out: the members of each free list, the blocks that are
  out, the descriptor whose `Free` mark has not been cleared yet, and how far `m_total_free_pages`
  lags behind within a call.
* `Inv F s g` and one lemma per primitive of the model: linking, unlinking, marking, splitting,
  merging, and the moves to and from the caches.
-/

namespace Erebus.Pmm

open DList (Links Ends IsDList)
open Buddy (Block Shelved)
open Function (update update_self update_of_ne update_apply)

/-! ## Per-CPU lists -/

namespace PcpList

/-- The blocks of the list, oldest first. -/
def toList (l : PcpList) : List Nat :=
  (List.range l.count).map fun i => l.pages ((l.head + i) % maxCapacity)

/-- The ring indices agree, and the list has been tuned. -/
structure Ok (l : PcpList) : Prop where
  head_lt : l.head < maxCapacity
  tail_eq : l.tail = (l.head + l.count) % maxCapacity
  count_le : l.count ≤ maxCapacity
  batch_pos : 1 ≤ l.batch
  batch_le : l.batch ≤ l.high
  high_le : l.high ≤ maxCapacity

theorem tune_ok {l : PcpList} (hhead : l.head < maxCapacity)
    (htail : l.tail = (l.head + l.count) % maxCapacity) (hcount : l.count ≤ maxCapacity)
    (zoneFreePages order : Nat) : (l.tune zoneFreePages order).Ok := by
  refine ⟨hhead, htail, hcount, ?_, ?_, ?_⟩
  · exact le_max_left _ _
  · simp only [tune]
    exact max_le (le_max_left _ _) (min_le_right _ _)
  · simp only [tune]
    exact max_le (by decide) (min_le_right _ _)

/-- Two positions of the window that are less than a lap apart are different slots. -/
theorem slot_ne {h i j : Nat} (hij : i < j) (hj : j < i + maxCapacity) :
    (h + i) % maxCapacity ≠ (h + j) % maxCapacity := by
  unfold maxCapacity at *
  omega

theorem Ok.pushHot {l : PcpList} (h : l.Ok) (hroom : l.count < maxCapacity) (p : Nat) :
    (l.pushHot p).Ok ∧ (l.pushHot p).toList = l.toList ++ [p] := by
  have htail := h.tail_eq
  constructor
  · refine ⟨h.head_lt, ?_, hroom, h.batch_pos, h.batch_le, h.high_le⟩
    simp only [PcpList.pushHot, htail]
    unfold maxCapacity
    omega
  · simp only [toList, PcpList.pushHot, List.range_succ, List.map_append,
      List.map_cons, List.map_nil]
    congr 1
    · apply List.map_congr_left
      intro i hi
      have hne : (l.head + i) % maxCapacity ≠ l.tail := by
        rw [htail]
        exact slot_ne (List.mem_range.1 hi) (by omega)
      simp [hne]
    · simp [htail]

theorem Ok.popHot {l : PcpList} (h : l.Ok) (hne : l.count ≠ 0) :
    ∃ p l', l.popHot = some (p, l') ∧ l'.Ok ∧ l.toList = l'.toList ++ [p] ∧
    l'.count + 1 = l.count := by
  obtain ⟨n, hn⟩ : ∃ n, l.count = n + 1 := ⟨l.count - 1, by omega⟩
  have hslot : (l.tail + (maxCapacity - 1)) % maxCapacity = (l.head + n) % maxCapacity := by
    rw [h.tail_eq, hn]
    unfold maxCapacity
    omega
  have hpop : l.popHot = some (l.pages ((l.head + n) % maxCapacity),
      { l with tail := (l.head + n) % maxCapacity, count := n }) := by
    rw [PcpList.popHot, if_neg hne]
    simp only [hslot, hn, Nat.add_sub_cancel]
  refine ⟨_, _, hpop, ⟨h.head_lt, rfl, ?_, h.batch_pos, h.batch_le, h.high_le⟩, ?_, hn.symm⟩
  · have := h.count_le
    simp only
    omega
  · simp [toList, hn, List.range_succ]

theorem Ok.popCold {l : PcpList} (h : l.Ok) (hne : l.count ≠ 0) :
    ∃ p l', l.popCold = some (p, l') ∧ l'.Ok ∧ l.toList = p :: l'.toList ∧
      l'.count + 1 = l.count ∧ l'.batch = l.batch ∧ l'.high = l.high := by
  obtain ⟨n, hn⟩ : ∃ n, l.count = n + 1 := ⟨l.count - 1, by omega⟩
  have hhead := h.head_lt
  have hpop : l.popCold =
      some (l.pages l.head, { l with head := (l.head + 1) % maxCapacity, count := n }) := by
    rw [PcpList.popCold, if_neg hne]
    simp only [hn, Nat.add_sub_cancel]
  refine ⟨_, _, hpop, ⟨?_, ?_, ?_, h.batch_pos, h.batch_le, h.high_le⟩, ?_, hn.symm, rfl, rfl⟩
  · exact Nat.mod_lt _ (by decide)
  · simp only [h.tail_eq, hn]
    unfold maxCapacity
    omega
  · have := h.count_le
    simp only
    omega
  · simp only [toList, hn, List.range_succ_eq_map, List.map_cons, List.map_map, Nat.add_zero,
      Nat.mod_eq_of_lt hhead]
    congr 1
    apply List.map_congr_left
    intro i _
    simp only [Function.comp_apply]
    congr 1
    unfold maxCapacity
    omega

end PcpList

/-! ## The bitmap of non-empty orders -/

section

theorem getLsbD_set {w : BitVec 32} {o i : Nat} (hi : i < 32) :
    (w ||| (1#32 <<< o)).getLsbD i = (w.getLsbD i || decide (i = o)) := by
  simp only [BitVec.getLsbD_or, BitVec.getLsbD_shiftLeft, BitVec.getLsbD_one]
  congr 1
  by_cases hio : i < o
  · simp [hio, hio.ne]
  · simp [hio, hi]
    omega

theorem getLsbD_clear {w : BitVec 32} {o i : Nat} (hi : i < 32) :
    (w &&& ~~~(1#32 <<< o)).getLsbD i = (w.getLsbD i && !decide (i = o)) := by
  simp only [BitVec.getLsbD_and, BitVec.getLsbD_not, BitVec.getLsbD_shiftLeft, BitVec.getLsbD_one]
  congr 1
  by_cases hio : i < o
  · simp [hio, hio.ne, hi]
  · simp [hio, hi]
    omega

/-- `~((1u << order) - 1)` keeps the orders from `order` on. -/
theorem getLsbD_above {w : BitVec 32} {o i : Nat} (hi : i < 32) :
    (w &&& ~~~((1#32 <<< o) - 1#32)).getLsbD i = (w.getLsbD i && decide (o ≤ i)) := by
  simp only [BitVec.getLsbD_and, BitVec.getLsbD_not, BitField.mask_eq, BitField.mask_getLsbD,
    hi, decide_true, Bool.true_and]
  congr 1
  by_cases hoi : o ≤ i
  · simp [hoi, not_lt.2 hoi]
  · simp [hoi, not_le.1 hoi]

theorem eq_zero_iff_getLsbD (w : BitVec 32) : w = 0 ↔ ∀ i < 32, w.getLsbD i = false := by
  rw [BitVec.eq_of_getLsbD_eq_iff]
  simp

theorem countrZero_spec {w : BitVec 32} (h : w ≠ 0) :
    countrZero w < 32 ∧ w.getLsbD (countrZero w) = true := by
  unfold countrZero
  cases hf : (List.range 32).find? fun i => w.getLsbD i with
  | none =>
    rw [List.find?_eq_none] at hf
    refine absurd ((eq_zero_iff_getLsbD w).2 fun i hi => ?_) h
    simpa using hf i (List.mem_range.2 hi)
  | some i => exact ⟨List.mem_range.1 (List.mem_of_find?_eq_some hf), List.find?_some hf⟩

theorem bitWidth_spec {w : BitVec 32} (h : w ≠ 0) :
    bitWidth w - 1 < 32 ∧ w.getLsbD (bitWidth w - 1) = true := by
  unfold bitWidth
  cases hf : (List.range 32).reverse.find? fun i => w.getLsbD i with
  | none =>
    rw [List.find?_eq_none] at hf
    refine absurd ((eq_zero_iff_getLsbD w).2 fun i hi => ?_) h
    simpa using hf i (by simpa using hi)
  | some i =>
    have hi : i ∈ (List.range 32).reverse := List.mem_of_find?_eq_some hf
    have hbit := List.find?_some hf
    simp only [List.mem_reverse, List.mem_range] at hi
    exact ⟨by simpa using hi, by simpa using hbit⟩

end

/-! ## What the state's operations touch -/

namespace State

variable (s : State) (z z' : ZoneId) (o p : Nat)

@[simp] theorem setPage_pages (d : Page) : (s.setPage p d).pages = update s.pages p d := rfl
@[simp] theorem setPage_links (d : Page) : (s.setPage p d).links = s.links := rfl
@[simp] theorem setPage_zones (d : Page) : (s.setPage p d).zones = s.zones := rfl

variable (f : MobilityZone → MobilityZone)

@[simp] theorem modifyZone_pages : (s.modifyZone z f).pages = s.pages := rfl
@[simp] theorem modifyZone_links : (s.modifyZone z f).links = s.links := rfl
@[simp] theorem modifyZone_zones :
    (s.modifyZone z f).zones z' = if z' = z then f (s.zones z) else s.zones z' := by
  simp only [modifyZone, update_apply]

variable (r : Links Nat × FreeArea)

@[simp] theorem setArea_pages : (s.setArea z o r).pages = s.pages := rfl
@[simp] theorem setArea_links : (s.setArea z o r).links = r.1 := rfl
@[simp] theorem setArea_zones : (s.setArea z o r).zones z' = if z' = z then
      { s.zones z with areas := update (s.zones z).areas o r.2 } else s.zones z' := by
  simp only [setArea, modifyZone, update_apply]

theorem linkFree_pages :
    (s.linkFree z o p).pages = update s.pages p ⟨.free, z.mobility, o, z.node⟩ := rfl

theorem linkFree_zones : (s.linkFree z o p).zones z' = if z' = z then
    { s.zones z with
      activeOrders := (s.zones z).activeOrders ||| (1#32 <<< o)
      areas := update (s.zones z).areas o ⟨(DList.pushFront s.links ((s.zones z).areas o).ends p).2,
          ((s.zones z).areas o).nrFree + 1⟩ } else s.zones z' := by
  by_cases hz : z' = z <;> simp [linkFree, hz, FreeArea.pushHot, MobilityZone.setOrderActive]

theorem removeFree_pages : (s.removeFree z o p).pages = s.pages := by
  unfold removeFree clearIfEmpty
  split <;> rfl

theorem removeFree_links :
    (s.removeFree z o p).links = (DList.unlink s.links ((s.zones z).areas o).ends p).1 := by
  unfold removeFree clearIfEmpty
  split <;> rfl

theorem removeFree_zones : (s.removeFree z o p).zones z' = if z' = z then
    { s.zones z with
      activeOrders := if ((s.zones z).areas o).nrFree - 1 = 0 then
        (s.zones z).activeOrders &&& ~~~(1#32 <<< o) else (s.zones z).activeOrders
      areas := update (s.zones z).areas o ⟨(DList.unlink s.links ((s.zones z).areas o).ends p).2,
          ((s.zones z).areas o).nrFree - 1⟩ } else s.zones z' := by
  by_cases hempty : ((s.zones z).areas o).nrFree - 1 = 0
  · by_cases hz : z' = z <;>
      simp [removeFree, clearIfEmpty, hempty, hz, FreeArea.remove, MobilityZone.clearOrderActive]
  · by_cases hz : z' = z <;>
      simp [removeFree, clearIfEmpty, hempty, hz, FreeArea.remove]

/-- The per-CPU lists and the deferred frees of every zone are as before. -/
def SameCaches (s s' : State) : Prop :=
  ∀ z, (s'.zones z).pcpCache = (s.zones z).pcpCache ∧
    (s'.zones z).deferredFrees = (s.zones z).deferredFrees

theorem SameCaches.refl (s : State) : SameCaches s s := fun _ => ⟨rfl, rfl⟩

theorem SameCaches.trans {s s' s'' : State} (h : SameCaches s s') (h' : SameCaches s' s'') :
    SameCaches s s'' :=
  fun z => ⟨(h' z).1.trans (h z).1, (h' z).2.trans (h z).2⟩

theorem linkFree_sameCaches : SameCaches s (s.linkFree z o p) := by
  intro z'
  rw [linkFree_zones]
  by_cases hz : z' = z <;> simp [hz]

theorem removeFree_sameCaches : SameCaches s (s.removeFree z o p) := by
  intro z'
  rw [removeFree_zones]
  by_cases hz : z' = z <;> simp [hz]

theorem setPage_sameCaches (d : Page) : SameCaches s (s.setPage p d) := fun _ => ⟨rfl, rfl⟩

end State

/-! ## The invariant -/

/-- Where a block can be. -/
inductive Place where
  | free (z : ZoneId) (order : Nat)
  | pcp (z : ZoneId) (cpu order : Nat)
  | deferred (z : ZoneId)
  | held
  deriving DecidableEq

/-- What the state does not spell out. -/
structure Ghost where
  free : ZoneId → Nat → List Nat
  held : List Block
  stale : Option Nat
  debt : ZoneId → Int

namespace Ghost

/-- Replace the members of one free list. -/
def setFree (g : Ghost) (z : ZoneId) (o : Nat) (l : List Nat) : Ghost :=
  { g with free := Function.update g.free z (Function.update (g.free z) o l) }

@[simp] theorem setFree_free (g : Ghost) (z z' : ZoneId) (o o' : Nat) (l : List Nat) :
    (g.setFree z o l).free z' o' = if z' = z ∧ o' = o then l else g.free z' o' := by
  simp only [setFree, update_apply]
  by_cases hz : z' = z
  · subst hz
    by_cases ho : o' = o <;> simp [ho]
  · simp [hz]

/-- Owe `n` more pages to the counter of one zone. -/
def addDebt (g : Ghost) (z : ZoneId) (n : Int) : Ghost :=
  { g with debt := Function.update g.debt z (g.debt z + n) }

end Ghost

open Ghost (addDebt setFree_free)

/-- The blocks of each place. -/
def shelf (s : State) (g : Ghost) : Place → List Block
  | .free z o => (g.free z o).map (⟨·, o⟩)
  | .pcp z cpu o => ((s.pcpList z cpu o).elim [] PcpList.toList).map (⟨·, o⟩)
  | .deferred z => (s.zones z).deferredFrees.map fun p => ⟨p, (s.pages p).order⟩
  | .held => g.held

/-- The pages on the free lists of one zone. -/
@[irreducible]
def freeSum (free : ZoneId → Nat → List Nat) (z : ZoneId) : Nat :=
  ∑ o ∈ Finset.range (maxOrder + 1), 2 ^ o * (free z o).length

/-- The invariant, also in the middle of a call. -/
structure Inv (F : Set Nat) (s : State) (g : Ghost) : Prop where
  shelved : Shelved F maxOrder (shelf s g)
  chain : ∀ z o, IsDList s.links ((s.zones z).areas o).ends (g.free z o)
  count : ∀ z o, ((s.zones z).areas o).nrFree = (g.free z o).length
  marked : ∀ z o, ∀ p ∈ g.free z o, s.pages p = ⟨.free, z.mobility, o, z.node⟩
  unmarked : ∀ p, (s.pages p).state = .free → g.stale ≠ some p →
    p ∈ g.free ⟨(s.pages p).numaNode, (s.pages p).mobility⟩ (s.pages p).order
  bitmap : ∀ z, ∀ o < 32, (s.zones z).activeOrders.getLsbD o = true ↔ g.free z o ≠ []
  total : ∀ z, ((s.zones z).totalFree : Int) = freeSum g.free z + g.debt z
  pcpOk : ∀ z cpu o l, s.pcpList z cpu o = some l → l.Ok

section Primitives

variable {F : Set Nat} {s : State} {g : Ghost}
variable {s' : State} {g' : Ghost} {z : ZoneId} {o p cpu : Nat} {H : List Block} {l : PcpList}
  {queue : List Nat}

theorem SameCaches.pcpList {s : State} (h : State.SameCaches s s') (z : ZoneId) (cpu o : Nat) :
    s'.pcpList z cpu o = s.pcpList z cpu o := by
  simp only [State.pcpList, (h z).1]

/-- A descriptor write moves no deferred block if it leaves their orders alone. -/
theorem shelf_deferred_congr (h : State.SameCaches s s')
    (hpages : ∀ p ∈ (s.zones z).deferredFrees, (s'.pages p).order = (s.pages p).order) :
    shelf s' g' (.deferred z) = shelf s g (.deferred z) := by
  simp only [shelf, (h z).2]
  apply List.map_congr_left
  intro p hp
  rw [hpages p hp]

theorem shelf_pcp_congr (h : State.SameCaches s s') (z : ZoneId) (cpu o : Nat) :
    shelf s' g' (.pcp z cpu o) = shelf s g (.pcp z cpu o) := by
  simp only [shelf, SameCaches.pcpList h]

theorem mem_shelf_free (hp : p ∈ g.free z o) : (⟨p, o⟩ : Block) ∈ shelf s g (.free z o) := by
  simpa [shelf] using hp

theorem mem_shelf_deferred (hp : p ∈ (s.zones z).deferredFrees) :
    (⟨p, (s.pages p).order⟩ : Block) ∈ shelf s g (.deferred z) := by
  simp only [shelf, List.mem_map]
  exact ⟨p, hp, rfl⟩

/-- A block in somebody's hands is on no free list. -/
theorem Inv.held_not_free (h : Inv F s g) {b : Block} (hb : b ∈ g.held) (z : ZoneId) (o : Nat) :
    b.base ∉ g.free z o := by
  intro hmem
  exact h.shelved.base_ne (show Place.held ≠ .free z o by simp) hb (mem_shelf_free hmem) rfl

/-- So its descriptor does not say `Free`. -/
theorem Inv.held_state (h : Inv F s g) {b : Block} (hb : b ∈ g.held) (hstale : g.stale = none) :
    (s.pages b.base).state ≠ .free := fun hfree =>
  h.held_not_free hb _ _ (h.unmarked b.base hfree (by simp [hstale]))

theorem Inv.held_not_deferred (h : Inv F s g) {b : Block} (hb : b ∈ g.held) (z : ZoneId) :
    b.base ∉ (s.zones z).deferredFrees := by
  intro hmem
  exact h.shelved.base_ne (show Place.held ≠ .deferred z by simp) hb (mem_shelf_deferred hmem) rfl

/-- No descriptor is on two free lists. -/
theorem Inv.free_unique (h : Inv F s g) {z' : ZoneId} {o' : Nat} (hp : p ∈ g.free z o)
    (hp' : p ∈ g.free z' o') : z = z' ∧ o = o' := by
  have h₁ := h.marked z o p hp
  have h₂ := h.marked z' o' p hp'
  rw [h₁] at h₂
  simp only [Page.mk.injEq, true_and] at h₂
  obtain ⟨hm, ho, hn⟩ := h₂
  cases z
  cases z'
  exact ⟨by simp_all, ho⟩

theorem Inv.order_le (h : Inv F s g) (hne : g.free z o ≠ []) : o ≤ maxOrder := by
  obtain ⟨p, hp⟩ := List.exists_mem_of_ne_nil _ hne
  exact h.shelved.order_le (mem_shelf_free hp)

/-- The pages on the free lists after one list has changed. -/
theorem freeSum_setFree (g : Ghost) (z z' : ZoneId) (ho : o ≤ maxOrder) (l : List Nat) :
    freeSum (g.setFree z o l).free z' + (if z' = z then 2 ^ o * (g.free z o).length else 0) =
      freeSum g.free z' + (if z' = z then 2 ^ o * l.length else 0) := by
  unfold freeSum
  by_cases hz : z' = z
  · subst hz
    have hmem : o ∈ Finset.range (maxOrder + 1) := Finset.mem_range.2 (Nat.lt_succ_of_le ho)
    rw [← Finset.add_sum_erase _ _ hmem, ← Finset.add_sum_erase _ (fun o' => 2 ^ o' * _) hmem]
    have hrest : ∑ o' ∈ (Finset.range (maxOrder + 1)).erase o,
        2 ^ o' * ((g.setFree z' o l).free z' o').length =
        ∑ o' ∈ (Finset.range (maxOrder + 1)).erase o, 2 ^ o' * (g.free z' o').length := by
      apply Finset.sum_congr rfl
      intro o' ho'
      simp [Finset.ne_of_mem_erase ho']
    rw [hrest]
    simp
    ring
  · simp [hz]

/-- What leaves or joins a free list is owed to the counter until it is settled. -/
theorem freeSum_add_debt (g : Ghost) (z z' : ZoneId) (ho : o ≤ maxOrder) (l : List Nat) (n : Int)
    (hn : 2 ^ o * (l.length : Int) = 2 ^ o * (g.free z o).length + n) :
    (freeSum ((g.setFree z o l).addDebt z (-n)).free z' : Int) +
        ((g.setFree z o l).addDebt z (-n)).debt z' = freeSum g.free z' + g.debt z' := by
  have hsum := congrArg (Nat.cast (R := Int)) (freeSum_setFree g z z' ho l)
  show (freeSum (g.setFree z o l).free z' : Int) + update g.debt z (g.debt z + -n) z' = _
  by_cases hz : z' = z
  · subst hz
    simp only [if_true, Nat.cast_add, Nat.cast_mul, Nat.cast_pow, Nat.cast_ofNat] at hsum
    rw [update_self]
    linarith
  · simp only [hz, if_false, Nat.add_zero] at hsum
    rw [update_of_ne hz, hsum]

/-- A zone whose area of one order changes keeps the others, and so does every other zone. -/
theorem areas_of_ne {z' : ZoneId} {o' : Nat} {active : BitVec 32} {area : FreeArea}
    (hz : ¬ (z' = z ∧ o' = o)) :
    (if z' = z then
      { s.zones z with activeOrders := active, areas := update (s.zones z).areas o area }
      else s.zones z').areas o' = (s.zones z').areas o' := by
  by_cases hz' : z' = z
  · subst hz'
    have : o' ≠ o := fun heq => hz ⟨rfl, heq⟩
    simp [this]
  · simp [hz']

variable (h : Inv F s g)
include h

/-- **Linking** a block that is in hand, at either end of a list. -/
theorem Inv.place {e : Ends Nat} {l : List Nat} (hheld : g.held.Perm (⟨p, o⟩ :: H))
    (hstale : g.stale ≠ some p)
    (hpages : s'.pages = update s.pages p ⟨.free, z.mobility, o, z.node⟩)
    (hzones : ∀ z', s'.zones z' = if z' = z then
      { s.zones z with
        activeOrders := (s.zones z).activeOrders ||| (1#32 <<< o)
        areas := update (s.zones z).areas o ⟨e, ((s.zones z).areas o).nrFree + 1⟩ }
      else s.zones z') (hl : l.Perm (p :: g.free z o)) (hchain : IsDList s'.links e l)
    (hsame : ∀ y, y ≠ p → y ∉ g.free z o → Links.SameAt s.links s'.links y) :
    Inv F s' ((({ g with held := H } : Ghost).setFree z o l).addDebt z (-(2 ^ o))) := by
  have hmem : (⟨p, o⟩ : Block) ∈ g.held := hheld.mem_iff.2 (by simp)
  have hnf : ∀ z' o', p ∉ g.free z' o' := h.held_not_free hmem
  have hnd : ∀ z', p ∉ (s.zones z').deferredFrees := h.held_not_deferred hmem
  have ho : o ≤ maxOrder := h.shelved.order_le (c := .held) hmem
  have hcaches : State.SameCaches s s' := by
    intro z'
    rw [hzones]
    by_cases hz : z' = z <;> simp [hz]
  have hother : ∀ q, q ≠ p → s'.pages q = s.pages q := by
    intro q hq
    rw [hpages, update_of_ne hq]
  refine ⟨?_, ?_, ?_, ?_, ?_, ?_, ?_, ?_⟩
  · refine h.shelved.move (c := .held) (d := .free z o) (by simp) hheld ?_ ?_ ?_
    · simp [shelf, Ghost.setFree, addDebt]
    · simpa [shelf, addDebt] using hl.map fun q => (⟨q, o⟩ : Block)
    · intro c hc hc'
      cases c with
      | held => exact absurd rfl hc
      | free z' o' =>
        have hne : ¬ (z' = z ∧ o' = o) := fun heq => hc' (by rw [heq.1, heq.2])
        simp [shelf, addDebt, hne]
      | pcp z' cpu o' => rw [shelf_pcp_congr hcaches]
      | deferred z' =>
        rw [shelf_deferred_congr hcaches fun q hq => by
          rw [hother q fun heq => hnd z' (heq ▸ hq)]]
  · intro z' o'
    rw [hzones]
    by_cases hz : z' = z ∧ o' = o
    · obtain ⟨rfl, rfl⟩ := hz
      simpa [addDebt] using hchain
    · rw [areas_of_ne hz]
      simp only [addDebt, setFree_free, if_neg hz]
      refine (h.chain z' o').congr fun y hy => hsame y (fun heq => hnf z' o' (heq ▸ hy)) ?_
      intro hy'
      obtain ⟨rfl, rfl⟩ := h.free_unique hy hy'
      exact hz ⟨rfl, rfl⟩
  · intro z' o'
    rw [hzones]
    have hc := h.count z' o'
    by_cases hz' : z' = z
    · subst hz'
      by_cases ho' : o' = o
      · subst ho'
        simp [addDebt, hc, hl.length_eq]
      · simp [addDebt, ho', hc]
    · simp [addDebt, hz', hc]
  · intro z' o' q hq
    simp only [addDebt, setFree_free] at hq
    by_cases hqp : q = p
    · subst hqp
      have hz : z' = z ∧ o' = o := by
        by_contra hne
        rw [if_neg hne] at hq
        exact hnf z' o' hq
      rw [hpages, update_self, hz.1, hz.2]
    · rw [hother q hqp]
      apply h.marked
      split at hq
      · rename_i hz
        rw [hz.1, hz.2]
        exact (List.mem_cons.1 (hl.mem_iff.1 hq)).resolve_left hqp
      · exact hq
  · intro q hfree hq
    by_cases hqp : q = p
    · subst hqp
      simp [hpages, addDebt, hl.mem_iff]
    · rw [hother q hqp] at hfree ⊢
      have hold := h.unmarked q hfree hq
      simp only [addDebt, setFree_free]
      split
      · rename_i hz
        rw [hz.1, hz.2] at hold
        exact hl.mem_iff.2 (List.mem_cons_of_mem _ hold)
      · exact hold
  · intro z' o' ho'
    rw [hzones]
    by_cases hz : z' = z
    · subst hz
      simp only [if_true, addDebt, setFree_free, true_and]
      rw [getLsbD_set ho']
      by_cases hoo : o' = o
      · have hne : l ≠ [] := List.ne_nil_of_mem (hl.mem_iff.2 (List.mem_cons_self (a := p)))
        simp [hoo, hne]
      · simpa [hoo] using h.bitmap z' o' ho'
    · simpa [hz, addDebt] using h.bitmap z' o' ho'
  · intro z'
    have hdebt := freeSum_add_debt { g with held := H } z z' ho l (2 ^ o)
      (by rw [hl.length_eq]; push_cast [List.length_cons]; ring)
    rw [hdebt, ← h.total z', hzones]
    by_cases hz : z' = z <;> simp [hz]
  · intro z' cpu o' l' hl'
    rw [SameCaches.pcpList hcaches] at hl'
    exact h.pcpOk z' cpu o' l' hl'

theorem Inv.link (z : ZoneId) (hheld : g.held.Perm (⟨p, o⟩ :: H)) (hstale : g.stale ≠ some p) :
    Inv F (s.linkFree z o p)
      ((({ g with held := H } : Ghost).setFree z o (p :: g.free z o)).addDebt z (-(2 ^ o))) := by
  have hp : p ∉ g.free z o := h.held_not_free (b := ⟨p, o⟩) (hheld.mem_iff.2 (by simp)) z o
  refine h.place hheld hstale (s.linkFree_pages z o p) (fun z' => s.linkFree_zones z z' o p)
    (.refl _) (DList.pushFront_isDList (h.chain z o) hp) fun y hyp hy => ?_
  apply DList.pushFront_sameAt hyp
  intro hhead
  exact hy (List.mem_of_head? ((h.chain z o).head_eq.symm.trans hhead))

/-- **Unlinking** a block from the list it is on. Its descriptor still says `Free`. -/
theorem Inv.unlink {l₁ l₂ : List Nat} (hfree : g.free z o = l₁ ++ p :: l₂)
    (hstale : g.stale = none) :
    Inv F (s.removeFree z o p)
      ((({ g with held := ⟨p, o⟩ :: g.held, stale := some p } : Ghost).setFree z o
        (l₁ ++ l₂)).addDebt z (-(-(2 ^ o)))) := by
  have hp : p ∈ g.free z o := by simp [hfree]
  have hchain := h.chain z o
  rw [hfree] at hchain
  have ho : o ≤ maxOrder := h.shelved.order_le (mem_shelf_free hp)
  have hcaches := s.removeFree_sameCaches z o p
  have hpages := s.removeFree_pages z o p
  have hlen : (g.free z o).length = (l₁ ++ l₂).length + 1 := by
    rw [hfree]
    simp
    omega
  have hpl : p ∉ l₁ ++ l₂ := by
    have hnd := hchain.nodup
    rw [(List.perm_middle).nodup_iff, List.nodup_cons] at hnd
    exact hnd.1
  refine ⟨?_, ?_, ?_, ?_, ?_, ?_, ?_, ?_⟩
  · refine h.shelved.move (c := .free z o) (d := .held) (b := ⟨p, o⟩)
      (l := (l₁ ++ l₂).map (⟨·, o⟩)) (by simp) ?_ ?_ ?_ ?_
    · simp only [shelf, hfree, List.map_append, List.map_cons]
      exact List.perm_middle
    · simp [shelf, addDebt]
    · simp [shelf, addDebt, Ghost.setFree]
    · intro e he he'
      cases e with
      | held => exact absurd rfl he'
      | free z' o' =>
        have hne : ¬ (z' = z ∧ o' = o) := fun heq => he (by rw [heq.1, heq.2])
        simp [shelf, addDebt, hne]
      | pcp z' cpu o' => rw [shelf_pcp_congr hcaches]
      | deferred z' => rw [shelf_deferred_congr hcaches fun q _ => by rw [hpages]]
  · intro z' o'
    rw [State.removeFree_links, State.removeFree_zones]
    by_cases hz : z' = z ∧ o' = o
    · obtain ⟨rfl, rfl⟩ := hz
      simpa [addDebt] using DList.unlink_isDList hchain
    · rw [areas_of_ne hz]
      simp only [addDebt, setFree_free, if_neg hz]
      refine (h.chain z' o').congr fun y hy => ?_
      apply DList.unlink_sameAt (h.chain z o) hp
      intro hy'
      obtain ⟨rfl, rfl⟩ := h.free_unique hy hy'
      exact hz ⟨rfl, rfl⟩
  · intro z' o'
    rw [State.removeFree_zones]
    have hc := h.count z' o'
    by_cases hz' : z' = z
    · subst hz'
      by_cases ho' : o' = o
      · subst ho'
        simp only [if_true, update_self, addDebt, setFree_free, and_self]
        omega
      · simp [addDebt, ho', hc]
    · simp [addDebt, hz', hc]
  · intro z' o' q hq
    rw [hpages]
    apply h.marked
    simp only [addDebt, setFree_free] at hq
    split at hq
    · rename_i hz
      rw [hz.1, hz.2, hfree]
      rcases List.mem_append.1 hq with hq | hq
      · simp [hq]
      · simp [hq]
    · exact hq
  · intro q hq hne
    rw [hpages] at hq ⊢
    have hqp : q ≠ p := fun heq => hne (by rw [heq]; rfl)
    have hold := h.unmarked q hq (by rw [hstale]; simp)
    simp only [addDebt, setFree_free]
    split
    · rename_i hz
      rw [hz.1, hz.2, hfree] at hold
      simp only [List.mem_append, List.mem_cons] at hold ⊢
      rcases hold with hold | hold | hold
      · exact .inl hold
      · exact absurd hold hqp
      · exact .inr hold
    · exact hold
  · intro z' o' ho'
    rw [State.removeFree_zones]
    have hbit := h.bitmap z' o' ho'
    by_cases hz : z' = z
    · subst hz
      have hcount := h.count z' o
      simp only [if_true, addDebt, setFree_free, true_and]
      by_cases hempty : ((s.zones z').areas o).nrFree - 1 = 0
      · have hnil : l₁ ++ l₂ = [] := List.length_eq_zero_iff.1 (by omega)
        rw [if_pos hempty, getLsbD_clear ho']
        by_cases hoo : o' = o
        · simp [hoo, hnil]
        · simpa [hoo] using hbit
      · have hne : l₁ ++ l₂ ≠ [] := fun hnil => hempty (by rw [hcount, hlen, hnil]; rfl)
        rw [if_neg hempty]
        by_cases hoo : o' = o
        · subst hoo
          simp only [if_true]
          rw [hbit]
          exact iff_of_true (List.ne_nil_of_mem hp) hne
        · simpa [hoo] using hbit
    · simpa [hz, addDebt] using hbit
  · intro z'
    have hdebt := freeSum_add_debt { g with held := ⟨p, o⟩ :: g.held, stale := some p } z z' ho
      (l₁ ++ l₂) (-(2 ^ o)) (by simp only [hlen]; push_cast; ring)
    rw [hdebt, ← h.total z', State.removeFree_zones]
    by_cases hz : z' = z <;> simp [hz]
  · intro z' cpu o' l hl
    rw [SameCaches.pcpList hcaches] at hl
    exact h.pcpOk z' cpu o' l hl

/-- `pop_hot` unlinks the first block. -/
theorem Inv.popFree_eq {l : List Nat} (hfree : g.free z o = p :: l) :
    s.popFree z o = some (p, s.removeFree z o p) := by
  have hchain := h.chain z o
  rw [hfree] at hchain
  simp only [State.popFree, FreeArea.popHot, DList.popFront_eq hchain, State.removeFree,
    FreeArea.remove]

/-- **Marking** a block that is in hand with anything but `Free`. -/
theorem Inv.mark {d : Page} (hheld : ∃ b ∈ g.held, b.base = p) (hd : d.state ≠ .free)
    (hstale : g.stale = none ∨ g.stale = some p) :
    Inv F (s.setPage p d) { g with stale := none } := by
  obtain ⟨b, hb, rfl⟩ := hheld
  have hnf := h.held_not_free hb
  have hnd := h.held_not_deferred hb
  have hcaches := s.setPage_sameCaches b.base d
  refine ⟨?_, h.chain, h.count, ?_, ?_, h.bitmap, h.total, ?_⟩
  · refine h.shelved.congr fun c => ?_
    cases c with
    | held => exact .refl _
    | free z o => exact .refl _
    | pcp z cpu o => rw [shelf_pcp_congr hcaches]
    | deferred z =>
      rw [shelf_deferred_congr hcaches]
      intro q hq
      have hne : q ≠ b.base := fun heq => hnd z (heq ▸ hq)
      rw [State.setPage_pages, update_of_ne hne]
  · intro z o q hq
    have hne : q ≠ b.base := fun heq => hnf z o (heq ▸ hq)
    rw [State.setPage_pages, update_of_ne hne]
    exact h.marked z o q hq
  · intro q hq _
    by_cases hqb : q = b.base
    · subst hqb
      rw [State.setPage_pages, update_self] at hq
      exact absurd hq hd
    · rw [State.setPage_pages, update_of_ne hqb] at hq ⊢
      refine h.unmarked q hq ?_
      rcases hstale with hstale | hstale
      · simp [hstale]
      · simpa [hstale] using fun heq => hqb heq.symm
  · intro z cpu o l hl
    rw [SameCaches.pcpList hcaches] at hl
    exact h.pcpOk z cpu o l hl

/-- Only what is in hand changes. -/
theorem Inv.regroup (hshelved : Shelved F maxOrder (shelf s { g with held := H })) :
    Inv F s { g with held := H } :=
  ⟨hshelved, h.chain, h.count, h.marked, h.unmarked, h.bitmap, h.total, h.pcpOk⟩

omit h

theorem shelf_held_ne {c : Place} (hc : c ≠ .held) :
    shelf s { g with held := H } c = shelf s g c := by
  cases c with
  | held => exact absurd rfl hc
  | free z o => rfl
  | pcp z cpu o => rfl
  | deferred z => rfl

theorem Inv.permHeld (h : Inv F s g) (hperm : g.held.Perm H) : Inv F s { g with held := H } := by
  refine h.regroup (h.shelved.congr fun c => ?_)
  by_cases hc : c = .held
  · subst hc
    exact hperm.symm
  · rw [shelf_held_ne hc]

theorem Inv.splitHeld (h : Inv F s g) (hheld : g.held.Perm (⟨p, o + 1⟩ :: H)) :
    Inv F s { g with held := ⟨p, o⟩ :: ⟨p + 2 ^ o, o⟩ :: H } :=
  h.regroup (h.shelved.split (c := .held) hheld (.refl _) fun c hc => by
    rw [shelf_held_ne hc])

theorem Inv.mergeHeld (h : Inv F s g) (ho : o < maxOrder)
    (hheld : g.held.Perm (⟨p, o⟩ :: ⟨p ^^^ 2 ^ o, o⟩ :: H)) :
    Inv F s { g with held := ⟨min p (p ^^^ 2 ^ o), o + 1⟩ :: H } :=
  h.regroup (h.shelved.merge (c := .held) ho hheld (.refl _) fun c hc => by
    rw [shelf_held_ne hc])

/-! ### The caches and the counter -/

theorem setPcp_pcpList (s : State) (z z' : ZoneId) (cpu cpu' o o' : Nat) (l : PcpList) :
    (s.setPcp z cpu o l).pcpList z' cpu' o' = if z' = z ∧ cpu' = cpu ∧
    o' = o then (s.pcpList z cpu o).map fun _ => l else s.pcpList z' cpu' o' := by
  simp only [State.pcpList, State.setPcp, State.modifyZone_zones]
  by_cases hz : z' = z
  · subst hz
    cases hcache : (s.zones z').pcpCache with
    | none => simp
    | some cache =>
      by_cases hc : cpu' = cpu
      · subst hc
        by_cases ho : o' = o <;> simp [ho]
      · simp [hc]
  · simp [hz]

theorem setPcp_zones (s : State) (z z' : ZoneId) (cpu o : Nat) (l : PcpList) :
    ((s.setPcp z cpu o l).zones z').areas = (s.zones z').areas ∧
      ((s.setPcp z cpu o l).zones z').activeOrders = (s.zones z').activeOrders ∧
      ((s.setPcp z cpu o l).zones z').totalFree = (s.zones z').totalFree ∧
      ((s.setPcp z cpu o l).zones z').deferredFrees = (s.zones z').deferredFrees := by
  simp only [State.setPcp, State.modifyZone_zones]
  by_cases hz : z' = z <;> simp [hz]

/-- A step that leaves the free lists and the descriptors alone. -/
theorem Inv.frame (h : Inv F s g) (hpages : s'.pages = s.pages) (hlinks : s'.links = s.links)
    (hzones : ∀ z, (s'.zones z).areas = (s.zones z).areas ∧
      (s'.zones z).activeOrders = (s.zones z).activeOrders)
      (hfree : g'.free = g.free) (hstale : g'.stale = g.stale)
    (hshelved : Shelved F maxOrder (shelf s' g'))
    (htotal : ∀ z, ((s'.zones z).totalFree : Int) = freeSum g.free z + g'.debt z)
    (hpcp : ∀ z cpu o l, s'.pcpList z cpu o = some l → l.Ok) : Inv F s' g' where
  shelved := hshelved
  chain z o := by
    rw [hlinks, (hzones z).1, hfree]
    exact h.chain z o
  count z o := by
    rw [(hzones z).1, hfree]
    exact h.count z o
  marked z o p hp := by
    rw [hpages]
    exact h.marked z o p (hfree ▸ hp)
  unmarked p := by
    rw [hpages, hfree, hstale]
    exact h.unmarked p
  bitmap z o ho := by
    rw [(hzones z).2, hfree]
    exact h.bitmap z o ho
  total z := by
    rw [hfree]
    exact htotal z
  pcpOk := hpcp

/-- Storing a per-CPU list, given that all blocks still tile. -/
theorem Inv.storePcp (h : Inv F s g) (hl : l.Ok)
    (hshelved : Shelved F maxOrder (shelf (s.setPcp z cpu o l) { g with held := H })) :
    Inv F (s.setPcp z cpu o l) { g with held := H } := by
  have hzones := fun z' => setPcp_zones s z z' cpu o l
  refine h.frame rfl rfl (fun z' => ⟨(hzones z').1, (hzones z').2.1⟩) rfl rfl hshelved ?_ ?_
  · intro z'
    rw [(hzones z').2.2.1]
    exact h.total z'
  · intro z' cpu' o' l' hl'
    rw [setPcp_pcpList] at hl'
    split at hl'
    · cases hold : s.pcpList z cpu o with
      | none => simp [hold] at hl'
      | some l₀ =>
        simp only [hold, Option.map_some, Option.some.injEq] at hl'
        exact hl' ▸ hl
    · exact h.pcpOk z' cpu' o' l' hl'

theorem shelf_setPcp {l' : PcpList} (hl : s.pcpList z cpu o = some l) (c : Place) (hc : c ≠ .held) :
    shelf (s.setPcp z cpu o l') { g with held := H } c =
      if c = .pcp z cpu o then l'.toList.map (⟨·, o⟩) else shelf s g c := by
  cases c with
  | held => exact absurd rfl hc
  | free z' o' => rfl
  | deferred z' =>
    simp only [shelf, (setPcp_zones s z z' cpu o l').2.2.2]
    rfl
  | pcp z' cpu' o' =>
    simp only [shelf, setPcp_pcpList, Place.pcp.injEq]
    split
    · rename_i heq
      simp [heq, hl]
    · rfl

theorem shelf_pcp (hl : s.pcpList z cpu o = some l) :
    shelf s g (.pcp z cpu o) = l.toList.map (⟨·, o⟩) := by
  simp [shelf, hl]

/-- A block in hand goes into a per-CPU list. -/
theorem Inv.pcpPush (h : Inv F s g) (hl : s.pcpList z cpu o = some l)
    (hroom : l.count < PcpList.maxCapacity)
    (hheld : g.held.Perm (⟨p, o⟩ :: H)) :
    Inv F (s.setPcp z cpu o (l.pushHot p)) { g with held := H } := by
  obtain ⟨hok, hlist⟩ := (h.pcpOk z cpu o l hl).pushHot hroom p
  refine h.storePcp hok
    (h.shelved.move (c := .held) (d := .pcp z cpu o) (by simp) hheld (.refl _) ?_ ?_)
  · rw [shelf_setPcp hl _ (by simp), if_pos rfl, hlist, shelf_pcp hl, List.map_append]
    exact List.perm_append_singleton _ _
  · intro e he he'
    rw [shelf_setPcp hl e he, if_neg he']

/-- A block comes out of a per-CPU list, at either end. -/
theorem Inv.pcpPop (h : Inv F s g) {l' : PcpList} (hl : s.pcpList z cpu o = some l) (hok : l'.Ok)
    (hlist : l.toList.Perm (p :: l'.toList)) :
    Inv F (s.setPcp z cpu o l') { g with held := ⟨p, o⟩ :: g.held } := by
  refine h.storePcp hok (h.shelved.move (c := .pcp z cpu o) (d := .held)
    (l := l'.toList.map (⟨·, o⟩)) (by simp) ?_ ?_ (.refl _) ?_)
  · rw [shelf_pcp hl]
    exact hlist.map fun q => (⟨q, o⟩ : Block)
  · rw [shelf_setPcp hl _ (by simp), if_pos rfl]
  · intro e he he'
    rw [shelf_setPcp hl e he', if_neg he]

/-- Storing a deferred-free queue, given that all blocks still tile. -/
theorem Inv.storeDeferred (h : Inv F s g) (hshelved : Shelved F maxOrder
      (shelf (s.modifyZone z fun zone => { zone with deferredFrees := queue })
        { g with held := H })) :
    Inv F (s.modifyZone z fun zone => { zone with deferredFrees := queue })
      { g with held := H } := by
  refine h.frame rfl rfl ?_ rfl rfl hshelved ?_ ?_
  · intro z'
    by_cases hz : z' = z <;> simp [hz]
  · intro z'
    rw [← h.total z']
    by_cases hz : z' = z <;> simp [hz]
  · intro z' cpu o l hl
    refine h.pcpOk z' cpu o l ?_
    by_cases hz : z' = z <;> simpa [State.pcpList, hz] using hl

theorem shelf_storeDeferred (c : Place) (hc : c ≠ .held) :
    shelf (s.modifyZone z fun zone => { zone with deferredFrees := queue }) { g with held := H } c =
      if c = .deferred z then queue.map fun p => ⟨p, (s.pages p).order⟩ else shelf s g c := by
  cases c with
  | held => exact absurd rfl hc
  | free z' o' => rfl
  | pcp z' cpu o => by_cases hz : z' = z <;> simp [shelf, State.pcpList, hz]
  | deferred z' => by_cases hz : z' = z <;> simp [shelf, hz]

/-- A block in hand goes onto the queue; its order travels in the descriptor. -/
theorem Inv.deferredPush (h : Inv F s g) (hheld : g.held.Perm (⟨p, o⟩ :: H))
    (horder : (s.pages p).order = o) : Inv F (s.modifyZone z fun zone =>
        { zone with deferredFrees := (s.zones z).deferredFrees ++ [p] }) { g with held := H } := by
  refine h.storeDeferred
    (h.shelved.move (c := .held) (d := .deferred z) (by simp) hheld (.refl _) ?_ ?_)
  · rw [shelf_storeDeferred _ (by simp), if_pos rfl, List.map_append]
    simp only [List.map_cons, List.map_nil, horder]
    exact List.perm_append_singleton _ _
  · intro e he he'
    rw [shelf_storeDeferred e he, if_neg he']

/-- The oldest block comes off the queue. -/
theorem Inv.deferredPop (h : Inv F s g) (hqueue : (s.zones z).deferredFrees = p :: queue) :
    Inv F (s.modifyZone z fun zone => { zone with deferredFrees := queue })
      { g with held := ⟨p, (s.pages p).order⟩ :: g.held } := by
  refine h.storeDeferred (h.shelved.move (c := .deferred z) (d := .held)
    (l := queue.map fun p => ⟨p, (s.pages p).order⟩) (by simp) ?_ ?_ (.refl _) ?_)
  · simp [shelf, hqueue]
  · rw [shelf_storeDeferred _ (by simp), if_pos rfl]
  · intro e he he'
    rw [shelf_storeDeferred e he', if_neg he]

/-- Settling the counter of one zone. -/
theorem Inv.settle (h : Inv F s g) {n : Nat} {d : Int}
    (hn : (n : Int) = (s.zones z).totalFree + d) :
    Inv F (s.modifyZone z fun zone => { zone with totalFree := n }) (g.addDebt z d) := by
  refine h.frame rfl rfl ?_ rfl rfl (h.shelved.congr fun c => ?_) ?_ ?_
  · intro z'
    by_cases hz : z' = z <;> simp [hz]
  · cases c with
    | held => exact .refl _
    | free z' o => exact .refl _
    | pcp z' cpu o => by_cases hz : z' = z <;> simp [shelf, State.pcpList, hz]
    | deferred z' => by_cases hz : z' = z <;> simp [shelf, hz]
  · intro z'
    have ht := h.total z'
    show _ = _ + update g.debt z (g.debt z + d) z'
    by_cases hz : z' = z
    · subst hz
      rw [update_self, State.modifyZone_zones, if_pos rfl]
      linarith
    · rw [update_of_ne hz, State.modifyZone_zones, if_neg hz]
      exact ht
  · intro z' cpu o l hl
    refine h.pcpOk z' cpu o l ?_
    by_cases hz : z' = z <;> simpa [State.pcpList, hz] using hl

end Primitives

end Erebus.Pmm
