import Erebus.Memory.Pmm.Operations

/-!
# Whole runs of the physical memory manager

Boot hands disjoint aligned blocks to the zones; after that any calls on any zones of any nodes
follow in any order, with one rule for the callers: a block is freed with the order it was handed
out with.

* `Run cfg caches blocks s H`: the state `s` and the blocks `H` that are out, after some such run.
* `run_frames_accounted`: the invariant in the words of the data structures.
-/

namespace Erebus.Pmm

open State

open Buddy (Block Shelved Tiling Ledger)
open DList (Links)

/-! ## Boot -/

namespace State

/-- The zones before boot has handed them memory: their per-CPU lists are attached. -/
def empty (caches : ZoneId → Option (Nat → Nat → PcpList)) : State :=
  { zones := fun z => { pcpCache := caches z } }

/-- Boot hands the blocks over one by one. -/
def injectAll (s : State) : List (ZoneId × Block) → State
  | [] => s
  | (z, b) :: rest => (s.injectFreePageCold z b.base b.order).injectAll rest

end State

/-- The frames boot hands over. -/
def injected (blocks : List (ZoneId × Block)) : Set Nat :=
  {f | ∃ e ∈ blocks, f ∈ e.2}

/-- What boot guarantees: pairwise disjoint aligned blocks of the allocator's orders, and per-CPU
lists that are empty and tuned. -/
structure Boot (caches : ZoneId → Option (Nat → Nat → PcpList))
    (blocks : List (ZoneId × Block)) : Prop where
  apart : (blocks.map Prod.snd).Pairwise Block.Apart
  aligned : ∀ e ∈ blocks, e.2.Aligned
  order_le : ∀ e ∈ blocks, e.2.order ≤ maxOrder
  tuned : ∀ z cache, caches z = some cache → ∀ cpu o, (cache cpu o).Ok ∧ (cache cpu o).count = 0

variable {caches : ZoneId → Option (Nat → Nat → PcpList)} {blocks : List (ZoneId × Block)}
variable {F : Set Nat} {s : State} {H : List Block}

/-- Before anything is injected all blocks are in boot's hands. -/
theorem empty_inv
    (hboot : Boot caches blocks) : Inv (injected blocks) (empty caches)
      ⟨fun _ _ => [], blocks.map Prod.snd, none, fun _ => 0⟩ where
  shelved := by
    refine ⟨(blocks.map Prod.snd).map fun b => (Place.held, b), fun c => ?_, ?_⟩
    · cases c with
      | held => simp [shelf, List.filter_map, Function.comp_def]
      | free z o => simp [shelf, List.filter_map, Function.comp_def]
      | deferred z => simp [shelf, empty, List.filter_map, Function.comp_def]
      | pcp z cpu o =>
        cases hcache : caches z with
        | none => simp [shelf, empty, pcpList, hcache, List.filter_map, Function.comp_def]
        | some cache =>
          have hzero := (hboot.tuned z cache hcache cpu o).2
          simp [shelf, empty, pcpList, hcache, List.filter_map, Function.comp_def,
            PcpList.toList, hzero]
    · have hmap : ((blocks.map Prod.snd).map fun b => (Place.held, b)).map Prod.snd =
          blocks.map Prod.snd := by simp [Function.comp_def]
      rw [hmap]
      refine ⟨?_, ?_, hboot.apart, ?_⟩
      · simpa using fun b z hb => hboot.aligned (z, b) hb
      · simpa using fun b z hb => hboot.order_le (z, b) hb
      · intro f
        simp only [injected, Set.mem_ofPred_eq, List.mem_map]
        constructor
        · rintro ⟨e, he, hf⟩
          exact ⟨e.2, ⟨e, he, rfl⟩, hf⟩
        · rintro ⟨b, ⟨e, he, rfl⟩, hf⟩
          exact ⟨e, he, hf⟩
  chain _ _ := DList.isDList_nil _
  count _ _ := rfl
  marked _ _ _ hp := by simp at hp
  unmarked p hp := by simp [empty] at hp
  bitmap z o _ := by simp [empty]
  total z := by simp [empty, freeSum]
  pcpOk z cpu o l hl := by
    simp only [empty, pcpList] at hl
    cases hcache : caches z with
    | none => simp [hcache] at hl
    | some cache =>
      simp only [hcache, Option.map_some, Option.some.injEq] at hl
      exact hl ▸ (hboot.tuned z cache hcache cpu o).1

/-- One injection: from boot's hands to the cold end of a free list. -/
theorem inject_ok {b : Block} (z : ZoneId)
    (h : Settled F s (b :: H)) : Settled F (s.injectFreePageCold z b.base b.order) H := by
  obtain ⟨free, hinv⟩ := h
  have hp : b.base ∉ free z b.order := hinv.held_not_free (b := b) (by simp) z b.order
  let s₁ := ((s.setPage b.base ⟨.free, z.mobility, b.order, z.node⟩).setArea z b.order
    (((s.zones z).areas b.order).pushCold s.links b.base)).modifyZone z (·.setOrderActive b.order)
  have hplaced := hinv.place (p := b.base) (o := b.order) (z := z) (.refl _) (by simp)
    (show s₁.pages = _ from rfl) (fun z' => by
      by_cases hz : z' = z <;> simp [s₁, hz, FreeArea.pushCold, MobilityZone.setOrderActive])
    (List.perm_append_singleton _ _) (DList.pushBack_isDList (hinv.chain z b.order) hp)
    (fun y hyp hy => by
      apply DList.pushBack_sameAt hyp
      intro htail
      exact hy (List.mem_of_getLast? ((hinv.chain z b.order).tail_eq.symm.trans htail)))
  refine (addFreePages_ok hplaced).settled rfl (.refl _) ?_
  refine Owes.settles (g := ⟨free, b :: H, none, fun _ => 0⟩) (n := -(2 ^ b.order)) rfl rfl ?_
  push_cast
  ring

theorem injectAll_ok {F : Set Nat} :
    ∀ (blocks : List (ZoneId × Block)) {s : State}, Settled F s (blocks.map Prod.snd) →
      Settled F (s.injectAll blocks) [] := by
  intro blocks
  induction blocks with
  | nil => exact fun h => h
  | cons e rest ih => exact fun h => ih (inject_ok e.1 h)

/-! ## Calls -/

/-- One call on the allocator. -/
inductive Op where
  | allocPages (z : ZoneId) (cpu order : Nat)
  | allocPagesLocked (z : ZoneId) (order : Nat)
  | nodeAllocPages (z : ZoneId) (cpu order : Nat)
  | freePage (z : ZoneId) (cpu page order : Nat)
  | batchRefillPcp (z : ZoneId) (cpu order : Nat)
  | batchDrainPcp (z : ZoneId) (cpu order : Nat)
  | flushDeferredFrees (z : ZoneId)
  | extractLargestBlockForSteal (z : ZoneId) (minOrder : Nat)
  | adoptStolenBlock (z : ZoneId) (block blockOrder requestedOrder : Nat)
  | tunePcp (z : ZoneId)

namespace Op

/-- The callers' side: what is freed or adopted is out with exactly that order, a stolen block is
large enough for the request, and a list is refilled only when it is empty. -/
def Allowed (s : State) (H : List Block) : Op → Prop
  | .freePage _ _ page order => ⟨page, order⟩ ∈ H
  | .adoptStolenBlock _ block blockOrder requestedOrder =>
    ⟨block, blockOrder⟩ ∈ H ∧ requestedOrder ≤ blockOrder
  | .batchRefillPcp z cpu order => ∀ list ∈ s.pcpList z cpu order, list.count = 0
  | _ => True

/-- The state after a call, and the blocks that are out. -/
def run (cfg : Config) (s : State) (H : List Block) : Op → Option (State × List Block)
  | .allocPages z cpu order =>
    (s.allocPages cfg z cpu order).map fun r => (r.2, handedOut r.1 order H)
  | .allocPagesLocked z order =>
    (s.allocPagesLocked cfg z order).map fun r => (r.2, handedOut r.1 order H)
  | .nodeAllocPages z cpu order =>
    (s.nodeAllocPages cfg z cpu order).map fun r => (r.2, handedOut r.1 order H)
  | .freePage z cpu page order =>
    (s.freePage cfg z cpu page order).map fun s => (s, H.erase ⟨page, order⟩)
  | .batchRefillPcp z cpu order =>
    match s.pcpList z cpu order with
    | none => some (s, H)
    | some list => (s.batchRefillPcp cfg z cpu order list).map fun r => (r.2.2, H)
  | .batchDrainPcp z cpu order =>
    match s.pcpList z cpu order with
    | none => some (s, H)
    | some list => (s.batchDrainPcp cfg z cpu order list).map fun r => (r.2, H)
  | .flushDeferredFrees z => some (s.flushDeferredFreesInternal cfg z, H)
  | .extractLargestBlockForSteal z minOrder =>
    (s.extractLargestBlockForSteal cfg z minOrder).map fun r =>
      (r.2, r.1.elim H fun p => ⟨p, (r.2.pages p).order⟩ :: H)
  | .adoptStolenBlock z block blockOrder requestedOrder =>
    some (s.adoptStolenBlock z block blockOrder requestedOrder,
      ⟨block, requestedOrder⟩ :: H.erase ⟨block, blockOrder⟩)
  | .tunePcp z => some (s.tunePcp z, H)

end Op

theorem tunePcp_ok (z : ZoneId) (h : Settled F s H) : Settled F (s.tunePcp z) H := by
  obtain ⟨free, hinv⟩ := h
  have hlist : ∀ z' cpu o, (s.tunePcp z).pcpList z' cpu o = (s.pcpList z' cpu o).map fun l =>
      if z' = z then l.tune ((s.zones z).totalFree >>> o) o else l := by
    intro z' cpu o
    by_cases hz : z' = z
    · subst hz
      simp [pcpList, tunePcp, Function.comp_def]
    · simp [pcpList, tunePcp, hz, Function.comp_def]
  refine ⟨free, hinv.frame rfl rfl ?_ rfl rfl (hinv.shelved.congr fun c => ?_) ?_ ?_⟩
  · intro z'
    by_cases hz : z' = z <;> simp [tunePcp, hz]
  · cases c with
    | held => exact .refl _
    | free z' o => exact .refl _
    | deferred z' => by_cases hz : z' = z <;> simp [shelf, tunePcp, hz]
    | pcp z' cpu o =>
      -- tuning moves the marks, not the blocks
      simp only [shelf, hlist]
      cases s.pcpList z' cpu o with
      | none => simp
      | some l =>
        by_cases hz : z' = z <;> simp [hz, PcpList.toList, PcpList.tune]
  · intro z'
    have ht := hinv.total z'
    by_cases hz : z' = z <;> simpa [tunePcp, hz] using ht
  · intro z' cpu o l hl
    rw [hlist] at hl
    cases hold : s.pcpList z' cpu o with
    | none => simp [hold] at hl
    | some l₀ =>
      have hok := hinv.pcpOk z' cpu o l₀ hold
      simp only [hold, Option.map_some, Option.some.injEq] at hl
      subst hl
      split
      · exact PcpList.tune_ok hok.head_lt hok.tail_eq hok.count_le _ _
      · exact hok

/-- **One step.**  An allowed call returns and leaves everything settled. -/
theorem op_ok (cfg : Config) (h : Settled F s H)
    (op : Op) (hallowed : op.Allowed s H) :
    ∃ s' H', op.run cfg s H = some (s', H') ∧ Settled F s' H' := by
  cases op with
  | allocPages z cpu order =>
    obtain ⟨r, s', heq, h'⟩ := allocPages_ok cfg z cpu order h
    exact ⟨s', _, by simp [Op.run, heq], h'⟩
  | allocPagesLocked z order =>
    obtain ⟨r, s', heq, h'⟩ := allocPagesLocked_ok cfg z order h
    exact ⟨s', _, by simp [Op.run, heq], h'⟩
  | nodeAllocPages z cpu order =>
    obtain ⟨r, s', heq, h'⟩ := nodeAllocPages_ok cfg z cpu order h
    exact ⟨s', _, by simp [Op.run, heq], h'⟩
  | freePage z cpu page order =>
    obtain ⟨s', heq, h'⟩ := freePage_ok cfg z cpu h (List.perm_cons_erase hallowed)
    exact ⟨s', _, by simp [Op.run, heq], h'⟩
  | batchRefillPcp z cpu order =>
    cases hlist : s.pcpList z cpu order with
    | none => exact ⟨s, H, by simp [Op.run, hlist], h⟩
    | some list =>
      obtain ⟨b, list', s', heq, h', -⟩ :=
        batchRefill_ok cfg z cpu order h hlist (hallowed list hlist)
      exact ⟨s', H, by simp [Op.run, hlist, heq], h'⟩
  | batchDrainPcp z cpu order =>
    cases hlist : s.pcpList z cpu order with
    | none => exact ⟨s, H, by simp [Op.run, hlist], h⟩
    | some list =>
      obtain ⟨list', s', heq, h', -⟩ := batchDrain_ok cfg z cpu order h hlist
      exact ⟨s', H, by simp [Op.run, hlist, heq], h'⟩
  | flushDeferredFrees z => exact ⟨_, _, rfl, (flush_ok cfg z h).1⟩
  | extractLargestBlockForSteal z minOrder =>
    obtain ⟨r, s', heq, hr⟩ := extractLargest_ok cfg z minOrder h
    refine ⟨s', _, by simp only [Op.run, heq, Option.map_some]; rfl, ?_⟩
    cases r with
    | none => exact hr
    | some p => exact hr.2
  | adoptStolenBlock z block blockOrder requestedOrder =>
    exact ⟨_, _, rfl, adopt_ok z h (List.perm_cons_erase hallowed.1) hallowed.2⟩
  | tunePcp z => exact ⟨_, _, rfl, tunePcp_ok z h⟩

/-! ## Runs -/

/-- The states reachable from boot, with the blocks that are out. -/
inductive Run (cfg : Config) (caches : ZoneId → Option (Nat → Nat → PcpList))
    (blocks : List (ZoneId × Block)) : State → List Block → Prop
  | boot : Run cfg caches blocks ((State.empty caches).injectAll blocks) []
  | step {s s' : State} {H H' : List Block} (op : Op) (hrun : Run cfg caches blocks s H)
      (hallowed : op.Allowed s H) (hop : op.run cfg s H = some (s', H')) :
      Run cfg caches blocks s' H'

theorem run_settled {cfg : Config} (hboot : Boot caches blocks)
    (hrun : Run cfg caches blocks s H) : Settled (injected blocks) s H := by
  induction hrun with
  | boot => exact injectAll_ok blocks ⟨_, empty_inv hboot⟩
  | step op _ hallowed hop ih =>
    obtain ⟨s₁, H₁, heq, h₁⟩ := op_ok cfg ih op hallowed
    rw [hop] at heq
    cases heq
    exact h₁

/-! ## The invariant in the words of the data structures -/

namespace State

/-- The frames linked in one `FreeArea`, from its head along the `next` pointers. -/
def linked (s : State) (z : ZoneId) (o : Nat) : List Nat :=
  DList.walk s.links.next ((s.zones z).areas o).nrFree ((s.zones z).areas o).ends.head

/-- The blocks lying in each place when the blocks `H` are out. -/
def blocksIn (s : State) (H : List Block) : Place → List Block :=
  shelf s ⟨s.linked, H, none, fun _ => 0⟩

end State

/-- Every frame of `F` is accounted for, and the descriptors, the bitmaps and the counters agree
with the lists. -/
structure Accounted (F : Set Nat) (s : State) (H : List Block) : Prop where
  aligned : ∀ place, ∀ b ∈ s.blocksIn H place, b.Aligned
  apart_within : ∀ place, (s.blocksIn H place).Pairwise Block.Apart
  apart_across : ∀ place place', place ≠ place' →
    ∀ b ∈ s.blocksIn H place, ∀ b' ∈ s.blocksIn H place', Block.Apart b b'
  cover : ∀ f, f ∈ F ↔ ∃ place, ∃ b ∈ s.blocksIn H place, f ∈ b
  chain : ∀ z o, DList.IsDList s.links ((s.zones z).areas o).ends (s.linked z o)
  free_iff : ∀ p, (s.pages p).state = .free ↔ ∃ z o, p ∈ s.linked z o
  names : ∀ p z o, p ∈ s.linked z o → s.pages p = ⟨.free, z.mobility, o, z.node⟩
  bitmap : ∀ z, ∀ o ≤ maxOrder, (s.zones z).activeOrders.getLsbD o = true ↔ s.linked z o ≠ []
  total : ∀ z, (s.zones z).totalFree = ∑ o ∈ Finset.range (maxOrder + 1),
    ((s.linked z o).map fun _ => 2 ^ o).sum

/-- The ghost free lists are what a walk along the pointers finds. -/
theorem Inv.linked_eq {g : Ghost} (h : Inv F s g) : s.linked = g.free := by
  funext z o
  rw [linked, h.count, (h.chain z o).head_eq]
  exact (h.chain z o).seg.walk_next le_rfl

theorem Settled.accounted (h : Settled F s H) : Accounted F s H := by
  obtain ⟨free, hinv⟩ := h
  have hlinked : s.linked = free := hinv.linked_eq
  have hshelf : s.blocksIn H = shelf s ⟨free, H, none, fun _ => 0⟩ := by
    rw [blocksIn, hlinked]
  constructor
  · exact fun place b hb => hinv.shelved.aligned (hshelf ▸ hb)
  · exact fun place => hshelf ▸ hinv.shelved.apart.1 place
  · exact hshelf ▸ hinv.shelved.apart.2
  · exact hshelf ▸ hinv.shelved.cover
  · exact hlinked ▸ hinv.chain
  · intro p
    rw [hlinked]
    constructor
    · intro hfree
      exact ⟨_, _, hinv.unmarked p hfree (by simp)⟩
    · rintro ⟨z, o, hp⟩
      rw [hinv.marked z o p hp]
  · exact hlinked ▸ fun p z o hp => hinv.marked z o p hp
  · intro z o ho
    rw [hlinked]
    exact hinv.bitmap z o (lt_of_le_of_lt ho (by decide))
  · intro z
    have htotal : ((s.zones z).totalFree : Int) = freeSum free z := by
      simpa using hinv.total z
    rw [hlinked, Nat.cast_injective htotal, freeSum]
    apply Finset.sum_congr rfl
    intro o _
    simp [mul_comm]

/-- **No frame is lost or handed out twice.**  After any run the blocks in all free lists, all
per-CPU lists, all deferred rings and all hands are disjoint, aligned and cover exactly the injected
frames, and the marks, bitmaps and counters agree with them; every further call the rules allow
returns. -/
theorem run_frames_accounted {cfg : Config} {caches : ZoneId → Option (Nat → Nat → PcpList)}
    {blocks : List (ZoneId × Block)} (hboot : Boot caches blocks) {s : State} {H : List Block}
    (hrun : Run cfg caches blocks s H) : Accounted (injected blocks) s H ∧
      ∀ op : Op, op.Allowed s H → ∃ s' H', op.run cfg s H = some (s', H') := by
  have hsettled := run_settled hboot hrun
  refine ⟨hsettled.accounted, fun op hallowed => ?_⟩
  obtain ⟨s', H', heq, -⟩ := op_ok cfg hsettled op hallowed
  exact ⟨s', H', heq⟩

section

/-- One zone with four frames and tuned per-CPU lists. -/
private def oneZone : ZoneId := ⟨0, .movable⟩

private def freshCaches : ZoneId → Option (Nat → Nat → PcpList) :=
  fun _ => some fun _ o => PcpList.tune {} 4 o

private theorem oneZone_boot : Boot freshCaches [(oneZone, ⟨4, 2⟩)] where
  apart := by simp
  aligned := by simp [Block.Aligned]
  order_le := by simp [maxOrder]
  tuned z cache hcache cpu o := by
    cases hcache
    exact ⟨PcpList.tune_ok (by decide) rfl (by decide) 4 o, rfl⟩

/-- Allocating one frame refills the per-CPU list with all four and hands out the hottest. -/
theorem run_frames_accounted_four :
    ∃ s, Run ⟨8, fun _ => 0⟩ freshCaches [(oneZone, ⟨4, 2⟩)] s [⟨7, 0⟩] ∧
      Accounted (injected [(oneZone, ⟨4, 2⟩)]) s [⟨7, 0⟩] := by
  have hop : ((Op.allocPages oneZone 0 0).run ⟨8, fun _ => 0⟩
      ((State.empty freshCaches).injectAll [(oneZone, ⟨4, 2⟩)]) []).map Prod.snd =
        some [⟨7, 0⟩] := by
    decide +kernel
  obtain ⟨⟨s, H⟩, heq, rfl⟩ := Option.map_eq_some_iff.1 hop
  have hrun : Run ⟨8, fun _ => 0⟩ freshCaches _ s _ :=
    Run.step (Op.allocPages oneZone 0 0) Run.boot trivial heq
  exact ⟨s, hrun, (run_frames_accounted oneZone_boot hrun).1⟩

end

end Erebus.Pmm
