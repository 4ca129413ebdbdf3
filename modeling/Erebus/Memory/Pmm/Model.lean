import Erebus.Lib.DList

/-!
# The physical memory manager: the code

`MobilityZone` of `memory/pmm/mobility-zone.{hpp,cpp}` with the free lists of `free_area.hpp`, the
per-CPU lists of `pcp_cache.hpp`, the deferred frees, and `NumaNode::alloc_pages` on top.

* A `Page*` is the frame number the descriptor belongs to. The descriptors of all frames are one
  function, and so are their `buddy.next`/`buddy.prev` words (`DList.Links`), because a free list
  threads through descriptors that other zones can reach too.
* A zone is named by its node and mobility; that is what the descriptor of a free block records.
* Each call runs to its end before the next one starts, so locks and interrupt guards leave no
  trace, and the deferred-free ring is a queue of at most 512 entries.
* `none` is a null descriptor that the code would dereference.
-/

namespace Erebus.Pmm

open DList (Links Ends)

/-- `MAX_ORDER`. -/
def maxOrder : Nat := 18

/-- `PCP_MAX_ORDER`. -/
def pcpMaxOrder : Nat := 3

/-- `PageState`. -/
inductive PageState where
  | active | standby | modified | free | zeroed | bad
  deriving DecidableEq, Repr

/-- `PageMobility`. -/
inductive PageMobility where
  | unmovable | movable | reclaimable
  deriving DecidableEq, Repr

/-- The fields of `Page` the buddy allocator reads: the three of `flags`, and `topology`'s node. -/
structure Page where
  state : PageState := .active
  mobility : PageMobility := .unmovable
  order : Nat := 0
  numaNode : Nat := 0
  deriving DecidableEq, Repr

/-! ## `FreeArea` -/

/-- `FreeArea`: `m_hot_head`, `m_cold_tail` and `m_nr_free`. -/
structure FreeArea where
  ends : Ends Nat := ⟨none, none⟩
  nrFree : Nat := 0

namespace FreeArea

/-- `push_hot`. -/
def pushHot (a : FreeArea) (L : Links Nat) (p : Nat) : Links Nat × FreeArea :=
  let r := DList.pushFront L a.ends p
  (r.1, ⟨r.2, a.nrFree + 1⟩)

/-- `push_cold`. -/
def pushCold (a : FreeArea) (L : Links Nat) (p : Nat) : Links Nat × FreeArea :=
  let r := DList.pushBack L a.ends p
  (r.1, ⟨r.2, a.nrFree + 1⟩)

/-- `pop_hot`. -/
def popHot (a : FreeArea) (L : Links Nat) : Option (Nat × Links Nat × FreeArea) :=
  match DList.popFront L a.ends with
  | (some p, L, e) => some (p, L, ⟨e, a.nrFree - 1⟩)
  | (none, _, _) => none

/-- `remove`. -/
def remove (a : FreeArea) (L : Links Nat) (p : Nat) : Links Nat × FreeArea :=
  let r := DList.unlink L a.ends p
  (r.1, ⟨r.2, a.nrFree - 1⟩)

end FreeArea

/-! ## `PcpList` -/

/-- `PcpList`: a ring of `MAX_CAPACITY` slots. -/
structure PcpList where
  head : Nat := 0
  tail : Nat := 0
  count : Nat := 0
  high : Nat := 0
  batch : Nat := 0
  pages : Nat → Nat := fun _ => 0

namespace PcpList

/-- `MAX_CAPACITY`. -/
def maxCapacity : Nat := 256

/-- `tune`. -/
def tune (l : PcpList) (zoneFreePages order : Nat) : PcpList :=
  let baseHigh := maxCapacity >>> order
  let baseBatch := 32 >>> order
  let divisor := if zoneFreePages < 1024 then 4 else if zoneFreePages < 8192 then 2 else 1
  let high := max 1 (min (baseHigh / divisor) maxCapacity)
  { l with high := high, batch := max 1 (min (baseBatch / divisor) high) }

/-- `needs_drain`. -/
def needsDrain (l : PcpList) : Bool := decide (l.high ≤ l.count)

/-- `push_hot`. -/
def pushHot (l : PcpList) (p : Nat) : PcpList :=
  { l with
    pages := Function.update l.pages l.tail p
    tail := (l.tail + 1) % maxCapacity
    count := l.count + 1 }

/-- `pop_hot`; `(tail - 1) & MASK` wraps from 0 to the last slot. -/
def popHot (l : PcpList) : Option (Nat × PcpList) :=
  if l.count = 0 then
    none
  else
    let tail := (l.tail + (maxCapacity - 1)) % maxCapacity
    some (l.pages tail, { l with tail := tail, count := l.count - 1 })

/-- `pop_cold`. -/
def popCold (l : PcpList) : Option (Nat × PcpList) :=
  if l.count = 0 then
    none
  else
    some (l.pages l.head, { l with head := (l.head + 1) % maxCapacity, count := l.count - 1 })

end PcpList

/-! ## Zones -/

/-- A zone, as the descriptors of its free blocks name it. -/
structure ZoneId where
  node : Nat
  mobility : PageMobility
  deriving DecidableEq, Repr

/-- `MobilityZone`: the data members. -/
structure MobilityZone where
  activeOrders : BitVec 32 := 0
  areas : Nat → FreeArea := fun _ => {}
  totalFree : Nat := 0
  pcpCache : Option (Nat → Nat → PcpList) := none
  deferredFrees : List Nat := []

namespace MobilityZone

/-- `set_order_active`. -/
def setOrderActive (zone : MobilityZone) (order : Nat) : MobilityZone :=
  { zone with activeOrders := zone.activeOrders ||| (1#32 <<< order) }

/-- `clear_order_active`. -/
def clearOrderActive (zone : MobilityZone) (order : Nat) : MobilityZone :=
  { zone with activeOrders := zone.activeOrders &&& ~~~(1#32 <<< order) }

end MobilityZone

/-- The capacity of the deferred-free ring. -/
def deferredCapacity : Nat := 512

/-- `std::countr_zero`. -/
def countrZero (w : BitVec 32) : Nat :=
  ((List.range 32).find? fun i => w.getLsbD i).getD 32

/-- `std::bit_width`. -/
def bitWidth (w : BitVec 32) : Nat :=
  ((List.range 32).reverse.find? fun i => w.getLsbD i).elim 0 (· + 1)

/-- What does not change while the allocator runs: `g_max_pfn` and the node of each CPU. -/
structure Config where
  maxPfn : Nat
  cpuNode : Nat → Nat

/-- All descriptors, their links, and all zones. -/
structure State where
  pages : Nat → Page := fun _ => {}
  links : Links Nat := ⟨fun _ => none, fun _ => none⟩
  zones : ZoneId → MobilityZone := fun _ => {}

namespace State

/-- Write a descriptor. -/
def setPage (s : State) (p : Nat) (page : Page) : State :=
  { s with pages := Function.update s.pages p page }

/-- Change one zone. -/
def modifyZone (s : State) (z : ZoneId) (f : MobilityZone → MobilityZone) : State :=
  { s with zones := Function.update s.zones z (f (s.zones z)) }

/-- Store the links and the list heads after an operation on the free list of one order. -/
def setArea (s : State) (z : ZoneId) (order : Nat) (r : Links Nat × FreeArea) : State :=
  { s.modifyZone z fun zone => { zone with areas := Function.update zone.areas order r.2 } with
    links := r.1 }

/-- `add_free_pages`. -/
def addFreePages (s : State) (z : ZoneId) (count : Nat) : State :=
  s.modifyZone z fun zone => { zone with totalFree := zone.totalFree + count }

/-- `sub_free_pages`. -/
def subFreePages (s : State) (z : ZoneId) (count : Nat) : State :=
  s.modifyZone z fun zone => { zone with totalFree := zone.totalFree - count }

/-- Store one CPU's list of one order. -/
def setPcp (s : State) (z : ZoneId) (cpu order : Nat) (list : PcpList) : State :=
  s.modifyZone z fun zone =>
    { zone with pcpCache := zone.pcpCache.map fun cache =>
        Function.update cache cpu (Function.update (cache cpu) order list) }

/-- The three lines that put a block on a free list: `setup_buddy_metadata`, `push_hot`,
`set_order_active`. -/
def linkFree (s : State) (z : ZoneId) (order p : Nat) : State :=
  let s := s.setPage p ⟨.free, z.mobility, order, z.node⟩
  let s := s.setArea z order (((s.zones z).areas order).pushHot s.links p)
  s.modifyZone z (·.setOrderActive order)

/-- `clear_order_active` once the list of that order has run empty. -/
def clearIfEmpty (s : State) (z : ZoneId) (order : Nat) : State :=
  if ((s.zones z).areas order).nrFree = 0 then s.modifyZone z (·.clearOrderActive order) else s

/-- `remove` of a known member. -/
def removeFree (s : State) (z : ZoneId) (order p : Nat) : State :=
  (s.setArea z order (((s.zones z).areas order).remove s.links p)).clearIfEmpty z order

/-- `pop_hot`. -/
def popFree (s : State) (z : ZoneId) (order : Nat) : Option (Nat × State) :=
  match ((s.zones z).areas order).popHot s.links with
  | some (p, r) => some (p, (s.setArea z order r).clearIfEmpty z order)
  | none => none

/-! ## The buddy core -/

/-- The loop of `buddy_merge_internal`. `steps` is `MAX_ORDER - order`. -/
def mergeLoop (cfg : Config) (z : ZoneId) : Nat → State → Nat → Nat → State × Nat × Nat
  | 0, s, pfn, order => (s, pfn, order)
  | steps + 1, s, pfn, order =>
    let buddyPfn := pfn ^^^ 2 ^ order
    -- a block at the very top of memory may have a buddy that has no descriptor at all
    if cfg.maxPfn ≤ buddyPfn then
      (s, pfn, order)
    else
      let buddy := s.pages buddyPfn
      if buddy.state ≠ .free ∨ buddy.order ≠ order ∨ buddy.mobility ≠ z.mobility ∨
          buddy.numaNode ≠ z.node then
        (s, pfn, order)
      else
        let s := s.removeFree z order buddyPfn
        let s := s.setPage buddyPfn { s.pages buddyPfn with state := .active }
        let pfn := if buddyPfn < pfn then buddyPfn else pfn
        mergeLoop cfg z steps s pfn (order + 1)

/-- `buddy_merge_internal`. -/
def buddyMergeInternal (cfg : Config) (s : State) (z : ZoneId) (page order : Nat) : State :=
  match mergeLoop cfg z (maxOrder - order) s page order with
  | (s, pfn, order) => s.linkFree z order pfn

/-- The loop of `flush_deferred_frees_internal`, on the entries still queued. -/
def flushLoop (cfg : Config) (z : ZoneId) : List Nat → State → Nat → State × Nat
  | [], s, pagesFreed => (s, pagesFreed)
  | p :: queue, s, pagesFreed =>
    let order := (s.pages p).order
    let s := s.modifyZone z fun zone => { zone with deferredFrees := queue }
    flushLoop cfg z queue (s.buddyMergeInternal cfg z p order) (pagesFreed + 2 ^ order)

/-- `flush_deferred_frees_internal`. -/
def flushDeferredFreesInternal (cfg : Config) (s : State) (z : ZoneId) : State :=
  if (s.zones z).deferredFrees = [] then
    s
  else
    match flushLoop cfg z (s.zones z).deferredFrees s 0 with
    | (s, pagesFreed) => s.addFreePages z pagesFreed

/-- The orders in `m_active_orders_bitmap` that are at least `order`. -/
def availableOrders (s : State) (z : ZoneId) (order : Nat) : BitVec 32 :=
  (s.zones z).activeOrders &&& ~~~((1#32 <<< order) - 1#32)

/-- The halving loop: keep the lower half each time and give the upper half back. -/
def splitLoop (z : ZoneId) (pfn requestedOrder : Nat) : Nat → State → State
  | 0, s => s
  | order + 1, s =>
    if requestedOrder < order + 1 then
      splitLoop z pfn requestedOrder order (s.linkFree z order (pfn + 2 ^ order))
    else
      s

/-- `extract_block_internal`. -/
def extractBlockInternal (s : State) (z : ZoneId) (requestedOrder : Nat) :
    Option (Option Nat × State) :=
  let available := s.availableOrders z requestedOrder
  if available = 0 then
    some (none, s)
  else
    let currOrder := countrZero available
    match s.popFree z currOrder with
    | none => none
    | some (page, s) =>
      let s := splitLoop z page requestedOrder currOrder s
      some (some page, s.setPage page ⟨.active, z.mobility, requestedOrder, z.node⟩)

/-- `alloc_pages_locked`. -/
def allocPagesLocked (cfg : Config) (s : State) (z : ZoneId) (requestedOrder : Nat) :
    Option (Option Nat × State) :=
  match (s.flushDeferredFreesInternal cfg z).extractBlockInternal z requestedOrder with
  | none => none
  | some (none, s) => some (none, s)
  | some (some page, s) => some (some page, s.subFreePages z (2 ^ requestedOrder))

/-- `free_page_locked`. -/
def freePageLocked (cfg : Config) (s : State) (z : ZoneId) (page order : Nat) : State :=
  let s := s.flushDeferredFreesInternal cfg z
  let s := s.buddyMergeInternal cfg z page order
  s.addFreePages z (2 ^ order)

/-! ## Per-CPU lists -/

/-- The list of one CPU and order. -/
def pcpList (s : State) (z : ZoneId) (cpu order : Nat) : Option PcpList :=
  (s.zones z).pcpCache.map fun cache => cache cpu order

/-- The loop of `batch_refill_pcp`; `n` blocks are still wanted. -/
def refillLoop (z : ZoneId) (cpu order : Nat) : Nat → State → PcpList → Nat →
    Option (Nat × PcpList × State)
  | 0, s, list, refilled => some (refilled, list, s)
  | n + 1, s, list, refilled =>
    match s.extractBlockInternal z order with
    | none => none
    | some (none, s) => some (refilled, list, s)
    | some (some p, s) =>
      let list := list.pushHot p
      refillLoop z cpu order n (s.setPcp z cpu order list) list (refilled + 1)

/-- `batch_refill_pcp`. -/
def batchRefillPcp (cfg : Config) (s : State) (z : ZoneId) (cpu order : Nat) (list : PcpList) :
    Option (Bool × PcpList × State) :=
  let s := s.flushDeferredFreesInternal cfg z
  match refillLoop z cpu order list.batch s list 0 with
  | none => none
  | some (refilled, list, s) =>
    if 0 < refilled then
      some (true, list, s.subFreePages z (refilled <<< order))
    else
      some (false, list, s)

/-- The loop of `batch_drain_pcp`; `n` blocks are still to go. -/
def drainLoop (cfg : Config) (z : ZoneId) (cpu order : Nat) :
    Nat → State → PcpList → Option (PcpList × State)
  | 0, s, list => some (list, s)
  | n + 1, s, list =>
    match list.popCold with
    | none => none
    | some (p, list) =>
      drainLoop cfg z cpu order n
        ((s.setPcp z cpu order list).buddyMergeInternal cfg z p order) list

/-- `batch_drain_pcp`. -/
def batchDrainPcp (cfg : Config) (s : State) (z : ZoneId) (cpu order : Nat) (list : PcpList) :
    Option (PcpList × State) :=
  let s := s.flushDeferredFreesInternal cfg z
  let count := min list.batch list.count
  match drainLoop cfg z cpu order count s list with
  | none => none
  | some (list, s) => some (list, s.addFreePages z (count <<< order))

/-- `alloc_pages`, called on `cpu`. -/
def allocPages (cfg : Config) (s : State) (z : ZoneId) (cpu requestedOrder : Nat) :
    Option (Option Nat × State) :=
  match (if pcpMaxOrder < requestedOrder then none else s.pcpList z cpu requestedOrder) with
  | none => s.allocPagesLocked cfg z requestedOrder
  | some list =>
    let filled :=
      if list.count = 0 then s.batchRefillPcp cfg z cpu requestedOrder list
      else some (true, list, s)
    match filled with
    | none => none
    | some (false, _, s) => some (none, s)
    | some (true, list, s) =>
      match list.popHot with
      | none => some (none, s)
      | some (p, list) => some (some p, s.setPcp z cpu requestedOrder list)

/-- `free_page`, called on `cpu`. -/
def freePage (cfg : Config) (s : State) (z : ZoneId) (cpu page order : Nat) : Option State :=
  if cfg.cpuNode cpu ≠ z.node then
    -- the deferred ring only carries the descriptor, so the order has to travel inside it
    let s := s.setPage page { s.pages page with order := order }
    if (s.zones z).deferredFrees.length < deferredCapacity then
      some (s.modifyZone z fun zone =>
        { zone with deferredFrees := zone.deferredFrees ++ [page] })
    else
      some (s.freePageLocked cfg z page order)
  else
    match (if pcpMaxOrder < order then none else s.pcpList z cpu order) with
    | none => some (s.freePageLocked cfg z page order)
    | some list =>
      let drained :=
        if list.needsDrain then s.batchDrainPcp cfg z cpu order list else some (list, s)
      match drained with
      | none => none
      | some (list, s) => some (s.setPcp z cpu order (list.pushHot page))

/-! ## Moving blocks between zones -/

/-- `extract_largest_block_for_steal`. -/
def extractLargestBlockForSteal (cfg : Config) (s : State) (z : ZoneId) (minOrder : Nat) :
    Option (Option Nat × State) :=
  let s := s.flushDeferredFreesInternal cfg z
  let available := s.availableOrders z minOrder
  if available = 0 then
    some (none, s)
  else
    let order := bitWidth available - 1
    match s.popFree z order with
    | none => none
    | some (page, s) =>
      let s := s.setPage page { s.pages page with state := .active }
      some (some page, s.subFreePages z (2 ^ order))

/-- `adopt_stolen_block`. -/
def adoptStolenBlock (s : State) (z : ZoneId) (block blockOrder requestedOrder : Nat) : State :=
  let s := splitLoop z block requestedOrder blockOrder s
  let s := s.setPage block ⟨.active, z.mobility, requestedOrder, z.node⟩
  s.addFreePages z (2 ^ blockOrder - 2 ^ requestedOrder)

/-- `s_fallback_hierarchy`. -/
def fallbackHierarchy : PageMobility → List PageMobility
  | .unmovable => [.reclaimable, .movable]
  | .movable => [.reclaimable, .unmovable]
  | .reclaimable => [.unmovable, .movable]

/-- The fallback loop of `NumaNode::alloc_pages`. -/
def stealLoop (cfg : Config) (z : ZoneId) (requestedOrder : Nat) : List PageMobility → State →
    Option (Option Nat × State)
  | [], s => some (none, s)
  | fallback :: rest, s =>
    match s.extractLargestBlockForSteal cfg ⟨z.node, fallback⟩ requestedOrder with
    | none => none
    | some (none, s) => stealLoop cfg z requestedOrder rest s
    | some (some stolen, s) =>
      some (some stolen, s.adoptStolenBlock z stolen (s.pages stolen).order requestedOrder)

/-- `NumaNode::alloc_pages`. -/
def nodeAllocPages (cfg : Config) (s : State) (z : ZoneId) (cpu requestedOrder : Nat) :
    Option (Option Nat × State) :=
  match s.allocPages cfg z cpu requestedOrder with
  | none => none
  | some (some page, s) => some (some page, s)
  | some (none, s) => stealLoop cfg z requestedOrder (fallbackHierarchy z.mobility) s

/-! ## Boot -/

/-- What boot does with one block: `setup_buddy_metadata`, then `inject_free_page_cold`. -/
def injectFreePageCold (s : State) (z : ZoneId) (page order : Nat) : State :=
  let s := s.setPage page ⟨.free, z.mobility, order, z.node⟩
  let s := s.setArea z order (((s.zones z).areas order).pushCold s.links page)
  let s := s.modifyZone z (·.setOrderActive order)
  s.addFreePages z (2 ^ order)

/-- `tune_pcp`. -/
def tunePcp (s : State) (z : ZoneId) : State :=
  s.modifyZone z fun zone =>
    { zone with pcpCache := zone.pcpCache.map fun cache cpu order =>
        (cache cpu order).tune (zone.totalFree >>> order) order }

end State

end Erebus.Pmm
