import Erebus.Lib.DList
import Erebus.Lib.KeyMap
import Erebus.Memory.Vmm.Vma.Object

/-!
# Address spaces

`AddressSpace`: the areas of a process, twice, in a doubly linked list and in a tree keyed by start
address, and the root of the page map that caches their translations. The tree is kept as its
contents in key order.

* `VMArea`, `VMAFlags`: a range with uniform attributes; `area` says what is stored in a descriptor.
* `findVma`, `rangeIsFree`, `firstFit`, `findFreeGap`, `linkVma`, `unlinkVma`, `splitVma`,
  `isolateRange`, `coalesceRange`: the private helpers of `address_space.cpp`.
* `resolveVmaFaultLocked`, `expandStackLocked`, `handlePageFault`: `pf.cpp`; `protect`,
  `lockMemory`, `unlockMemory`, `evictPage`: `protect.cpp`.

Every operation takes the lock of its space first, so that the operations on a space come one after
another.
-/

namespace Erebus.Vmm

/-- `NUMAPolicy`. -/
inductive NUMAPolicy where
  | strictLocal
  | interleave
  | firstTouch
  deriving DecidableEq, Repr

/-- `VMAFlags`. The field for the access flags has 16 bits. -/
structure VMAFlags where
  access : BitVec 16
  cache : CacheMode
  pageSize : PageSize
  type : VMAType
  numa : NUMAPolicy
  isLocked : Bool
  isWired : Bool
  pkey : Nat
  deriving DecidableEq, Repr

def VMAFlags.getAccess (f : VMAFlags) : AccessFlags := f.access.setWidth 32

def VMAFlags.setAccess (access : AccessFlags) (f : VMAFlags) : VMAFlags :=
  { f with access := access.setWidth 16 }

/-- `VMArea`, without its links. The area ends before `stop`. -/
structure VMArea where
  start : Nat
  stop : Nat
  vmObject : Option Nat
  objectOffset : Nat
  flags : VMAFlags
  preferredNumaNode : Nat
  faultCount : Nat

namespace VMArea

def contains (v : VMArea) (addr : Nat) : Bool := v.start ≤ addr && addr < v.stop

def sizeBytes (v : VMArea) : Nat := v.stop - v.start

def pageBytes (v : VMArea) : Nat := getPageBytes v.flags.pageSize

end VMArea

/-- Where `find_free_gap` hands out addresses. -/
structure Region where
  start : Nat
  limit : Nat
  bump : Nat

/-- `AddressSpace`. -/
structure AddressSpace where
  area : Nat → VMArea
  links : DList.Links Nat
  ends : DList.Ends Nat
  /-- The `BPlusTree` of the areas by start address, as its entries in key order. `KeyMap.insert`,
  `erase` and `get` stand for its calls that succeed, which `BPlusTree.run_refines_map` relates to a
  finite map, and `KeyMap.floor` for `get_floor`, as in `BPlusTree.run_neighbours`. An insert that
  finds no memory leaves the tree alone (`BPlusTree.insert_atomic`). -/
  tree : List (Nat × Nat)
  root : Nat
  heapRegion : Region
  mmapRegion : Region

/-- There are no more areas than addresses. -/
def maxAreas : Nat := 2 ^ 64

/-- `MAX_STACK_BYTES`. -/
def maxStackBytes : Nat := 4 * sizeToBytes .size2M

/-- `align_down`. -/
def alignDown (n a : Nat) : Nat := n - n % a

/-- `align_up`, in 64 bits. -/
def alignUp (n a : Nat) : Nat := alignDown (add64 n (a - 1)) a

/-- 64-bit subtraction. -/
def sub64 (a b : Nat) : Nat := (a + (2 ^ 64 - b)) % 2 ^ 64

namespace AddressSpace

/-! ## Looking for areas and for room -/

/-- The areas met from a pointer on. -/
def following (s : AddressSpace) (p : Option Nat) : List Nat := DList.walk s.links.next maxAreas p

/-- All areas, in list order. -/
def areas (s : AddressSpace) : List Nat := s.following s.ends.head

def setArea (s : AddressSpace) (vma : Nat) (v : VMArea) : AddressSpace :=
  { s with area := Function.update s.area vma v }

/-- `find_vma`. -/
def findVma (s : AddressSpace) (addr : Nat) : Option Nat :=
  match KeyMap.floor addr s.tree with
  | some (_, vma) => if (s.area vma).contains addr then some vma else none
  | none => none

/-- `range_is_free`. -/
def rangeIsFree (s : AddressSpace) (start stop : Nat) : Bool :=
  if stop ≤ start then
    false
  else
    match KeyMap.floor (stop - 1) s.tree with
    | none => true
    | some (_, vma) => (s.area vma).stop ≤ start

/-- One round of `first_fit`; 0 is the null address. -/
def firstFitRound (s : AddressSpace) (limit size alignment candidate : Nat) : Nat ⊕ Nat :=
  let stop := add64 candidate size
  if stop ≤ candidate ∨ limit < stop then
    .inr 0
  else
    match KeyMap.floor (stop - 1) s.tree with
    | none => .inr candidate
    | some (_, blocker) =>
      if (s.area blocker).stop ≤ candidate then
        .inr candidate
      else
        -- past the blocker, with a guard gap
        .inl (alignUp (add64 (s.area blocker).stop alignment) alignment)

/-- `first_fit`; none is a search without end. -/
def firstFit (s : AddressSpace) («from» limit size alignment : Nat) : Option Nat :=
  Loop.run (s.firstFitRound limit size alignment) maxAreas (alignUp «from» alignment)

/-- The two searches of `find_free_gap`: fresh addresses first, then the first hole that fits. -/
def searchGap (s : AddressSpace) (region : Region) (size alignment : Nat) : Option Nat :=
  match s.firstFit region.bump region.limit size alignment with
  | none => none
  | some 0 => s.firstFit region.start region.limit size alignment
  | some found => some found

/-- `find_free_gap`; 0 is the null address. -/
def findFreeGap (m : Memory) (s : AddressSpace) (size alignment : Nat) (isHeap : Bool) :
    Nat × Memory × AddressSpace :=
  let region := if isHeap then s.heapRegion else s.mmapRegion
  match s.searchGap region size alignment with
  | none => (0, m.fail .endlessLoop, s)
  | some 0 => (0, m, s)
  | some found =>
    let (roll, m) := m.randomBelow 16
    let next := add64 found (size + alignment + roll * alignment)
    let region :=
      { region with bump := if found < next ∧ next < region.limit then next else region.limit }
    (found, m, if isHeap then { s with heapRegion := region } else { s with mmapRegion := region })

/-! ## The list -/

/-- `link_vma`. -/
def linkVma (s : AddressSpace) (new : Nat) : AddressSpace :=
  if s.ends.head = none then
    { s with
      ends := ⟨some new, some new⟩
      links := (s.links.setPrev new none).setNext new none }
  else if s.ends.tail.any fun tail => (s.area tail).start < (s.area new).start then
    let (links, ends) := DList.pushBack s.links s.ends new
    { s with links := links, ends := ends }
  else
    let curr := s.areas.find? fun curr => !((s.area curr).start < (s.area new).start)
    let prev := match curr with
      | some curr => s.links.prev curr
      | none => s.ends.tail
    let links := (s.links.setNext new curr).setPrev new prev
    let links := links.setNext? prev (some new)
    let ends := if prev = none then { s.ends with head := some new } else s.ends
    { s with links := links.setPrev? curr (some new), ends := ends }

/-- `unlink_vma`. -/
def unlinkVma (s : AddressSpace) (vma : Nat) : AddressSpace :=
  let (links, ends) := DList.unlink s.links s.ends vma
  { s with links := links, ends := ends }

/-! ## Splitting and merging -/

/-- A reference for an area, if it has an object. -/
def addRef? (m : Memory) (o : Option Nat) : Memory := o.elim m m.addRef

def dropRef? (m : Memory) (o : Option Nat) : Memory := o.elim m m.dropRef

/-- The space after `upper` has taken over an area from `splitPoint` on. -/
def splitAt (s : AddressSpace) (vma splitPoint upper : Nat) : AddressSpace :=
  let v := s.area vma
  let offset := add64 v.objectOffset ((splitPoint - v.start) / v.pageBytes)
  { (s.setArea upper { v with start := splitPoint, objectOffset := offset }).setArea vma
      { v with stop := splitPoint } with
    tree := KeyMap.insert splitPoint upper s.tree
    links := DList.insertAfter s.links vma upper
    ends := if s.links.next vma = none then { s.ends with tail := some upper } else s.ends }

/-- `split_vma`: the area that starts at the split point. -/
def splitVma (m : Memory) (s : AddressSpace) (vma splitPoint : Nat) :
    Except Error Nat × Memory × AddressSpace :=
  let v := s.area vma
  if splitPoint ≤ v.start ∨ v.stop ≤ splitPoint then
    (.ok vma, m, s)
  else
    match m.allocateVma with
    | (none, m) => (.error .outOfMemory, m, s)
    | (some upper, m) =>
      match m.grant with
      -- the tree could not grow
      | (false, m) => (.error .outOfMemory, m.releaseVma upper, s)
      | (true, m) => (.ok upper, addRef? m v.vmObject, s.splitAt vma splitPoint upper)

/-- The check of `isolate_range`: the range is covered without holes, on page boundaries of its
areas. -/
def checkCovered (s : AddressSpace) (stop : Nat) : List Nat → Nat → Except Error Unit
  | [], covered => if covered < stop then .error .notMapped else .ok ()
  | vma :: rest, covered =>
    if covered < stop then
      if covered < (s.area vma).start then
        .error .notMapped
      else
        let bpp := (s.area vma).pageBytes
        let chunkEnd := min (s.area vma).stop stop
        if !isAligned covered bpp || !isAligned chunkEnd bpp then
          .error .invalidAlignment
        else
          checkCovered s stop rest chunkEnd
    else
      .ok ()

/-- The end of `isolate_range`: the last area is cut at the end of the range. -/
def isolateEnd (m : Memory) (s : AddressSpace) (first stop : Nat) :
    Except Error Nat × Memory × AddressSpace :=
  match s.findVma (sub64 stop 1) with
  | none => (.ok first, m.fail .nullPointer, s)
  | some last =>
    if stop < (s.area last).stop then
      match splitVma m s last stop with
      | (.error e, m, s) => (.error e, m, s)
      | (.ok _, m, s) => (.ok first, m, s)
    else
      (.ok first, m, s)

/-- `isolate_range`: the first area of the range. -/
def isolateRange (m : Memory) (s : AddressSpace) (start stop : Nat) :
    Except Error Nat × Memory × AddressSpace :=
  match s.findVma start with
  | none => (.error .notMapped, m, s)
  | some first =>
    match s.checkCovered stop (s.following (some first)) start with
    | .error e => (.error e, m, s)
    | .ok _ =>
      if (s.area first).start < start then
        match splitVma m s first start with
        | (.error e, m, s) => (.error e, m, s)
        | (.ok upper, m, s) => isolateEnd m s upper stop
      else
        isolateEnd m s first stop

/-- `can_merge`. -/
def canMerge (s : AddressSpace) (left right : Option Nat) : Bool :=
  match left, right with
  | some left, some right =>
    let l := s.area left
    let r := s.area right
    l.vmObject.isSome && decide (l.vmObject = r.vmObject) && decide (l.stop = r.start) &&
      decide (l.flags = r.flags) && decide (l.preferredNumaNode = r.preferredNumaNode) &&
      decide (add64 l.objectOffset (l.sizeBytes / l.pageBytes) = r.objectOffset)
  | _, _ => false

/-- The space after `left` has taken over the range of its successor `right`. -/
def absorbed (s : AddressSpace) (left right : Nat) : AddressSpace :=
  let r := s.area right
  let s := (s.setArea left { s.area left with stop := r.stop }).unlinkVma right
  { s with tree := KeyMap.erase r.start s.tree }

/-- `absorb_next`. -/
def absorbNext (m : Memory) (s : AddressSpace) (left : Nat) : Memory × AddressSpace :=
  match s.links.next left with
  | none => (m.fail .nullPointer, s)
  | some right => ((dropRef? m (s.area right).vmObject).releaseVma right, s.absorbed left right)

/-- Fold an area into the one in front of it where possible. -/
def mergeInto (m : Memory) (s : AddressSpace) (left right : Option Nat) : Memory × AddressSpace :=
  match left with
  | some l => if s.canMerge left right then absorbNext m s l else (m, s)
  | none => (m, s)

/-- The walk of `coalesce_range` back over the range, and the area in front of it. -/
def coalesceBack (start : Nat) : Nat → Memory → AddressSpace → Option Nat → Memory × AddressSpace
  | fuel + 1, m, s, some curr =>
    if start ≤ (s.area curr).start then
      let prev := s.links.prev curr
      let (m, s) := mergeInto m s prev (some curr)
      coalesceBack start fuel m s prev
    else
      (m, s)
  | _, m, s, _ => (m, s)

/-- `coalesce_range`. -/
def coalesceRange (m : Memory) (s : AddressSpace) (last : Option Nat) (start : Nat) :
    Memory × AddressSpace :=
  match last with
  | none => (m, s)
  | some l =>
    let (m, s) := mergeInto m s last (s.links.next l)
    coalesceBack start maxAreas m s last

/-! ## Page tables -/

/-- `m_pagemap`. -/
def pagemap (m : Memory) (s : AddressSpace) : PageMap := m.pagemap s.root

/-- `PageMap::unmap_range`, whatever it answers. -/
def unmapRange (m : Memory) (s : AddressSpace) (start size : Nat) : Memory :=
  match (s.pagemap m).unmapRange start size with
  | none => m.fail .endlessLoop
  | some (_, pagemap) => m.setTables pagemap

/-- `tolerate_race`. -/
def tolerateRace : Except Error Unit → Except Error Unit
  | .error .alreadyMapped => .ok ()
  | r => r

/-- `PageMap::map` of a page of an area. -/
def mapPage (m : Memory) (s : AddressSpace) (vma virt phys : Nat) (flags : AccessFlags) :
    Except Error Unit × Memory :=
  let f := (s.area vma).flags
  let (r, pagemap) := (s.pagemap m).map virt phys flags f.cache f.pkey f.pageSize
  (r, m.setTables pagemap)

/-- `PageMap::remap` of a page of an area. -/
def remapPage (m : Memory) (s : AddressSpace) (vma virt phys : Nat) (flags : AccessFlags) :
    Except Error Unit × Memory :=
  let f := (s.area vma).flags
  let (r, pagemap) := (s.pagemap m).remap virt phys flags f.cache f.pkey f.pageSize
  (r, m.setTables pagemap)

/-- The access is not one the area allows. -/
def refuses (access faultType : AccessFlags) : Bool :=
  (faultType.has .user && !access.has .user) || (faultType.has .execute && !access.has .execute) ||
    (faultType.has .write && !access.has .write)

/-- The part of `resolve_vma_fault_locked` after the access was found to be allowed. -/
def resolveAllowed (m : Memory) (s : AddressSpace) (vma obj faultAddr : Nat) (isWrite : Bool) :
    Except Error Unit × Memory × AddressSpace :=
  let v := s.area vma
  let access := v.flags.getAccess
  let pageAddr := alignDown faultAddr v.pageBytes
  let pageIdx := add64 v.objectOffset (sub64 pageAddr v.start / v.pageBytes)
  let found := (s.pagemap m).translate pageAddr
  let s := s.setArea vma { v with faultCount := (v.faultCount + 1) % 2 ^ 32 }
  let writable := found.any fun t => t.flags.has .write
  if isWrite && access.has .copyOnWrite && !writable then
    match m.resolveCowFault obj pageIdx with
    | (.error e, m) => (.error e, m, s)
    | (.ok privatePage, m) =>
      let flags := access &&& ~~~AccessFlags.copyOnWrite
      if found.isSome then
        let (r, m) := remapPage m s vma pageAddr privatePage flags
        (r, m, s)
      else
        let (r, m) := mapPage m s vma pageAddr privatePage flags
        (tolerateRace r, m, s)
  else if found.isSome then
    -- somebody was faster, or the TLB is behind
    if isWrite && !writable then (.error .memoryProtectionFault, m, s) else (.ok (), m, s)
  else
    match m.getPage obj pageIdx with
    | (.error e, m) => (.error e, m, s)
    | (.ok page, m) =>
      let (r, m) := mapPage m s vma pageAddr page access
      (tolerateRace r, m, s)

/-- `resolve_vma_fault_locked`. -/
def resolveVmaFaultLocked (m : Memory) (s : AddressSpace) (vma faultAddr : Nat)
    (faultType : AccessFlags) : Except Error Unit × Memory × AddressSpace :=
  if refuses (s.area vma).flags.getAccess faultType then
    (.error .securityViolation, m, s)
  else
    match (s.area vma).vmObject with
    -- wired areas are mapped up front
    | none => (.error .notMapped, m, s)
    | some obj => resolveAllowed m s vma obj faultAddr (faultType.has .write)

/-- The area behind the last one that starts at or below the address. -/
def nextAbove (s : AddressSpace) (addr : Nat) : Option Nat :=
  match KeyMap.floor addr s.tree with
  | some (_, floor) => s.links.next floor
  | none => s.ends.head

/-- `expand_stack_locked`. -/
def expandStackLocked (m : Memory) (s : AddressSpace) (faultAddr : Nat) :
    Except Error Nat × Memory × AddressSpace :=
  match s.findVma faultAddr with
  | some vma => (.ok vma, m, s)
  | none =>
    match s.nextAbove faultAddr with
    | none => (.error .notMapped, m, s)
    | some stack =>
      let v := s.area stack
      if !v.flags.getAccess.has .stack then
        (.error .notMapped, m, s)
      else
        let newStart := alignDown faultAddr v.pageBytes
        let growth := (v.start - newStart) / v.pageBytes
        if maxStackBytes < v.stop - newStart ∨ v.objectOffset < growth ∨
            (KeyMap.floor faultAddr s.tree).any (fun e => newStart < (s.area e.2).stop) then
          (.error .stackOverflow, m, s)
        else
          match m.grant with
          | (false, m) => (.error .outOfMemory, m, s)
          | (true, m) =>
            (.ok stack, m,
              { s.setArea stack { v with
                start := newStart, objectOffset := v.objectOffset - growth } with
                tree := KeyMap.erase v.start (KeyMap.insert newStart stack s.tree) })

/-- `handle_page_fault`. -/
def handlePageFault (m : Memory) (s : AddressSpace) (faultAddr : Nat) (faultType : AccessFlags) :
    Except Error Unit × Memory × AddressSpace :=
  match s.findVma faultAddr with
  | some vma => resolveVmaFaultLocked m s vma faultAddr faultType
  | none =>
    if (s.nextAbove faultAddr).any fun next => (s.area next).flags.getAccess.has .stack then
      match expandStackLocked m s faultAddr with
      | (.error e, m, s) => (.error e, m, s)
      | (.ok stack, m, s) => resolveVmaFaultLocked m s stack faultAddr faultType
    else
      (.error .notMapped, m, s)

/-! ## Attributes -/

/-- What `protect` makes of the access flags of an area. -/
def updatedAccess (newFlags old : AccessFlags) : AccessFlags :=
  (old &&& ~~~AccessFlags.protectionFlags) ||| (newFlags &&& AccessFlags.protectionFlags)

/-- What is done to an area of a range: the loop goes on, or ends with a result, and the area counts
as the last one of those to be merged or not. -/
abbrev AreaStep := Nat → Memory → AddressSpace →
  (Memory × AddressSpace) ⊕ (Except Error Unit × Bool × Memory × AddressSpace)

/-- The loop of the three functions on a range; with its result comes the last area that was
changed. -/
def sweepAreas (step : AreaStep) (stop : Nat) :
    List Nat → Memory → AddressSpace → Option Nat →
    Except Error Unit × Option Nat × Memory × AddressSpace
  | [], m, s, last => (.ok (), last, m, s)
  | vma :: rest, m, s, last =>
    if (s.area vma).start < stop then
      match step vma m s with
      | .inl (m, s) => sweepAreas step stop rest m s (some vma)
      | .inr (r, counts, m, s) => (r, if counts then some vma else last, m, s)
    else
      (.ok (), last, m, s)

/-- One area, for `protect`. -/
def protectArea (newFlags : AccessFlags) : AreaStep := fun vma m s =>
  let v := s.area vma
  let updated := updatedAccess newFlags v.flags.getAccess
  -- page tables first
  match (s.pagemap m).protectVirtualRange v.start v.sizeBytes updated with
  | none => .inr (.ok (), false, m.fail .endlessLoop, s)
  | some (.error e, pagemap) => .inr (.error e, false, m.setTables pagemap, s)
  | some (.ok _, pagemap) =>
    .inl (m.setTables pagemap, s.setArea vma { v with flags := v.flags.setAccess updated })

/-- The frame the three functions on a range have in common. -/
def onRange (m : Memory) (s : AddressSpace) (addr size : Nat) (step : AreaStep) :
    Except Error Unit × Memory × AddressSpace :=
  if !isAligned addr pageSize || !isAligned size pageSize then
    (.error .invalidAlignment, m, s)
  else if size = 0 then
    (.ok (), m, s)
  else
    let stop := add64 addr size
    match isolateRange m s addr stop with
    | (.error e, m, s) => (.error e, m, s)
    | (.ok first, m, s) =>
      let (result, last, m, s) := sweepAreas step stop (s.following (some first)) m s none
      let (m, s) := coalesceRange m s last addr
      (result, m, s)

/-- `protect`. -/
def protect (m : Memory) (s : AddressSpace) (addr size : Nat) (newFlags : AccessFlags) :
    Except Error Unit × Memory × AddressSpace :=
  onRange m s addr size (protectArea newFlags)

/-- The kind of fault that fills the pages of an area. -/
def fillType (access : AccessFlags) : AccessFlags := if access.has .write then .write else .read

/-- A page of an area that `lock_memory` faults in. -/
def lockPage (vma : Nat) (v : VMArea) (i : Nat) (x : Memory × AddressSpace) :
    (Memory × AddressSpace) ⊕ (Error × Memory × AddressSpace) :=
  let page := v.start + i * v.pageBytes
  if ((x.2.pagemap x.1).translate page).isSome then
    .inl x
  else
    match resolveVmaFaultLocked x.1 x.2 vma page (fillType v.flags.getAccess) with
    | (.ok _, m, s) => .inl (m, s)
    | (.error e, m, s) => .inr (e, m, s)

/-- The pages of an area that `lock_memory` faults in. -/
def lockPages (m : Memory) (s : AddressSpace) (vma : Nat) :
    Except Error Unit × Memory × AddressSpace :=
  let v := s.area vma
  match Loop.upTo (lockPage vma v) ((v.sizeBytes + (v.pageBytes - 1)) / v.pageBytes) (m, s) with
  | .inl (m, s) => (.ok (), m, s)
  | .inr (e, m, s) => (.error e, m, s)

def setIsLocked (s : AddressSpace) (vma : Nat) (isLocked : Bool) : AddressSpace :=
  let v := s.area vma
  s.setArea vma { v with flags := { v.flags with isLocked := isLocked } }

/-- One area, for `lock_memory`. -/
def lockArea : AreaStep := fun vma m s =>
  let s := s.setIsLocked vma true
  if (s.area vma).vmObject = none then
    .inl (m, s)
  else
    match lockPages m s vma with
    | (.ok _, m, s) => .inl (m, s)
    | (.error e, m, s) => .inr (.error e, true, m, s)

/-- `lock_memory`. -/
def lockMemory (m : Memory) (s : AddressSpace) (addr size : Nat) :
    Except Error Unit × Memory × AddressSpace :=
  onRange m s addr size lockArea

/-- One area, for `unlock_memory`. -/
def unlockArea : AreaStep := fun vma m s => .inl (m, s.setIsLocked vma false)

/-- `unlock_memory`. -/
def unlockMemory (m : Memory) (s : AddressSpace) (addr size : Nat) :
    Except Error Unit × Memory × AddressSpace :=
  onRange m s addr size unlockArea

/-- `evict_page`. -/
def evictPage (m : Memory) (s : AddressSpace) (addr : Nat) :
    Except Error Unit × Memory × AddressSpace :=
  match s.findVma addr with
  | none => (.error .notMapped, m, s)
  | some vma =>
    let v := s.area vma
    if v.flags.isWired || v.flags.isLocked then
      (.error .securityViolation, m, s)
    else
      match (s.pagemap m).unmapRange (alignDown addr v.pageBytes) v.pageBytes with
      | none => (.ok (), m.fail .endlessLoop, s)
      | some (r, pagemap) => (r, m.setTables pagemap, s)

end AddressSpace

end Erebus.Vmm
