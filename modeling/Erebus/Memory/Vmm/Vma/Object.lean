import Erebus.Lib.RefCount
import Erebus.Memory.Vmm.PageMap.Model

/-!
# VM objects

`VMObject`, the backing store of one or more areas, and the memory it comes from.

* `Memory`: the objects, the descriptors and the pages that are in use, the page tables of all
  address spaces, and what the allocators will answer: each entry of `grants` is the answer of a
  slab cache or of the heap, each entry of `frames` that of the physical allocator.
* `Memory.fault`: the first thing the code did that it must not do.
* `lookupLocal`, `lookupInherited`, `install`, `createShadowClone`, `getPage`, `resolveCowFault`:
  `vm_object.cpp`.

The count and the shadow parent of an object are those of a counted cell. What is stored in the
pages is left out.
-/

namespace Erebus.Vmm

open RefCount

/-- `VMAType`. -/
inductive VMAType where
  | anonymous
  | fileBacked
  | sharedIPC
  | hardwareMmio
  deriving DecidableEq, Repr

/-- `get_page_order`. -/
def getPageOrder (size : PageSize) : Nat := (size.level - 1) * 9

/-- `get_page_bytes`. -/
def getPageBytes (size : PageSize) : Nat := pageSize <<< getPageOrder size

/-- What a `VMObject`, a `Cell` of the store, has besides its count and its shadow parent; `pages`
is `m_pages`, a physical address for each page offset. -/
structure Backing where
  type : VMAType
  pageSize : PageSize
  maxPages : Nat
  pages : List (Nat × Nat) := []

/-- What ends the kernel, or ought to. -/
inductive Fault where
  | nullPointer
  | deadObject
  | doubleFree
  | endlessLoop
  deriving DecidableEq, Repr

/-- The memory all address spaces share; `tables` is the kernel's page map, whose upper half is that
of every other. -/
structure Memory where
  tables : PageMap
  objects : Heap Backing := []
  areas : List Nat := []
  nextArea : Nat := 0
  held : List (Nat × PageSize) := []
  grants : List Bool := []
  frames : List (Option Nat) := []
  dice : List Nat := []
  numaNode : Nat := 0
  fault : Option Fault := none

namespace Memory

/-- Only the first fault counts. -/
def fail (m : Memory) (f : Fault) : Memory := { m with fault := m.fault.or (some f) }

/-- The page map with a root table. -/
def pagemap (m : Memory) (root : Nat) : PageMap := { m.tables with root := root }

/-- What a page map left in the tables. -/
def setTables (m : Memory) (p : PageMap) :
    Memory := { m with tables := { p with root := m.tables.root } }

/-! ## Allocators -/

/-- Whether the heap, a cache or a table that has to grow gets its memory. -/
def grant (m : Memory) : Bool × Memory :=
  match m.grants with
  | [] => (false, m)
  | answer :: rest => (answer, { m with grants := rest })

/-- `crypto::random::below`. -/
def randomBelow (m : Memory) (limit : Nat) : Nat × Memory :=
  match m.dice with
  | [] => (0, m)
  | roll :: rest => (roll % limit, { m with dice := rest })

/-- `AddressSpace::allocate_vma`: where the new descriptor is. -/
def allocateVma (m : Memory) : Option Nat × Memory :=
  match m.grant with
  | (false, m) => (none, m)
  | (true, m) =>
    (some m.nextArea, { m with areas := m.nextArea :: m.areas, nextArea := m.nextArea + 1 })

/-- `AddressSpace::release_vma`. -/
def releaseVma (m : Memory) (vma : Nat) : Memory := { m with areas := m.areas.erase vma }

/-- The two blocks have no byte in common. -/
def Apart (a b : Nat × PageSize) : Prop :=
  a.1 + getPageBytes a.2 ≤ b.1 ∨ b.1 + getPageBytes b.2 ≤ a.1

instance (a b : Nat × PageSize) : Decidable (Apart a b) := by
  unfold Apart
  infer_instance

/-- `pmm::alloc_pages`, for a page of a size. -/
def allocPages (m : Memory) (size : PageSize) : Option Nat × Memory :=
  match m.frames with
  | some phys :: rest =>
    -- it hands out aligned memory that nobody has
    if phys % getPageBytes size = 0 ∧ phys + getPageBytes size ≤ 2 ^ 52 ∧
      ∀ b ∈ m.held, Apart (phys, size) b then
      (some phys, { m with held := (phys, size) :: m.held, frames := rest })
    else
      (none, { m with frames := rest })
  | none :: rest => (none, { m with frames := rest })
  | [] => (none, m)

/-- `pmm::free_pages`. -/
def freePages (m : Memory) (block : Nat × PageSize) : Memory :=
  if block ∈ m.held then { m with held := m.held.erase block } else m.fail .doubleFree

/-! ## References -/

/-- `VMObject::create`. -/
def createObject (m : Memory) (shadowParent : Option Nat) (type : VMAType) (size : PageSize)
    (maxPages : Nat) : Option Nat × Memory :=
  match m.grant with
  | (false, m) => (none, m)
  | (true, m) =>
    let (o, objects) := m.objects.create shadowParent ⟨type, size, maxPages, []⟩
    (some o, { m with objects := objects })

/-- `VMObject::add_ref`. -/
def addRef (m : Memory) (o : Nat) : Memory :=
  match m.objects.addRef o with
  | none => m.fail .deadObject
  | some objects => { m with objects := objects }

/-- The pages of an object go back. -/
def freeBacking (m : Memory) (b : Backing) : Memory :=
  b.pages.foldl (fun m page => m.freePages (page.2, b.pageSize)) m

/-- `VMObject::drop_ref`, with `~VMObject` for every object that loses its last reference. -/
def dropRef (m : Memory) (o : Nat) : Memory :=
  match m.objects.dropRef o with
  | none => m.fail .deadObject
  | some (objects, gone) => gone.foldl freeBacking { m with objects := objects }

/-! ## Pages -/

/-- Another page table of pages for an object. -/
def setBacking (m : Memory) (o : Nat) (f : Backing → Backing) : Memory :=
  match m.objects.cell o with
  | none => m.fail .deadObject
  | some obj => { m with objects := m.objects.set o (some { obj with body := f obj.body }) }

/-- `VMObject::expand_max_pages`. -/
def expandMaxPages (m : Memory) (o newMaxPages : Nat) : Memory :=
  m.setBacking o fun b => { b with maxPages := max b.maxPages newMaxPages }

/-- `VMObject::lookup_local`. -/
def lookupLocal (m : Memory) (o pageOffset : Nat) : Option Nat :=
  (m.objects.cell o).bind fun obj => obj.body.pages.lookup pageOffset

/-- `m_shadow_parent`. -/
def shadowParent (m : Memory) (o : Nat) : Option Nat := (m.objects.cell o).bind Cell.link

/-- The page of the first of the objects on the way from `obj` to the end of the chain that has
one. -/
def inheritedFrom (m : Memory) (pageOffset : Nat) : Nat → Option Nat → Option Nat
  | fuel + 1, some obj =>
    match m.lookupLocal obj pageOffset with
    | some page => some page
    | none => inheritedFrom m pageOffset fuel (m.shadowParent obj)
  | _, _ => none

/-- `VMObject::lookup_inherited`. -/
def lookupInherited (m : Memory) (o pageOffset : Nat) : Option Nat :=
  m.inheritedFrom pageOffset o (m.shadowParent o)

/-- `VMObject::install`. A page whose offset is taken, or for which the map cannot grow, goes
back. -/
def install (m : Memory) (o pageOffset page : Nat) : Except Error Nat × Memory :=
  match m.objects.cell o with
  | none => (.error .outOfMemory, m.fail .deadObject)
  | some obj =>
    match m.grant with
    | (grown, m) =>
      if grown && (m.lookupLocal o pageOffset).isNone then
        (.ok page, m.setBacking o fun b => { b with pages := (pageOffset, page) :: b.pages })
      else
        let m := m.freePages (page, obj.body.pageSize)
        match m.lookupLocal o pageOffset with
        | some existing => (.ok existing, m)
        | none => (.error .outOfMemory, m)

/-- `VMObject::create_shadow_clone`. -/
def createShadowClone (m : Memory) (o : Nat) : Option Nat × Memory :=
  match m.objects.cell o with
  | none => (none, m.fail .deadObject)
  | some obj =>
    match m.grant with
    | (false, m) => (none, m)
    | (true, m) =>
      let m := m.addRef o
      let (clone, objects) :=
        m.objects.create (some o) ⟨obj.body.type, obj.body.pageSize, obj.body.maxPages, []⟩
      (some clone, { m with objects := objects })

/-- `VMObject::get_page`. -/
def getPage (m : Memory) (o pageOffset : Nat) : Except Error Nat × Memory :=
  match m.objects.cell o with
  | none => (.error .outOfMemory, m.fail .deadObject)
  | some obj =>
    if obj.body.maxPages ≤ pageOffset then
      (.error .outOfBounds, m)
    else
      match m.lookupLocal o pageOffset with
      | some page => (.ok page, m)
      | none =>
        match m.lookupInherited o pageOffset with
        | some page => (.ok page, m)
        | none =>
          if obj.body.type ≠ .anonymous then
            (.error .notImplemented, m)
          else
            match m.allocPages obj.body.pageSize with
            | (none, m) => (.error .outOfMemory, m)
            | (some phys, m) => m.install o pageOffset phys

/-- `VMObject::resolve_cow_fault`. -/
def resolveCowFault (m : Memory) (o pageOffset : Nat) : Except Error Nat × Memory :=
  match m.objects.cell o with
  | none => (.error .outOfMemory, m.fail .deadObject)
  | some obj =>
    if obj.body.maxPages ≤ pageOffset then
      (.error .outOfBounds, m)
    else
      match m.lookupLocal o pageOffset with
      | some page => (.ok page, m)
      | none =>
        match m.allocPages obj.body.pageSize with
        | (none, m) => (.error .outOfMemory, m)
        -- the page of an ancestor is copied there, or zeroes
        | (some newPhys, m) => m.install o pageOffset newPhys

end Memory

end Erebus.Vmm
