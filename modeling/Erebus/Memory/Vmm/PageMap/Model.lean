import Erebus.Lib.Loop
import Erebus.Memory.Vmm.PageMap.Entry

/-!
# The page map

`PageMap` as the code has it: a root table, tables in memory that refer to each other by frame
number, and the physical allocator the tables come from. One CPU runs at a time, so a
compare-and-swap on the value just read succeeds.

* `PageMap.outcomes`: what the physical allocator answers, call by call: nothing, or one of the free
  frames.
* `PageMap.trace`: the stores to table memory and the TLB invalidations, newest first.
* `walk`, `probe`, `translate`, `shatterHugePage`: `walk.cpp`.
* `map`, `mapRange`: `map.cpp`; `unmap`, `unmapRange`: `unmap.cpp`.
* `remap`, `writeProtectRange`, and `remapRange`, `protectVirtualRange` with their undo log:
  `remap.cpp`; `aliasVirtualRange`, `moveVirtualRange`: `alias.cpp`.

A range operation is a loop; `none` would be a loop that ran out of rounds.
-/

namespace Erebus.Vmm

open PTEntry

/-- A pointer to an entry: the frame of its table, and its slot there. -/
structure Loc where
  frame : Nat
  slot : Nat
  deriving DecidableEq, Repr

/-- `pte + i`. -/
def Loc.at (p : Loc) (i : Nat) : Loc := ⟨p.frame, p.slot + i⟩

/-- What other CPUs can observe, with the tables as they are then: a store, or an invalidation. -/
inductive Event where
  | tables (mem : Nat → Nat → PTEntry)
  | broadcast (mem : Nat → Nat → PTEntry) (virt size : Nat) (stride : PageSize)

/-- A page map, the memory its tables lie in and the allocator they come from. -/
structure PageMap where
  feat : PagingFeatures
  root : Nat
  mem : Nat → Nat → PTEntry := fun _ _ => 0
  free : List Nat := []
  outcomes : List (Option Nat) := []
  trace : List Event := []

/-- `TranslationResult`. -/
structure TranslationResult where
  physAddress : Nat
  flags : AccessFlags
  cache : CacheMode
  mappedSize : PageSize
  pkey : Nat
  deriving DecidableEq, Repr

/-- `PageMap::Probe`. -/
structure Probe where
  entry : Loc
  level : Nat
  value : PTEntry

/-- 64-bit addition. -/
def add64 (a b : Nat) : Nat := (a + b) % 2 ^ 64

/-- `MAX_PAGE_ENTRIES`. -/
def maxPageEntries : Nat := 512

/-- `table_index`. -/
def tableIndex (virt lvl : Nat) : Nat := (virt >>> (12 + 9 * (lvl - 1))) &&& 0x1FF

/-- `&table[table_index(virt, lvl)]`, for the table in a frame. -/
def slotOf (virt lvl table : Nat) : Loc := ⟨table, tableIndex virt lvl⟩

/-- `next_table`, as a frame number. -/
def nextTable (directory : PTEntry) : Nat := directory.pfn4k

/-- Enough rounds for a loop over `size` bytes: each page is split at most twice before it is
passed. -/
def rounds (size : Nat) : Nat := 4 * (size / pageSize) + 4

namespace PageMap

/-! ## Memory and the allocator -/

def load (s : PageMap) (p : Loc) : PTEntry := s.mem p.frame p.slot

def setMem (s : PageMap) (mem : Nat → Nat → PTEntry) : PageMap :=
  { s with mem := mem, trace := .tables mem :: s.trace }

/-- A store, and a compare-and-swap that succeeds. -/
def store (s : PageMap) (p : Loc) (e : PTEntry) : PageMap :=
  s.setMem (Function.update s.mem p.frame (Function.update (s.mem p.frame) p.slot e))

/-- All slots of a table at once, while nothing refers to it yet. -/
def fillTable (s : PageMap) (frame : Nat) (slots : Nat → PTEntry) : PageMap :=
  s.setMem (Function.update s.mem frame slots)

/-- `ShootdownCoordinator::broadcast`. -/
def broadcast (s : PageMap) (virt size : Nat) (stride : PageSize) : PageMap :=
  if size = 0 then s else { s with trace := .broadcast s.mem virt size stride :: s.trace }

/-- `pmm::alloc_pages` of one page. -/
def allocPages (s : PageMap) : Option Nat × PageMap :=
  match s.outcomes with
  | some frame :: rest =>
    if frame ∈ s.free then
      (some frame, { s with free := s.free.erase frame, outcomes := rest })
    else
      (none, { s with outcomes := rest })
  | none :: rest => (none, { s with outcomes := rest })
  | [] => (none, s)

/-- `pmm::alloc_pages_zeroed` of one page. -/
def allocPagesZeroed (s : PageMap) : Option Nat × PageMap :=
  match s.allocPages with
  | (some frame, s) => (some frame, s.fillTable frame fun _ => 0)
  | (none, s) => (none, s)

/-- `pmm::free_pages` of one page. -/
def freePages (s : PageMap) (frame : Nat) : PageMap := { s with free := frame :: s.free }

/-! ## Walking -/

/-- The descent of `probe` from the table `table` of a level. -/
def probeFrom (s : PageMap) (virt : Nat) : Nat → Nat → Probe
  | 0, table => ⟨⟨table, 0⟩, 0, 0⟩
  | lvl + 1, table =>
    let pte := slotOf virt (lvl + 1) table
    let value := s.load pte
    -- the page-size bit only means "leaf" up to level 3
    let leaf := lvl + 1 = 1 || (lvl + 1 ≤ 3 && value.huge)
    if !value.present || leaf then
      ⟨pte, lvl + 1, value⟩
    else
      probeFrom s virt lvl (nextTable value)

/-- `PageMap::probe`. -/
def probe (s : PageMap) (virt : Nat) : Probe := s.probeFrom virt s.feat.levels s.root

end PageMap

/-- What a present leaf of a level says about an address below it. -/
def interpret (level : Nat) (value : PTEntry) (virt : Nat) : Option TranslationResult :=
  let mappedSize := PageSize.ofLevel level
  match extractAddress value mappedSize with
  | none => none
  | some basePhys =>
    some
      { physAddress := add64 basePhys (virt % sizeToBytes mappedSize)
        flags := extractFlags value
        cache := extractCache value (1 < level)
        mappedSize := mappedSize
        pkey := value.pkey }

namespace PageMap

/-- `PageMap::translate`. -/
def translate (s : PageMap) (virt : Nat) : Option TranslationResult :=
  let p := s.probe virt
  if p.value.present then interpret p.level p.value virt else none

/-- The small leaf that stands for the part `i` of a huge one. -/
def shatteredChild (feat : PagingFeatures) (old : PTEntry) (basePhys : Nat) (nextSize : PageSize)
    (i : Nat) : PTEntry :=
  buildSchema feat (add64 basePhys (i * sizeToBytes nextSize)) (extractFlags old)
    (extractCache old true) nextSize old.pkey
    |> setAccessed old.accessed
    |> setDirty old.dirty

/-- `PageMap::shatter_huge_page`. -/
def shatterHugePage (s : PageMap) (pte : Loc) (virt currLvl : Nat) : Except Error Unit × PageMap :=
  let old := s.load pte
  if !old.present || !old.huge then
    (.ok (), s)
  else if currLvl ≠ 3 ∧ currLvl ≠ 2 then
    (.error .invalidFlags, s)
  else
    let currSize := if currLvl = 3 then PageSize.size1G else .size2M
    let nextSize := if currLvl = 3 then PageSize.size2M else .size4K
    match extractAddress old currSize with
    | none => (.error .notMapped, s)
    | some basePhys =>
      match s.allocPagesZeroed with
      | (none, s) => (.error .outOfMemory, s)
      | (some newTable, s) =>
        let s := s.fillTable newTable (shatteredChild s.feat old basePhys nextSize)
        let s := s.store pte (buildDirectory (newTable <<< 12) (!isUpperHalf virt))
        let size := sizeToBytes currSize
        (.ok (), s.broadcast (virt - virt % size) size currSize)

/-- The descent of `walk` from the table `table` of a level. -/
def walkFrom (virt : Nat) (alloc : Bool) (targetLvl : Nat) :
    Nat → Nat → PageMap → Except Error Loc × PageMap
  | 0, table, s => (.ok (slotOf virt targetLvl table), s)
  | lvl + 1, table, s =>
    if targetLvl < lvl + 1 then
      let pte := slotOf virt (lvl + 1) table
      let schema := s.load pte
      if !schema.present then
        if !alloc then
          (.error .notMapped, s)
        else
          match s.allocPagesZeroed with
          | (none, s) => (.error .outOfMemory, s)
          | (some newPhys, s) =>
            walkFrom virt alloc targetLvl lvl newPhys
              (s.store pte (buildDirectory (newPhys <<< 12) (!isUpperHalf virt)))
      else if schema.huge then
        match s.shatterHugePage pte virt (lvl + 1) with
        | (.error e, s) => (.error e, s)
        -- the entry is looked at again, and refers to a table now
        | (.ok _, s) => walkFrom virt alloc targetLvl lvl (nextTable (s.load pte)) s
      else
        walkFrom virt alloc targetLvl lvl (nextTable schema) s
    else
      (.ok (slotOf virt targetLvl table), s)

/-- `PageMap::walk`. -/
def walk (s : PageMap) (virt : Nat) (alloc : Bool) (targetSize : PageSize) :
    Except Error Loc × PageMap :=
  walkFrom virt alloc targetSize.level s.feat.levels s.root s

/-! ## Unmapping -/

/-- `PageMap::unmap_1gb_as_2mb`. -/
def unmap1gbAs2mb (s : PageMap) (virt : Nat) : Except Error Nat × PageMap :=
  if !isAligned virt (sizeToBytes .size1G) then
    (.error .invalidAlignment, s)
  else
    match s.walk virt false .size1G with
    | (.error e, s) => (.error e, s)
    | (.ok pdpte, s) =>
      let expected := s.load pdpte
      if !expected.present then
        (.error .notMapped, s)
      else if expected.huge then
        (.error .invalidFlags, s)
      else
        let s := s.store pdpte 0
        let s := s.broadcast virt (sizeToBytes .size1G) .size2M
        let pd := nextTable expected
        let first := s.load ⟨pd, 0⟩
        let basePhys :=
          match extractAddress first .size2M with
          | some base => if first.present then base else 0
          | none => 0
        (.ok basePhys, s.freePages pd)

/-- `PageMap::unmap`. -/
def unmap (s : PageMap) (virt : Nat) (size : PageSize) : Except Error Nat × PageMap :=
  if !isAligned virt (sizeToBytes size) then
    (.error .invalidAlignment, s)
  else if size = .size1G ∧ !s.feat.huge1g then
    s.unmap1gbAs2mb virt
  else
    match s.walk virt false size with
    | (.error e, s) => (.error e, s)
    | (.ok pte, s) =>
      let expected := s.load pte
      if !expected.present then
        (.error .notMapped, s)
      else
        let s := s.store pte 0
        let s := s.broadcast virt (sizeToBytes size) size
        match extractAddress expected size with
        | none => (.error .notMapped, s)
        | some addr => (.ok addr, s)

/-- One slot of the page table that `unmap_range` clears. -/
def clearSlot (entry : Loc) (i : Nat) (st : PageMap × Bool) : PageMap × Bool :=
  if (st.1.load (entry.at i)).present then (st.1.store (entry.at i) 0, true) else st

/-- One round of `unmap_range`: the map, the current address, and whether anything was cleared. -/
def unmapRound (endVirt : Nat) (st : PageMap × Nat × Bool) :
    (PageMap × Nat × Bool) ⊕ (Except Error Bool × PageMap) :=
  let (s, curr, clearedAny) := st
  if curr < endVirt then
    let remaining := endVirt - curr
    let p := s.probe curr
    let coverage := levelCoverage p.level
    if !p.value.present then
      .inl (s, add64 curr (min remaining (coverage - curr % coverage)), clearedAny)
    else if 1 < p.level then
      if isAligned curr coverage && coverage ≤ remaining then
        .inl (s.store p.entry 0, add64 curr coverage, true)
      else
        match s.walk curr false (PageSize.ofLevel (p.level - 1)) with
        | (.error e, s) => .inr (.error e, s)
        | (.ok _, s) => .inl (s, curr, clearedAny)
    else
      let batchBytes := min remaining (sizeToBytes .size2M - curr % sizeToBytes .size2M)
      let (s, clearedAny) := Loop.times (clearSlot p.entry) (batchBytes / pageSize) (s, clearedAny)
      .inl (s, add64 curr batchBytes, clearedAny)
  else
    .inr (.ok clearedAny, s)

/-- `PageMap::unmap_range`. -/
def unmapRange (s : PageMap) (startVirt size : Nat) : Option (Except Error Unit × PageMap) :=
  if !isAligned startVirt pageSize || !isAligned size pageSize then
    some (.error .invalidAlignment, s)
  else
    match Loop.run (unmapRound (add64 startVirt size)) (rounds size) (s, startVirt, false) with
    | none => none
    | some (.error e, s) => some (.error e, s)
    | some (.ok true, s) => some (.ok (), s.broadcast startVirt size .size4K)
    | some (.ok false, s) => some (.ok (), s)

/-! ## Mapping -/

/-- `user_in_kernel_half`. -/
def userInKernelHalf (virt : Nat) (flags : AccessFlags) : Bool :=
  isUpperHalf virt && flags.has .user

/-- A slot of an existing directory in `map_1gb_as_2mb`; a slot in use undoes the ones before it. -/
def fillSlot (virt pd : Nat) (entryFor : Nat → PTEntry) (i : Nat) (s : PageMap) :
    PageMap ⊕ PageMap :=
  if (s.load ⟨pd, i⟩).present then
    .inr (Loop.times (fun j s => (s.unmap (add64 virt (j * sizeToBytes .size2M)) .size2M).2) i s)
  else
    .inl (s.store ⟨pd, i⟩ (entryFor i))

/-- `PageMap::map_1gb_as_2mb`. -/
def map1gbAs2mb (s : PageMap) (virt phys : Nat) (flags : AccessFlags) (cache : CacheMode)
    (pkey : Nat) : Except Error Unit × PageMap :=
  if !isAligned virt (sizeToBytes .size1G) || !isAligned phys (sizeToBytes .size1G) then
    (.error .invalidAlignment, s)
  else
    match s.walk virt true .size1G with
    | (.error e, s) => (.error e, s)
    | (.ok pdpte, s) =>
      let entryFor := fun i => buildSchema s.feat (add64 phys (i * sizeToBytes .size2M))
        (leafFlags virt flags) cache .size2M pkey
      let pdpteEntry := s.load pdpte
      if !pdpteEntry.present then
        match s.allocPagesZeroed with
        | (none, s) => (.error .outOfMemory, s)
        | (some pd, s) =>
          let s := s.fillTable pd entryFor
          (.ok (), s.store pdpte (buildDirectory (pd <<< 12) (!isUpperHalf virt)))
      else if pdpteEntry.huge then
        (.error .alreadyMapped, s)
      else
        match Loop.upTo (fillSlot virt (nextTable pdpteEntry) entryFor) maxPageEntries s with
        | .inl s => (.ok (), s)
        | .inr s => (.error .alreadyMapped, s)

/-- `PageMap::map`. -/
def map (s : PageMap) (virt phys : Nat) (flags : AccessFlags) (cache : CacheMode) (pkey : Nat)
    (size : PageSize) : Except Error Unit × PageMap :=
  if userInKernelHalf virt flags then
    (.error .securityViolation, s)
  else if !isAligned virt (sizeToBytes size) || !isAligned phys (sizeToBytes size) then
    (.error .invalidAlignment, s)
  else if size = .size1G ∧ !s.feat.huge1g then
    s.map1gbAs2mb virt phys flags cache pkey
  else
    match s.walk virt true size with
    | (.error e, s) => (.error e, s)
    | (.ok pte, s) =>
      let desired := buildSchema s.feat phys (leafFlags virt flags) cache size pkey
      if (s.load pte).present then
        (.error .alreadyMapped, s)
      else
        (.ok (), s.store pte desired)

/-- The biggest page both addresses are aligned for and that still fits. -/
def bestSize (currVirt currPhys remaining : Nat) : PageSize :=
  if sizeToBytes .size1G ≤ remaining ∧ isAligned currVirt (sizeToBytes .size1G) ∧
      isAligned currPhys (sizeToBytes .size1G) then
    .size1G
  else if sizeToBytes .size2M ≤ remaining ∧ isAligned currVirt (sizeToBytes .size2M) ∧
      isAligned currPhys (sizeToBytes .size2M) then
    .size2M
  else
    .size4K

/-- One 4 KiB slot of a batch of `map_range`; a slot in use ends the batch with the slots done. -/
def mapSlot (pte : Loc) (entryFor : Nat → PTEntry) (i : Nat) (s : PageMap) :
    PageMap ⊕ (Nat × PageMap) :=
  if (s.load (pte.at i)).present then .inr (i, s) else .inl (s.store (pte.at i) (entryFor i))

/-- What `map_range` was asked for. -/
structure MapRequest where
  startVirt : Nat
  flags : AccessFlags
  cache : CacheMode
  pkey : Nat

/-- One round of `map_range`: the map, the two current addresses and the bytes left. A failure
answers with the bytes that were left. -/
def mapRound (req : MapRequest) (st : PageMap × Nat × Nat × Nat) :
    (PageMap × Nat × Nat × Nat) ⊕ (Except (Error × Nat) Unit × PageMap) :=
  let (s, currVirt, currPhys, remaining) := st
  if 0 < remaining then
    let size := bestSize currVirt currPhys remaining
    if size ≠ .size4K then
      match s.map currVirt currPhys req.flags req.cache req.pkey size with
      | (.error e, s) => .inr (.error (e, remaining), s)
      | (.ok _, s) =>
        let bytes := sizeToBytes size
        .inl (s, add64 currVirt bytes, add64 currPhys bytes, remaining - bytes)
    else
      let batchBytes := min remaining (sizeToBytes .size2M - currVirt % sizeToBytes .size2M)
      match s.walk currVirt true .size4K with
      | (.error e, s) => .inr (.error (e, remaining), s)
      | (.ok pte, s) =>
        let entryFor := fun i => buildSchema s.feat (add64 currPhys (i * pageSize))
          (leafFlags req.startVirt req.flags) req.cache .size4K req.pkey
        match Loop.upTo (mapSlot pte entryFor) (batchBytes / pageSize) s with
        | .inr (i, s) => .inr (.error (.alreadyMapped, remaining - i * pageSize), s)
        | .inl s =>
          .inl (s, add64 currVirt batchBytes, add64 currPhys batchBytes, remaining - batchBytes)
  else
    .inr (.ok (), s)

/-- `PageMap::map_range`. -/
def mapRange (s : PageMap) (startVirt startPhys size : Nat) (flags : AccessFlags)
    (cache : CacheMode) (pkey : Nat) : Option (Except Error Unit × PageMap) :=
  if userInKernelHalf startVirt flags then
    some (.error .securityViolation, s)
  else if !isAligned startVirt pageSize || !isAligned startPhys pageSize ||
    !isAligned size pageSize then
    some (.error .invalidAlignment, s)
  else
    match Loop.run (mapRound ⟨startVirt, flags, cache, pkey⟩) (rounds size)
      (s, startVirt, startPhys, size) with
    | none => none
    | some (.ok _, s) => some (.ok (), s)
    -- everything mapped so far is undone
    | some (.error (e, remaining), s) =>
      match s.unmapRange startVirt (size - remaining) with
      | none => none
      | some (_, s) => some (.error e, s)

/-! ## Remapping a page -/

/-- `PageMap::remap_1gb_as_2mb`. -/
def remap1gbAs2mb (s : PageMap) (virt newPhys : Nat) (flags : AccessFlags) (cache : CacheMode)
    (pkey : Nat) : Except Error Unit × PageMap :=
  if !isAligned virt (sizeToBytes .size1G) || !isAligned newPhys (sizeToBytes .size1G) then
    (.error .invalidAlignment, s)
  else
    match s.walk virt false .size1G with
    | (.error e, s) => (.error e, s)
    | (.ok pdpte, s) =>
      match s.allocPagesZeroed with
      | (none, s) => (.error .outOfMemory, s)
      | (some newPd, s) =>
        let s :=
          s.fillTable newPd fun i => buildSchema s.feat (add64 newPhys (i * sizeToBytes .size2M))
          (leafFlags virt flags) cache .size2M pkey
        let expected := s.load pdpte
        if !expected.present then
          (.error .notMapped, s.freePages newPd)
        else if expected.huge then
          (.error .invalidFlags, s.freePages newPd)
        else
          let s := s.store pdpte (buildDirectory (newPd <<< 12) (!isUpperHalf virt))
          let s := s.broadcast virt (sizeToBytes .size1G) .size2M
          (.ok (), s.freePages (nextTable expected))

/-- `PageMap::remap`. -/
def remap (s : PageMap) (virt newPhys : Nat) (flags : AccessFlags) (cache : CacheMode) (pkey : Nat)
    (size : PageSize) : Except Error Unit × PageMap :=
  if isUpperHalf virt && flags.has .user then
    (.error .securityViolation, s)
  else if !isAligned virt (sizeToBytes size) || !isAligned newPhys (sizeToBytes size) then
    (.error .invalidAlignment, s)
  else if size = .size1G ∧ !s.feat.huge1g then
    s.remap1gbAs2mb virt newPhys flags cache pkey
  else
    match s.walk virt false size with
    | (.error e, s) => (.error e, s)
    | (.ok pte, s) =>
      let desired := buildSchema s.feat newPhys (leafFlags virt flags) cache size pkey
      if !(s.load pte).present then
        (.error .notMapped, s)
      else
        (.ok (), (s.store pte desired).broadcast virt (sizeToBytes size) size)

end PageMap

/-! ## The undo log -/

/-- `MAX_LOG_PTES`. -/
def maxLogPtes : Nat := 508

/-- `UndoLogNode`: original entries of consecutive slots of one table, from `baseVirt` on. -/
structure UndoLogNode where
  page : Nat
  baseVirt : Nat
  pageSize : PageSize
  originalPtes : List PTEntry

/-- `RollbackGuard`, its log newest first. -/
structure RollbackGuard where
  startVirt : Nat
  log : List UndoLogNode := []
  attemptedBytes : Nat := 0

namespace PageMap

/-- Put the entries of one log node back. -/
def restoreNode (s : PageMap) (node : UndoLogNode) : PageMap :=
  if node.originalPtes.length = 0 then
    s
  else
    match s.walk node.baseVirt false node.pageSize with
    | (.error _, s) => s
    | (.ok pte, s) =>
      Loop.times (fun i s => s.store (pte.at i) (node.originalPtes.getD i 0))
        node.originalPtes.length s

/-- The pages of the log go back to the allocator. -/
def freeLog (s : PageMap) (g : RollbackGuard) : PageMap :=
  g.log.foldl (fun s node => s.freePages node.page) s

/-- `~RollbackGuard` after a failure. -/
def rollback (s : PageMap) (g : RollbackGuard) : PageMap :=
  let s := if g.log.isEmpty then s
    else let s := g.log.foldl restoreNode s
    if 0 < g.attemptedBytes then s.broadcast g.startVirt g.attemptedBytes .size4K else s
  s.freeLog g

/-! ## Changing mappings -/

/-- The page size `remap_range` works with: the mapped one, where the new range is aligned for
it. -/
def remapSize (mapped : PageSize) (currVirt currPhys remaining : Nat) : PageSize :=
  if PageSize.size1G.level ≤ mapped.level ∧ sizeToBytes .size1G ≤ remaining ∧
      isAligned currVirt (sizeToBytes .size1G) ∧ isAligned currPhys (sizeToBytes .size1G) then
    .size1G
  else if PageSize.size2M.level ≤ mapped.level ∧ sizeToBytes .size2M ≤ remaining ∧
      isAligned currVirt (sizeToBytes .size2M) ∧ isAligned currPhys (sizeToBytes .size2M) then
    .size2M
  else
    .size4K

/-- One slot of a batch of `remap_range`. It ends the batch with an error at a hole, and without one
at a slot that refers to a table. -/
def remapSlot (pte : Loc) (targetSize : PageSize) (entryFor : Nat → PTEntry) (i : Nat)
    (st : PageMap × List PTEntry) :
    (PageMap × List PTEntry) ⊕ (Option Error × PageMap × List PTEntry) :=
  let (s, logged) := st
  let expected := s.load (pte.at i)
  if !expected.present then
    .inr (some .notMapped, s, logged)
  else if targetSize ≠ .size4K ∧ !expected.huge then
    .inr (none, s, logged)
  else
    .inl (s.store (pte.at i) (entryFor i), logged ++ [expected])

/-- What a range operation was asked for, and where it stands. -/
structure RemapState where
  map : PageMap
  guard : RollbackGuard
  currVirt : Nat
  currPhys : Nat
  remaining : Nat

/-- One round of `remap_range`. -/
def remapRound (lflags : AccessFlags) (cache : CacheMode) (pkey : Nat) (st : RemapState) :
    RemapState ⊕ (Except Error Unit × PageMap × RollbackGuard) :=
  if 0 < st.remaining then
    match st.map.translate st.currVirt with
    | none => .inr (.error .notMapped, st.map, st.guard)
    | some found =>
      let targetSize := remapSize found.mappedSize st.currVirt st.currPhys st.remaining
      let stepSize := sizeToBytes targetSize
      let tableCoverage := levelCoverage (targetSize.level + 1)
      let batchBytes := min (min st.remaining (tableCoverage - st.currVirt % tableCoverage))
        (maxLogPtes * stepSize)
      match st.map.walk st.currVirt false targetSize with
      | (.error e, s) => .inr (.error e, s, st.guard)
      | (.ok pte, s) =>
        match s.allocPages with
        | (none, s) => .inr (.error .outOfMemory, s, st.guard)
        | (some page, s) =>
          let entryFor := fun i =>
            buildSchema s.feat (add64 st.currPhys (i * stepSize)) lflags cache targetSize pkey
          let withLog := fun logged =>
            { st.guard with log := ⟨page, st.currVirt, targetSize, logged⟩ :: st.guard.log }
          let next := fun (s : PageMap) (logged : List PTEntry) =>
            let done := logged.length * stepSize
            RemapState.mk s
              { withLog logged with attemptedBytes := st.guard.attemptedBytes + done }
              (add64 st.currVirt done) (add64 st.currPhys done) (st.remaining - done)
          match Loop.upTo (remapSlot pte targetSize entryFor) (batchBytes / stepSize) (s, []) with
          | .inr (some e, s, logged) => .inr (.error e, s, withLog logged)
          | .inr (none, s, logged) => .inl (next s logged)
          | .inl (s, logged) => .inl (next s logged)
  else
    .inr (.ok (), st.map, st.guard)

/-- The loop of `remap_range`, with the guard it leaves. -/
def remapLoop (s : PageMap) (startVirt startPhys size : Nat) (flags : AccessFlags)
    (cache : CacheMode) (pkey : Nat) : Option (Except Error Unit × PageMap × RollbackGuard) :=
  Loop.run (remapRound (leafFlags startVirt flags) cache pkey) (rounds size)
    ⟨s, ⟨startVirt, [], 0⟩, startVirt, startPhys, size⟩

/-- `PageMap::remap_range`. -/
def remapRange (s : PageMap) (startVirt startPhys size : Nat) (flags : AccessFlags)
    (cache : CacheMode) (pkey : Nat) : Option (Except Error Unit × PageMap) :=
  if isUpperHalf startVirt && flags.has .user then
    some (.error .securityViolation, s)
  else if !isAligned startVirt pageSize || !isAligned startPhys pageSize ||
    !isAligned size pageSize then
    some (.error .invalidAlignment, s)
  else
    match s.remapLoop startVirt startPhys size flags cache pkey with
    | none => none
    | some (.error e, s, guard) => some (.error e, s.rollback guard)
    | some (.ok _, s, guard) => some (.ok (), (s.broadcast startVirt size .size4K).freeLog guard)

/-- The permissions `protect_virtual_range` stores. -/
structure Protection where
  writable : Bool
  noExec : Bool
  user : Bool

/-- The entry `protect_virtual_range` stores. Write access to a copy-on-write page is granted by the
fault handler, after the copy. -/
def protectedEntry (prot : Protection) (expected : PTEntry) : PTEntry :=
  expected
    |> setRw (prot.writable && !expected.cow)
    |> setNx prot.noExec
    |> setUser prot.user

/-- One slot of a batch of `protect_virtual_range`. A slot that refers to a table ends a huge
batch. -/
def protectSlot (prot : Protection) (entry : Loc) (lvl : Nat) (i : Nat)
    (st : PageMap × List PTEntry) : (PageMap × List PTEntry) ⊕ (PageMap × List PTEntry) :=
  let (s, logged) := st
  let expected := s.load (entry.at i)
  if 1 < lvl ∧ expected.present ∧ !expected.huge then
    .inr (s, logged)
  else
    let desired := protectedEntry prot expected
    let s := if expected.present && desired ≠ expected then s.store (entry.at i) desired else s
    .inl (s, logged ++ [expected])

/-- One round of `protect_virtual_range`. -/
def protectRound (prot : Protection) (endVirt : Nat) (st : PageMap × RollbackGuard × Nat) :
    (PageMap × RollbackGuard × Nat) ⊕ (Except Error Unit × PageMap × RollbackGuard) :=
  let (s, guard, curr) := st
  if curr < endVirt then
    let remaining := endVirt - curr
    let p := s.probe curr
    let coverage := levelCoverage p.level
    if !p.value.present then
      .inl (s, guard, add64 curr (min remaining (coverage - curr % coverage)))
    else if 1 < p.level ∧ (!isAligned curr coverage ∨ remaining < coverage) then
      match s.walk curr false (PageSize.ofLevel (p.level - 1)) with
      | (.error e, s) => .inr (.error e, s, guard)
      | (.ok _, s) => .inl (s, guard, curr)
    else
      let tableCoverage := levelCoverage (p.level + 1)
      let batchPages := min (min remaining (tableCoverage - curr % tableCoverage))
        (maxLogPtes * coverage) / coverage
      match s.allocPages with
      | (none, s) => .inr (.error .outOfMemory, s, guard)
      | (some page, s) =>
        let (s, logged) :=
          match Loop.upTo (protectSlot prot p.entry p.level) batchPages (s, []) with
          | .inl st => st
          | .inr st => st
        let next := add64 curr (logged.length * coverage)
        .inl (s,
          { guard with
            log := ⟨page, curr, PageSize.ofLevel p.level, logged⟩ :: guard.log
            attemptedBytes := next - guard.startVirt },
          next)
  else
    .inr (.ok (), s, guard)

/-- `PageMap::protect_virtual_range`. -/
def protectVirtualRange (s : PageMap) (startVirt size : Nat) (flags : AccessFlags) :
    Option (Except Error Unit × PageMap) :=
  if isUpperHalf startVirt && flags.has .user then
    some (.error .securityViolation, s)
  else if !isAligned startVirt pageSize || !isAligned size pageSize then
    some (.error .invalidAlignment, s)
  else
    let prot : Protection := ⟨flags.has .write, s.feat.nx && !flags.has .execute, flags.has .user⟩
    match Loop.run (protectRound prot (add64 startVirt size)) (rounds size)
        (s, ⟨startVirt, [], 0⟩, startVirt) with
    | none => none
    | some (.error e, s, guard) => some (.error e, s.rollback guard)
    | some (.ok _, s, guard) => some (.ok (), (s.broadcast startVirt size .size4K).freeLog guard)

/-- `clear_rw` of `write_protect_range`, for one entry. -/
def clearRw (pte : Loc) (st : PageMap × Bool) : PageMap × Bool :=
  let expected := st.1.load pte
  if expected.present && expected.rw then (st.1.store pte (setRw false expected), true) else st

/-- One round of `write_protect_range`: the map, the current address, and whether anything was
changed. -/
def writeProtectRound (endVirt : Nat) (st : PageMap × Nat × Bool) :
    (PageMap × Nat × Bool) ⊕ (PageMap × Bool) :=
  let (s, curr, changed) := st
  if curr < endVirt then
    let remaining := endVirt - curr
    let p := s.probe curr
    let coverage := levelCoverage p.level
    if !p.value.present || 1 < p.level then
      -- a hole, or a huge page that is protected as a whole
      let (s, changed) := if p.value.present then clearRw p.entry (s, changed) else (s, changed)
      .inl (s, add64 curr (min remaining (coverage - curr % coverage)), changed)
    else
      let batchBytes := min remaining (sizeToBytes .size2M - curr % sizeToBytes .size2M)
      let (s, changed) :=
        Loop.times (fun i => clearRw (p.entry.at i)) (batchBytes / pageSize) (s, changed)
      .inl (s, add64 curr batchBytes, changed)
  else
    .inr (s, changed)

/-- `PageMap::write_protect_range`. -/
def writeProtectRange (s : PageMap) (startVirt size : Nat) : Option PageMap :=
  match Loop.run (writeProtectRound (add64 startVirt size)) (rounds size) (s, startVirt, false) with
  | none => none
  | some (s, true) => some (s.broadcast startVirt size .size4K)
  | some (s, false) => some s

/-! ## Moving mappings -/

/-- One round of `alias_virtual_range`. A failure answers with the bytes that were left. -/
def aliasRound (st : PageMap × Nat × Nat × Nat) :
    (PageMap × Nat × Nat × Nat) ⊕ Option (Except (Error × Nat) Unit × PageMap) :=
  let (s, currSrc, currDest, remaining) := st
  if 0 < remaining then
    match s.translate currSrc with
    | none => .inr (some (.error (.notMapped, remaining), s))
    | some found =>
      let pageBytes := sizeToBytes found.mappedSize
      let chunkBytes := min remaining (pageBytes - currSrc % pageBytes)
      match s.mapRange currDest found.physAddress chunkBytes found.flags found.cache found.pkey with
      | none => .inr none
      | some (.error e, s) => .inr (some (.error (e, remaining), s))
      | some (.ok _, s) =>
        .inl (s, add64 currSrc chunkBytes, add64 currDest chunkBytes, remaining - chunkBytes)
  else
    .inr (some (.ok (), s))

/-- `PageMap::alias_virtual_range`. -/
def aliasVirtualRange (s : PageMap) (srcVirt destVirt size : Nat) :
    Option (Except Error Unit × PageMap) :=
  if !isAligned srcVirt pageSize || !isAligned destVirt pageSize || !isAligned size pageSize then
    some (.error .invalidAlignment, s)
  else if max srcVirt destVirt < min (add64 srcVirt size) (add64 destVirt size) then
    some (.error .invalidArgument, s)
  else
    match Loop.run aliasRound (rounds size) (s, srcVirt, destVirt, size) with
    | none | some none => none
    | some (some (.ok _, s)) => some (.ok (), s)
    | some (some (.error (e, remaining), s)) =>
      match s.unmapRange destVirt (size - remaining) with
      | none => none
      | some (_, s) => some (.error e, s)

/-- `PageMap::move_virtual_range`. -/
def moveVirtualRange (s : PageMap) (srcVirt destVirt size : Nat) :
    Option (Except Error Unit × PageMap) :=
  if srcVirt = destVirt then
    some (.ok (), s)
  else
    match s.aliasVirtualRange srcVirt destVirt size with
    | none => none
    | some (.error e, s) => some (.error e, s)
    | some (.ok _, s) =>
      match s.unmapRange srcVirt size with
      | none => none
      | some (.ok _, s) => some (.ok (), s)
      | some (.error e, s) =>
        match s.unmapRange destVirt size with
        | none => none
        | some (_, s) => some (.error e, s)

end PageMap

end Erebus.Vmm
