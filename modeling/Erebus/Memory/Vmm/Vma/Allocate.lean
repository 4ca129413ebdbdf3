import Erebus.Memory.Vmm.Vma.Space

/-!
# Making and removing areas

* `alloc`, `free`, `realloc`, `mapObject`, `mapMmio`, `createAlias`: `allocate.cpp`.
* `cloneInto`: a copy of a space that shares its private memory copy-on-write; it prepares
  everything first and gives up with `abort`.
* `destroy`: `~AddressSpace`.
-/

namespace Erebus.Vmm.AddressSpace

/-- `init_vma`, with what its callers store right after it. -/
def initVma (m : Memory) (addr size : Nat) (access : AccessFlags) (cache : CacheMode)
    (pageSize : PageSize)
    (type : VMAType) (numa : NUMAPolicy) (pkey : Nat) (isWired : Bool) (vmObject : Option Nat)
    (objectOffset : Nat) : VMArea where
  start := addr
  stop := add64 addr size
  vmObject := vmObject
  objectOffset := objectOffset
  flags :=
    { access := access.setWidth 16
      cache := cache
      pageSize := pageSize
      type := type
      numa := numa
      isLocked := false
      isWired := isWired
      pkey := pkey % 16 }
  preferredNumaNode := m.numaNode
  faultCount := 0

/-- The address of a new area: the hint, if it is free, or a gap. -/
def placeArea (m : Memory) (s : AddressSpace) (hint size alignment : Nat) :
    Except Error Nat × Memory × AddressSpace :=
  if hint ≠ 0 then
    if s.rangeIsFree hint (add64 hint size) then (.ok hint, m, s) else (.error .alreadyMapped, m, s)
  else
    match findFreeGap m s size alignment false with
    | (0, m, s) => (.error .outOfMemory, m, s)
    | (addr, m, s) => (.ok addr, m, s)

/-- A new area, in the tree and in the list; none if the tree cannot grow. -/
def enterArea (m : Memory) (s : AddressSpace) (vma : Nat) (v : VMArea) :
    Option AddressSpace × Memory :=
  match m.grant with
  | (false, m) => (none, m)
  | (true, m) =>
    (some ({ s.setArea vma v with tree := KeyMap.insert v.start vma s.tree }.linkVma vma), m)

/-- An area leaves the list and the tree. -/
def removeArea (s : AddressSpace) (vma key : Nat) : AddressSpace :=
  { s.unlinkVma vma with tree := KeyMap.erase key s.tree }

/-- A page of a new area, for `Populate`. -/
def populatePage (vma addr bytesPerPage : Nat) (access : AccessFlags) (i : Nat)
    (x : Memory × AddressSpace) : (Memory × AddressSpace) ⊕ (Nat × Error × Memory × AddressSpace) :=
  match resolveVmaFaultLocked x.1 x.2 vma (add64 addr (i * bytesPerPage)) (fillType access) with
  | (.ok _, m, s) => .inl (m, s)
  | (.error e, m, s) => .inr (i, e, m, s)

/-- The pages of a new area. A failure takes the area back. -/
def populate (m : Memory) (s : AddressSpace) (vma obj addr size bytesPerPage : Nat)
    (access : AccessFlags) : Except Error Nat × Memory × AddressSpace :=
  match Loop.upTo (populatePage vma addr bytesPerPage access) (size / bytesPerPage) (m, s) with
  | .inl (m, s) => (.ok addr, m, s)
  | .inr (i, e, m, s) =>
    let m := unmapRange m s addr (i * bytesPerPage)
    (.error e, (m.dropRef obj).releaseVma vma, s.removeArea vma addr)

/-- `alloc` with the descriptor and the object it needs. -/
def allocWith (m : Memory) (s : AddressSpace) (vma obj alignedSize headroomPages : Nat)
    (access : AccessFlags)
    (cache : CacheMode) (pageSize : PageSize) (type : VMAType) (pkey hint : Nat) :
    Except Error Nat × Memory × AddressSpace :=
  match placeArea m s hint alignedSize (getPageBytes pageSize) with
  | (.error e, m, s) => (.error e, (m.releaseVma vma).dropRef obj, s)
  | (.ok addr, m, s) =>
    let v := initVma m addr alignedSize access cache pageSize type .firstTouch pkey
      (type = .hardwareMmio || access.has .mmio) (some obj) headroomPages
    match enterArea m s vma v with
    | (none, m) => (.error .outOfMemory, (m.releaseVma vma).dropRef obj, s)
    | (some s, m) =>
      if access.has .populate then
        populate m s vma obj addr alignedSize (getPageBytes pageSize) access
      else
        (.ok addr, m, s)

/-- `alloc`. -/
def alloc (m : Memory) (s : AddressSpace) (size : Nat) (access : AccessFlags) (cache : CacheMode)
    (pageSize : PageSize) (type : VMAType) (pkey hint : Nat) :
    Except Error Nat × Memory × AddressSpace :=
  if size = 0 then
    (.error .invalidArgument, m, s)
  else if hint ≠ 0 && !isAligned hint (getPageBytes pageSize) then
    (.error .invalidAlignment, m, s)
  else
    let bytesPerPage := getPageBytes pageSize
    let alignedSize := alignUp size bytesPerPage
    -- a stack grows down, and its object is indexed from its lowest page
    let headroomPages := if access.has .stack then maxStackBytes / bytesPerPage else 0
    match m.allocateVma with
    | (vma, m) =>
      match m.createObject none type pageSize (headroomPages + alignedSize / bytesPerPage) with
      | (obj, m) =>
        match vma, obj with
        | some vma, some obj =>
          allocWith m s vma obj alignedSize headroomPages access cache pageSize type pkey hint
        | vma, obj => (.error .outOfMemory, dropRef? (vma.elim m m.releaseVma) obj, s)

/-- An area that is given up: its pages are unmapped, its reference is dropped and its descriptor
goes back. -/
def dropArea (s : AddressSpace) (m : Memory) (vma : Nat) : Memory :=
  let v := s.area vma
  (dropRef? (unmapRange m s v.start v.sizeBytes) v.vmObject).releaseVma vma

/-- `free`. -/
def free (m : Memory) (s : AddressSpace) (addr : Nat) : Except Error Unit × Memory × AddressSpace :=
  match KeyMap.get addr s.tree with
  | none => (.error .notMapped, m, s)
  | some vma => (.ok (), s.dropArea m vma, s.removeArea vma addr)

/-- The end of `realloc`: the area moves. -/
def moveArea (m : Memory) (s : AddressSpace)
    (vma obj oldAddr newAddr newAligned neededPages : Nat) :
    Except Error Nat × Memory × AddressSpace :=
  match m.grant with
  | (false, m) => (.error .outOfMemory, m, s)
  | (true, m) =>
    let v := s.area vma
    let s := { s with tree := KeyMap.insert newAddr vma s.tree }
    let m := unmapRange m s oldAddr v.sizeBytes
    let s :=
      (s.removeArea vma oldAddr).setArea vma
        { v with start := newAddr, stop := add64 newAddr newAligned }
    (.ok newAddr, m.expandMaxPages obj neededPages, s.linkVma vma)

/-- `realloc`. -/
def realloc (m : Memory) (s : AddressSpace) (oldAddr newSize : Nat) :
    Except Error Nat × Memory × AddressSpace :=
  match KeyMap.get oldAddr s.tree with
  | none => (.error .notMapped, m, s)
  | some vma =>
    let v := s.area vma
    match v.vmObject, v.flags.isWired with
    | some obj, false =>
      let newAligned := alignUp newSize v.pageBytes
      if newAligned ≤ v.sizeBytes then
        (.ok oldAddr, m, s)
      else
        let neededPages := add64 v.objectOffset (newAligned / v.pageBytes)
        let growEnd := add64 v.start newAligned
        if s.rangeIsFree v.stop growEnd then
          (.ok oldAddr, m.expandMaxPages obj neededPages, s.setArea vma { v with stop := growEnd })
        else
          match findFreeGap m s newAligned v.pageBytes false with
          | (0, m, s) => (.error .outOfMemory, m, s)
          | (newAddr, m, s) => moveArea m s vma obj oldAddr newAddr newAligned neededPages
    | _, _ => (.error .invalidState, m, s)

/-- The end of `map_object`: the area of the object is entered. -/
def mapObjectAt (m : Memory) (s : AddressSpace) (vma obj addr alignedSize objOffsetPages : Nat)
    (access : AccessFlags) (cache : CacheMode) (pageSize : PageSize) (type : VMAType) (pkey : Nat) :
    Except Error Nat × Memory × AddressSpace :=
  let finalAccess := access ||| .shared
  let v := initVma m addr alignedSize finalAccess cache pageSize type .firstTouch pkey
    (type = .hardwareMmio || finalAccess.has .mmio) (some obj) objOffsetPages
  match enterArea m s vma v with
  | (none, m) => (.error .outOfMemory, m.releaseVma vma, s)
  | (some s, m) => (.ok addr, m.addRef obj, s)

/-- `map_object`. -/
def mapObject (m : Memory) (s : AddressSpace) (existingObj : Option Nat) (size objOffsetPages : Nat)
    (access : AccessFlags) (cache : CacheMode) (pageSize : PageSize) (type : VMAType)
    (pkey hint : Nat) : Except Error Nat × Memory × AddressSpace :=
  match existingObj with
  | none => (.error .invalidArgument, m, s)
  | some obj =>
    match m.objects.cell obj with
    | none => (.error .invalidArgument, m.fail .deadObject, s)
    | some cell =>
      if size = 0 ∨ cell.body.pageSize ≠ pageSize then
        (.error .invalidArgument, m, s)
      else if hint ≠ 0 && !isAligned hint (getPageBytes pageSize) then
        (.error .invalidAlignment, m, s)
      else
        match m.allocateVma with
        | (none, m) => (.error .outOfMemory, m, s)
        | (some vma, m) =>
          let alignedSize := alignUp size (getPageBytes pageSize)
          match placeArea m s hint alignedSize (getPageBytes pageSize) with
          | (.error e, m, s) => (.error e, m.releaseVma vma, s)
          | (.ok addr, m, s) =>
            mapObjectAt m s vma obj addr alignedSize objOffsetPages access cache pageSize type pkey

/-- A page of a device area; a failure answers with the pages done. -/
def mapDevicePage (s : AddressSpace) (addr physBase bytesPerPage : Nat) (access : AccessFlags)
    (cache : CacheMode)
    (pkey : Nat) (pageSize : PageSize) (i : Nat) (m : Memory) : Memory ⊕ (Nat × Error × Memory) :=
  match (s.pagemap m).map (add64 addr (i * bytesPerPage)) (add64 physBase (i * bytesPerPage))
    access cache pkey pageSize with
  | (.ok _, pagemap) => .inl (m.setTables pagemap)
  | (.error e, pagemap) => .inr (i, e, m.setTables pagemap)

/-- The end of `map_mmio`: the pages are mapped and the area is entered. -/
def mapMmioAt (m : Memory) (s : AddressSpace) (vma addr physBase alignedSize : Nat)
    (access : AccessFlags)
    (cache : CacheMode) (pageSize : PageSize) (pkey : Nat) :
    Except Error Nat × Memory × AddressSpace :=
  let finalAccess := access ||| .mmio
  let bytesPerPage := getPageBytes pageSize
  match Loop.upTo (mapDevicePage s addr physBase bytesPerPage finalAccess cache pkey pageSize)
      (alignedSize / bytesPerPage) m with
  | .inr (i, e, m) => (.error e, (unmapRange m s addr (i * bytesPerPage)).releaseVma vma, s)
  | .inl m =>
    let v := initVma m addr alignedSize finalAccess cache pageSize .hardwareMmio .strictLocal
        pkey true none 0
    match enterArea m s vma v with
    | (none, m) => (.error .outOfMemory, (unmapRange m s addr alignedSize).releaseVma vma, s)
    | (some s, m) => (.ok addr, m, s)

/-- `map_mmio`. -/
def mapMmio (m : Memory) (s : AddressSpace) (physBase size : Nat) (access : AccessFlags)
    (cache : CacheMode)
    (pageSize : PageSize) (pkey hint : Nat) : Except Error Nat × Memory × AddressSpace :=
  let bytesPerPage := getPageBytes pageSize
  if size = 0 then
    (.error .invalidArgument, m, s)
  else if !isAligned physBase bytesPerPage || (hint ≠ 0 && !isAligned hint bytesPerPage) then
    (.error .invalidAlignment, m, s)
  else
    match m.allocateVma with
    | (none, m) => (.error .outOfMemory, m, s)
    | (some vma, m) =>
      let alignedSize := alignUp size bytesPerPage
      match placeArea m s hint alignedSize bytesPerPage with
      | (.error e, m, s) => (.error e, m.releaseVma vma, s)
      | (.ok addr, m, s) => mapMmioAt m s vma addr physBase alignedSize access cache pageSize pkey

/-- The translation of a source page of `create_alias`, faulted in where it is missing or has to be
copied. -/
def aliasSource (m : Memory) (s : AddressSpace) (currSrc : Nat) (wantsWrite : Bool) :
    Except Error TranslationResult × Memory × AddressSpace :=
  let trans := (s.pagemap m).translate currSrc
  let needsCowBreak := trans.any fun t => wantsWrite && t.flags.has .copyOnWrite
  match trans, needsCowBreak with
  | some t, false => (.ok t, m, s)
  | _, _ =>
    match s.findVma currSrc with
    | none => (.error .notMapped, m, s)
    | some src =>
      if (s.area src).vmObject = none then
        (.error .notMapped, m, s)
      else
        let faultType :=
          if wantsWrite && (s.area src).flags.getAccess.has .write then AccessFlags.write else .read
        match resolveVmaFaultLocked m s src currSrc faultType with
        | (.error e, m, s) => (.error e, m, s)
        | (.ok _, m, s) =>
          match (s.pagemap m).translate currSrc with
          | none => (.error .notMapped, m, s)
          | some t => (.ok t, m, s)

/-- One page of `create_alias`. -/
def aliasPage (srcAddr aliasAddr : Nat) (aliasFlags : AccessFlags) (i : Nat)
    (x : Memory × AddressSpace) : (Memory × AddressSpace) ⊕ (Nat × Error × Memory × AddressSpace) :=
  match aliasSource x.1 x.2 (add64 srcAddr (i * pageSize)) (aliasFlags.has .write) with
  | (.error e, m, s) => .inr (i, e, m, s)
  | (.ok t, m, s) =>
    match (s.pagemap m).map (add64 aliasAddr (i * pageSize)) t.physAddress aliasFlags t.cache
      t.pkey .size4K with
    | (.error e, pagemap) => .inr (i, e, m.setTables pagemap, s)
    | (.ok _, pagemap) => .inl (m.setTables pagemap, s)

/-- The end of `create_alias`: the pages are mapped and the area is entered. -/
def createAliasAt (m : Memory) (s : AddressSpace) (vma aliasAddr srcAddr size : Nat)
    (aliasFlags : AccessFlags) : Except Error Nat × Memory × AddressSpace :=
  match Loop.upTo (aliasPage srcAddr aliasAddr aliasFlags) (size / pageSize) (m, s) with
  | .inr (i, e, m, s) => (.error e, (unmapRange m s aliasAddr (i * pageSize)).releaseVma vma, s)
  | .inl (m, s) =>
    let v :=
      initVma m aliasAddr size aliasFlags .writeBack .size4K .anonymous .firstTouch 0 true none 0
    match enterArea m s vma v with
    | (none, m) => (.error .outOfMemory, (unmapRange m s aliasAddr size).releaseVma vma, s)
    | (some s, m) => (.ok aliasAddr, m, s)

/-- `create_alias`. -/
def createAlias (m : Memory) (s : AddressSpace) (srcAddr size : Nat) (aliasFlags : AccessFlags) :
    Except Error Nat × Memory × AddressSpace :=
  if !isAligned srcAddr pageSize || !isAligned size pageSize then
    (.error .invalidAlignment, m, s)
  else if size = 0 then
    (.error .invalidArgument, m, s)
  else
    match m.allocateVma with
    | (none, m) => (.error .outOfMemory, m, s)
    | (some vma, m) =>
      match findFreeGap m s size pageSize false with
      | (0, m, s) => (.error .outOfMemory, m.releaseVma vma, s)
      | (aliasAddr, m, s) => createAliasAt m s vma aliasAddr srcAddr size aliasFlags

/-! ## Copies -/

/-- The translation of a page of a wired area, for the child; it fails if the child's map cannot
take it. -/
def cloneWiredPage (parent child : AddressSpace) (v : VMArea) (i : Nat) (m : Memory) :
    Memory ⊕ Memory :=
  let page := v.start + i * v.pageBytes
  match (parent.pagemap m).translate page with
  | none => .inl m
  | some t =>
    match (child.pagemap m).map page t.physAddress v.flags.getAccess t.cache t.pkey
      v.flags.pageSize with
    | (.ok _, pagemap) => .inl (m.setTables pagemap)
    | (.error _, pagemap) => .inr (m.setTables pagemap)

/-- The translations of a wired area. -/
def cloneWired (parent child : AddressSpace) (v : VMArea) (m : Memory) : Memory ⊕ Memory :=
  Loop.upTo (cloneWiredPage parent child v) ((v.sizeBytes + (v.pageBytes - 1)) / v.pageBytes) m

/-- The object of a new area of the child. -/
def setObject (s : AddressSpace) (vma obj : Nat) : AddressSpace :=
  s.setArea vma { s.area vma with vmObject := some obj }

def setAccess (s : AddressSpace) (vma : Nat) (access : AccessFlags) : AddressSpace :=
  s.setArea vma { s.area vma with flags := (s.area vma).flags.setAccess access }

/-- The object of a cloned area: shared, or a shadow for either side. With the result comes the
shadow for the parent; a failure is an error. -/
def cloneObject (m : Memory) (child : AddressSpace) (childVma obj : Nat) (access : AccessFlags) :
    Except Unit (Option Nat) × Memory × AddressSpace :=
  if access.has .shared || access.has .mmio then
    (.ok none, m.addRef obj, child.setObject childVma obj)
  else
    match m.createShadowClone obj with
    | (none, m) => (.error (), m, child)
    | (some childShadow, m) =>
      let child :=
        (child.setObject childVma childShadow).setAccess childVma (access ||| .copyOnWrite)
      match m.createShadowClone obj with
      | (none, m) => (.error (), m, child)
      | (some parentShadow, m) => (.ok (some parentShadow), m, child)

/-- One area of the first phase of `clone_into`. -/
def cloneVma (parent : AddressSpace) (m : Memory) (child : AddressSpace) (curr : Nat) :
    Except Unit (Option Nat) × Memory × AddressSpace :=
  match m.allocateVma with
  | (none, m) => (.error (), m, child)
  | (some childVma, m) =>
    let v := parent.area curr
    match enterArea m child childVma { v with vmObject := none, faultCount := 0 } with
    | (none, m) => (.error (), m.releaseVma childVma, child)
    | (some child, m) =>
      match v.vmObject with
      | none =>
        match cloneWired parent child v m with
        | .inr m => (.error (), m, child)
        | .inl m => (.ok none, m, child)
      | some obj => cloneObject m child childVma obj v.flags.getAccess

/-- The first phase of `clone_into`: the areas of the child, and the shadows for those of the
parent. -/
def clonePhase1 (parent : AddressSpace) :
    List Nat → Memory → AddressSpace → List (Option Nat) →
    Bool × List (Option Nat) × Memory × AddressSpace
  | [], m, child, shadows => (true, shadows, m, child)
  | curr :: rest, m, child, shadows =>
    match cloneVma parent m child curr with
    | (.error _, m, child) => (false, shadows, m, child)
    | (.ok shadow, m, child) => clonePhase1 parent rest m child (shadows ++ [shadow])

/-- An area of the child goes when `clone_into` gives up. -/
def abortVma (m : Memory) (child : AddressSpace) (c : Nat) : Memory × AddressSpace :=
  (child.dropArea m c, { child with tree := KeyMap.erase (child.area c).start child.tree })

/-- `abort` of `clone_into`. -/
def abort (m : Memory) (child : AddressSpace) (shadows : List (Option Nat)) :
    Memory × AddressSpace :=
  let (m, child) := child.areas.foldl (fun x c => abortVma x.1 x.2 c) (m, child)
  (shadows.foldl dropRef? m, { child with ends := ⟨none, none⟩ })

/-- `PageMap::write_protect_range`. -/
def writeProtectRange (m : Memory) (s : AddressSpace) (start size : Nat) : Memory :=
  match (s.pagemap m).writeProtectRange start size with
  | none => m.fail .endlessLoop
  | some pagemap => m.setTables pagemap

/-- One area of the second phase of `clone_into`. -/
def commitVma (m : Memory) (parent : AddressSpace) (curr : Nat) (shadow : Option Nat) :
    Memory × AddressSpace :=
  match shadow with
  | none => (m, parent)
  | some shadow =>
    let v := parent.area curr
    let m := writeProtectRange m parent v.start v.sizeBytes
    (v.vmObject.elim (m.fail .nullPointer) m.dropRef,
      (parent.setObject curr shadow).setAccess curr (v.flags.getAccess ||| AccessFlags.copyOnWrite))

/-- The second phase of `clone_into`. -/
def clonePhase2 (m : Memory) (parent : AddressSpace) (shadows : List (Nat × Option Nat)) :
    Memory × AddressSpace :=
  shadows.foldl (fun x c => commitVma x.1 x.2 c.1 c.2) (m, parent)

/-- `clone_into`. -/
def cloneInto (m : Memory) (parent child : AddressSpace) :
    Except Error Unit × Memory × AddressSpace × AddressSpace :=
  if parent.areas = [] then
    (.ok (), m, parent, child)
  else
    match m.grant with
    | (false, m) => (.error .outOfMemory, m, parent, child)
    | (true, m) =>
      match clonePhase1 parent parent.areas m child [] with
      | (false, shadows, m, child) =>
        let (m, child) := abort m child shadows
        (.error .outOfMemory, m, parent, child)
      | (true, shadows, m, child) =>
        let (m, parent) := clonePhase2 m parent (parent.areas.zip shadows)
        (.ok (), m, parent, child)

/-- `~AddressSpace`. -/
def destroy (m : Memory) (s : AddressSpace) : Memory := s.areas.foldl s.dropArea m

end Erebus.Vmm.AddressSpace
