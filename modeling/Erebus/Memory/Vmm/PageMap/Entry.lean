import Erebus.Lib.BitField

/-!
# Page table entries

The raw x86-64 entry, the architecture-neutral attributes of a mapping, and the two directions
between them.

* `PTEntry`: the 64-bit word and its fields. Bit 7 is the PAT bit of a 4 KiB leaf and the page-size
  bit one level up; a huge leaf keeps its PAT bit in bit 12, where a 4 KiB leaf has the first bit of
  its frame.
* `buildSchema`, `buildDirectory`: a leaf and an entry that refers to a table.
* `extractFlags`, `extractCache`, `extractAddress`: reading a leaf back.
-/

namespace Erebus.Vmm

open BitField

/-- The error codes of the memory manager. -/
inductive Error where
  | notImplemented
  | invalidState
  | invalidFlags
  | invalidArgument
  | outOfMemory
  | outOfBounds
  | invalidAlignment
  | alreadyMapped
  | notMapped
  | stackOverflow
  | memoryProtectionFault
  | securityViolation
  deriving DecidableEq, Repr

/-- What the paging code knows about the CPU. -/
structure PagingFeatures where
  nx : Bool
  huge1g : Bool
  levels : Nat
  deriving DecidableEq, Repr

/-! ## Sizes -/

/-- `PAGE_SIZE`. -/
def pageSize : Nat := 1 <<< 12

/-- `PageSize`: the value is the paging level of the leaf. -/
inductive PageSize where
  | size4K
  | size2M
  | size1G
  deriving DecidableEq, Repr

/-- `std::to_underlying`. -/
def PageSize.level : PageSize → Nat
  | .size4K => 1
  | .size2M => 2
  | .size1G => 3

/-- `static_cast<PageSize>`, for the levels that have leaves. -/
def PageSize.ofLevel : Nat → PageSize
  | 1 => .size4K
  | 2 => .size2M
  | _ => .size1G

/-- `level_coverage`. -/
def levelCoverage (lvl : Nat) : Nat := pageSize <<< ((lvl - 1) * 9)

/-- `size_to_bytes`. -/
def sizeToBytes (size : PageSize) : Nat := levelCoverage size.level

/-- `is_aligned`. -/
def isAligned (n a : Nat) : Bool := n % a = 0

theorem aligned_iff {m n a : Nat} :
    ¬ (!isAligned m a || !isAligned n a) = true ↔ m % a = 0 ∧ n % a = 0 := by
  simp [isAligned]

/-! ## Attributes -/

/-- `AccessFlags`. -/
abbrev AccessFlags := BitVec 32

namespace AccessFlags

def read : AccessFlags := 1#32 <<< 0
def write : AccessFlags := 1#32 <<< 1
def execute : AccessFlags := 1#32 <<< 2
def user : AccessFlags := 1#32 <<< 3
def global : AccessFlags := 1#32 <<< 4
def shared : AccessFlags := 1#32 <<< 5
def copyOnWrite : AccessFlags := 1#32 <<< 6
def swapped : AccessFlags := 1#32 <<< 7
def mmio : AccessFlags := 1#32 <<< 10
def stack : AccessFlags := 1#32 <<< 11
def populate : AccessFlags := 1#32 <<< 12

/-- `PROTECTION_FLAGS`. -/
def protectionFlags : AccessFlags := read ||| write ||| execute

/-- `has_flag`: all bits of `flag` are set. -/
def has (flags flag : AccessFlags) : Bool := flags &&& flag = flag

end AccessFlags

/-- `CacheMode`. -/
inductive CacheMode where
  | writeBack
  | writeThrough
  | uncacheableMinus
  | uncacheable
  | writeCombining
  | writeProtected
  deriving DecidableEq, Repr

/-! ## The entry -/

/-- One 64-bit slot of a paging structure. -/
abbrev PTEntry := BitVec 64

namespace PTEntry

def present (e : PTEntry) : Bool := BitField.flag 0 e
def rw (e : PTEntry) : Bool := BitField.flag 1 e
def user (e : PTEntry) : Bool := BitField.flag 2 e
def pwt (e : PTEntry) : Bool := BitField.flag 3 e
def pcd (e : PTEntry) : Bool := BitField.flag 4 e
def accessed (e : PTEntry) : Bool := BitField.flag 5 e
def dirty (e : PTEntry) : Bool := BitField.flag 6 e
def pat4k (e : PTEntry) : Bool := BitField.flag 7 e
def huge (e : PTEntry) : Bool := BitField.flag 7 e
def global (e : PTEntry) : Bool := BitField.flag 8 e
def cow (e : PTEntry) : Bool := BitField.flag 9 e
def shared (e : PTEntry) : Bool := BitField.flag 10 e
def swapped (e : PTEntry) : Bool := BitField.flag 11 e
def patLarge (e : PTEntry) : Bool := BitField.flag 12 e
def pfn4k (e : PTEntry) : Nat := BitField.get 12 40 e
def pfn2m (e : PTEntry) : Nat := BitField.get 21 31 e
def pfn1g (e : PTEntry) : Nat := BitField.get 30 22 e
def stack (e : PTEntry) : Bool := BitField.flag 58 e
def pkey (e : PTEntry) : Nat := BitField.get 59 4 e
def nx (e : PTEntry) : Bool := BitField.flag 63 e

def setPresent (b : Bool) (e : PTEntry) : PTEntry := BitField.setFlag 0 b e
def setRw (b : Bool) (e : PTEntry) : PTEntry := BitField.setFlag 1 b e
def setUser (b : Bool) (e : PTEntry) : PTEntry := BitField.setFlag 2 b e
def setPwt (b : Bool) (e : PTEntry) : PTEntry := BitField.setFlag 3 b e
def setPcd (b : Bool) (e : PTEntry) : PTEntry := BitField.setFlag 4 b e
def setAccessed (b : Bool) (e : PTEntry) : PTEntry := BitField.setFlag 5 b e
def setDirty (b : Bool) (e : PTEntry) : PTEntry := BitField.setFlag 6 b e
def setPat4k (b : Bool) (e : PTEntry) : PTEntry := BitField.setFlag 7 b e
def setHuge (b : Bool) (e : PTEntry) : PTEntry := BitField.setFlag 7 b e
def setGlobal (b : Bool) (e : PTEntry) : PTEntry := BitField.setFlag 8 b e
def setCow (b : Bool) (e : PTEntry) : PTEntry := BitField.setFlag 9 b e
def setShared (b : Bool) (e : PTEntry) : PTEntry := BitField.setFlag 10 b e
def setSwapped (b : Bool) (e : PTEntry) : PTEntry := BitField.setFlag 11 b e
def setPatLarge (b : Bool) (e : PTEntry) : PTEntry := BitField.setFlag 12 b e
def setPfn4k (v : Nat) (e : PTEntry) : PTEntry := BitField.set 12 40 v e
def setPfn2m (v : Nat) (e : PTEntry) : PTEntry := BitField.set 21 31 v e
def setPfn1g (v : Nat) (e : PTEntry) : PTEntry := BitField.set 30 22 v e
def setStack (b : Bool) (e : PTEntry) : PTEntry := BitField.setFlag 58 b e
def setPkey (v : Nat) (e : PTEntry) : PTEntry := BitField.set 59 4 v e
def setNx (b : Bool) (e : PTEntry) : PTEntry := BitField.setFlag 63 b e

end PTEntry

open PTEntry

/-- `PageTableEntry::extract_address`: none for an evicted page, whose frame field is a swap
slot. -/
def extractAddress (e : PTEntry) (contextSize : PageSize) : Option Nat :=
  if e.swapped then
    none
  else
    match contextSize with
    | .size4K => some (e.pfn4k <<< 12)
    | .size2M => some (e.pfn2m <<< 21)
    | .size1G => some (e.pfn1g <<< 30)

/-- `PageTableEntry::build_directory`. -/
def buildDirectory (tablePhys : Nat) (user : Bool) : PTEntry :=
  (0 : PTEntry) |> setPresent true |> setRw true |> setUser user |> setPfn4k (tablePhys >>> 12)

/-- The PWT, PCD and PAT bits of a memory type. -/
def cacheBits : CacheMode → Bool × Bool × Bool
  | .writeBack => (false, false, false)
  | .writeThrough => (true, false, false)
  | .uncacheableMinus => (false, true, false)
  | .uncacheable => (true, true, false)
  | .writeCombining => (false, false, true)
  | .writeProtected => (true, false, true)

/-- The part of `build_schema` that does not depend on the page size. -/
def buildAttributes (feat : PagingFeatures) (flags : AccessFlags) (pwt pcd : Bool) (pkey : Nat) :
    PTEntry :=
  let cow := flags.has .copyOnWrite
  (0 : PTEntry)
    |> setPresent (!flags.has .swapped)
    |> setRw (flags.has .write && !cow)
    |> setUser (flags.has .user)
    |> setGlobal (flags.has .global)
    |> setNx (feat.nx && !flags.has .execute)
    |> setCow cow
    |> setShared (flags.has .shared)
    |> setSwapped (flags.has .swapped)
    |> setStack (flags.has .stack)
    |> setPkey pkey
    |> setPwt pwt
    |> setPcd pcd

/-- `PageTableEntry::build_schema`. -/
def buildSchema (feat : PagingFeatures) (phys : Nat) (flags : AccessFlags) (cache : CacheMode)
    (size : PageSize) (pkey : Nat) : PTEntry :=
  let (pwt, pcd, pat) := cacheBits cache
  let entry := buildAttributes feat flags pwt pcd pkey
  match size with
  | .size4K => entry |> setPat4k pat |> setPfn4k (phys >>> 12)
  | .size2M => entry |> setHuge true |> setPatLarge pat |> setPfn2m (phys >>> 21)
  | .size1G => entry |> setHuge true |> setPatLarge pat |> setPfn1g (phys >>> 30)

/-- `PageMap::extract_flags`. -/
def extractFlags (e : PTEntry) : AccessFlags :=
  AccessFlags.read
    ||| (if e.rw then .write else 0)
    ||| (if e.user then .user else 0)
    ||| (if e.global then .global else 0)
    ||| (if e.nx then 0 else .execute)
    ||| (if e.cow then .copyOnWrite else 0)
    ||| (if e.shared then .shared else 0)
    ||| (if e.stack then .stack else 0)

/-- `PAT_INDEX_TO_MODE`. -/
def patIndexToMode : Bool → Bool → Bool → CacheMode
  | false, false, false => .writeBack
  | false, false, true => .writeThrough
  | false, true, false => .uncacheableMinus
  | false, true, true => .uncacheable
  | true, false, false => .writeCombining
  | true, false, true => .writeProtected
  | true, true, false => .uncacheableMinus
  | true, true, true => .uncacheable

/-- `PageMap::extract_cache`. -/
def extractCache (e : PTEntry) (isHuge : Bool) : CacheMode :=
  patIndexToMode (if isHuge then e.patLarge else e.pat4k) e.pcd e.pwt

/-- `VirtualAddress::is_upper_half`. -/
def isUpperHalf (virt : Nat) : Bool := virt >>> 63 ≠ 0

/-- `PageMap::leaf_flags`. -/
def leafFlags (virt : Nat) (flags : AccessFlags) : AccessFlags :=
  if isUpperHalf virt then flags ||| .global else flags &&& ~~~AccessFlags.global

/-! ## Reading back what was built -/

section

variable (feat : PagingFeatures) (phys pkey : Nat) (flags : AccessFlags) (cache : CacheMode)
  (size : PageSize)

/-- The fields of a leaf other than its frame. -/
theorem buildSchema_fields : let e := buildSchema feat phys flags cache size pkey
    e.present = !flags.has .swapped ∧ e.rw = (flags.has .write && !flags.has .copyOnWrite) ∧
      e.user = flags.has .user ∧ e.global = flags.has .global ∧
      e.nx = (feat.nx && !flags.has .execute) ∧ e.cow = flags.has .copyOnWrite ∧
      e.shared = flags.has .shared ∧ e.swapped = flags.has .swapped ∧ e.stack = flags.has .stack ∧
      e.pkey = pkey % 16 ∧ (size ≠ .size4K → e.huge = true) ∧ e.pwt = (cacheBits cache).1 ∧
      e.pcd = (cacheBits cache).2.1 ∧ (if size = .size4K then e.pat4k else e.patLarge) =
        (cacheBits cache).2.2 := by
  cases size <;>
    simp [buildSchema, buildAttributes, present, rw, user, global, nx, cow, shared, swapped,
    stack, PTEntry.pkey, huge, pwt, pcd, pat4k, patLarge, setPresent, setRw, setUser, setGlobal,
    setNx, setCow,
    setShared, setSwapped, setStack, setPkey, setPwt, setPcd, setHuge, setPat4k,
    setPatLarge, setPfn4k, setPfn2m, setPfn1g, flag_set, flag_setFlag, flag_setFlag_of_ne,
    get_set, get_set_of_apart, get_setFlag]

/-- The frame of a leaf: the bits of the address the frame field has room for. -/
theorem buildSchema_address (hswapped : flags.has .swapped = false) :
    extractAddress (buildSchema feat phys flags cache size pkey) size =
      some (phys / sizeToBytes size % (2 ^ 52 / sizeToBytes size) * sizeToBytes size) := by
  have hfield := (buildSchema_fields feat phys pkey flags cache size).2.2.2.2.2.2.2.1
  simp only [extractAddress, hfield, hswapped]
  cases size <;> simp [buildSchema, pfn4k, pfn2m, pfn1g, setPfn4k, setPfn2m, setPfn1g, get_set,
    Nat.shiftRight_eq_div_pow, Nat.shiftLeft_eq, sizeToBytes, levelCoverage, pageSize,
    PageSize.level]

end

/-- Which flags `extract_flags` reports. -/
theorem extractFlags_has (e : PTEntry) :
    (extractFlags e).has .write = e.rw ∧ (extractFlags e).has .user = e.user ∧
      (extractFlags e).has .global = e.global ∧ (extractFlags e).has .execute = !e.nx ∧
      (extractFlags e).has .copyOnWrite = e.cow ∧ (extractFlags e).has .shared = e.shared ∧
      (extractFlags e).has .stack = e.stack ∧ (extractFlags e).has .swapped = false := by
  unfold extractFlags
  generalize e.rw = rw, e.user = user, e.global = global, e.nx = nx, e.cow = cow, e.shared = shared,
    e.stack = stack
  revert rw user global nx cow shared stack
  decide +kernel

/-- Two entries with the same seven bits have the same flags. -/
theorem extractFlags_congr {e e' : PTEntry} (hrw : e.rw = e'.rw) (huser : e.user = e'.user)
    (hglobal : e.global = e'.global) (hnx : e.nx = e'.nx) (hcow : e.cow = e'.cow)
    (hshared : e.shared = e'.shared) (hstack : e.stack = e'.stack) :
    extractFlags e = extractFlags e' := by
  simp only [extractFlags, hrw, huser, hglobal, hnx, hcow, hshared, hstack]

/-- Every memory type survives its PAT index. -/
theorem patIndexToMode_cacheBits (cache : CacheMode) :
    patIndexToMode (cacheBits cache).2.2 (cacheBits cache).2.1 (cacheBits cache).1 = cache := by
  cases cache <;> rfl

theorem extractCache_build (feat : PagingFeatures) (phys pkey : Nat) (flags : AccessFlags)
    (cache : CacheMode) (size : PageSize) :
    extractCache (buildSchema feat phys flags cache size pkey)
      (decide (1 < size.level)) = cache := by
  obtain ⟨-, -, -, -, -, -, -, -, -, -, -, hpwt, hpcd, hpat⟩ :=
    buildSchema_fields feat phys pkey flags cache size
  have hsel : (if decide (1 < size.level) = true then
      (buildSchema feat phys flags cache size pkey).patLarge
      else (buildSchema feat phys flags cache size pkey).pat4k) = (cacheBits cache).2.2 := by
    rw [← hpat]
    cases size <;> rfl
  rw [extractCache, hsel, hpcd, hpwt, patIndexToMode_cacheBits]

/-- The bits the hardware maintains are none of those a translation is read from. -/
theorem hardware_bits (e : PTEntry) (a d : Bool) (size : PageSize) (isHuge : Bool) :
    let e' := setDirty d (setAccessed a e)
    e'.present = e.present ∧ e'.huge = e.huge ∧ e'.swapped = e.swapped ∧ e'.rw = e.rw ∧
    e'.cow = e.cow ∧
      e'.nx = e.nx ∧ e'.global = e.global ∧ e'.pkey = e.pkey ∧ extractFlags e' = extractFlags e ∧
      extractCache e' isHuge = extractCache e isHuge ∧
      extractAddress e' size = extractAddress e size := by
  intro e'
  have hflag : ∀ i, i ≠ 5 ∧ i ≠ 6 → flag i e' = flag i e := by
    rintro i ⟨h5, h6⟩
    simp only [e', setDirty, setAccessed, flag_setFlag_of_ne h5, flag_setFlag_of_ne h6]
  have hget : ∀ off width, 7 ≤ off → get off width e' = get off width e := by
    intro off width hoff
    simp only [e', setDirty, setAccessed]
    rw [get_setFlag (by omega), get_setFlag (by omega)]
  refine ⟨hflag 0 (by decide), hflag 7 (by decide), hflag 11 (by decide), hflag 1 (by decide),
    hflag 9 (by decide),
    hflag 63 (by decide), hflag 8 (by decide), hget 59 4 (by decide), ?_, ?_, ?_⟩
  · apply extractFlags_congr <;> exact hflag _ (by decide)
  · simp only [extractCache, patLarge, pat4k, pcd, pwt, hflag 12 (by decide),
      hflag 7 (by decide), hflag 4 (by decide), hflag 3 (by decide)]
  · have hswapped := hflag 11 (by decide)
    cases hb : flag 11 e <;> cases size <;>
      simp [extractAddress, swapped, pfn4k, pfn2m, pfn1g, hswapped, hb, hget]

/-- An entry that refers to a table. -/
theorem buildDirectory_fields (tablePhys : Nat) (user : Bool) :
    (buildDirectory tablePhys user).present = true ∧ (buildDirectory tablePhys user).huge = false ∧
      (buildDirectory tablePhys user).pfn4k = tablePhys / 2 ^ 12 % 2 ^ 40 := by
  simp [buildDirectory, present, huge, pfn4k, setPresent, setRw, setUser, setPfn4k, flag_set,
    flag_setFlag, flag_setFlag_of_ne, get_set, Nat.shiftRight_eq_div_pow]

end Erebus.Vmm
