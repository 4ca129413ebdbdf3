import Erebus.Memory.Vmm.PageMap.Geometry

/-!
# What a page map looks like from outside

* `Mapping`, `view`: the answer of `translate` without the size of the leaf, which splitting a huge
  page changes and nothing else does.
* `Cached`, `Smp.MayHold`: what a CPU's TLB may hold after the events of a trace. It may pick up any
  current translation at any time, and loses one only by an invalidation the code issues.
* `localInvalidate`: what one shootdown invalidates on one CPU.
* `Stale`: an address for which some TLB may hold a frame or a write permission the tables no longer
  grant.
-/

namespace Erebus.Vmm

/-- The attributes of a mapped address. -/
structure Mapping where
  physAddress : Nat
  flags : AccessFlags
  cache : CacheMode
  pkey : Nat
  deriving DecidableEq, Repr

def TranslationResult.mapping (t : TranslationResult) : Mapping :=
  ⟨t.physAddress, t.flags, t.cache, t.pkey⟩

/-- What an entry of a level that is no directory says about an address below it. -/
def leafView (level : Nat) (value : PTEntry) (virt : Nat) : Option Mapping :=
  if value.present then (interpret level value virt).map TranslationResult.mapping else none

/-- The mapping of an address. -/
def PageMap.view (s : PageMap) (virt : Nat) : Option Mapping :=
  (s.translate virt).map TranslationResult.mapping

theorem PageMap.view_eq (s : PageMap) (virt : Nat) :
    s.view virt = leafView (s.probe virt).level (s.probe virt).value virt := by
  unfold view translate leafView
  by_cases hpresent : (s.probe virt).value.present = true <;> simp [hpresent]

@[simp] theorem leafView_zero (level virt : Nat) : leafView level 0 virt = none := by
  simp [leafView, PTEntry.present]

/-! ## Invalidation -/

/-- One CPU, as far as invalidation looks at it: whether it has the map loaded, whether the map's
tracker lists it, and the PCID it has for the map, 0 if none. -/
structure Cpu where
  current : Bool
  tracked : Bool
  pcid : Nat

/-- What a CPU drops from its TLB: nothing, everything, what it holds under the PCID it has for the
map, or some pages, by INVLPG or by INVPCID with that PCID. -/
inductive Invalidation where
  | nothing
  | everything
  | nonGlobal
  | invlpg (addrs : List Nat)
  | invpcid (addrs : List Nat)

/-- `SINGLE_PAGE_FLUSH_CEILING`. -/
def singlePageFlushCeiling : Nat := 32

/-- `FLUSH_ALL`. -/
def flushAll : Nat := 2 ^ 64 - 1

/-- `div_round_up`. -/
def divRoundUp (n a : Nat) : Nat := n / a + if n % a ≠ 0 then 1 else 0

/-- `ShootdownCoordinator::local_invalidate`. A PCID that cannot be targeted is retired, which is as
good as dropping its entries. -/
def localInvalidate (isKernel invpcid : Bool) (cpu : Cpu) (virt size : Nat) (stride : PageSize) :
    Invalidation :=
  let kernel := isKernel || isUpperHalf virt
  let current := kernel || cpu.current
  let pcid := if current then 0 else cpu.pcid
  if !current && pcid == 0 then
    .nothing
  else
    let step := sizeToBytes stride
    let pages := if size = flushAll then flushAll else divRoundUp size step
    if singlePageFlushCeiling < pages then
      if kernel then .everything else .nonGlobal
    else if current then
      .invlpg ((List.range pages).map fun i => add64 virt (i * step))
    else if invpcid then
      .invpcid ((List.range pages).map fun i => add64 virt (i * step))
    else
      .nonGlobal

/-- A translation in a TLB: the level of its leaf, the page it is for, and the leaf. -/
structure Cached where
  level : Nat
  page : Nat
  value : PTEntry
  deriving DecidableEq

/-- The address lies in the page of the translation. -/
def Cached.Covers (L : Nat) (c : Cached) (v : Nat) : Prop := Vmm.page L c.level v = c.page

/-- The addresses of the translation are in the given half. -/
def Cached.OfHalf (L : Nat) (c : Cached) (upper : Bool) : Prop :=
  ∀ v, Canonical L v → c.Covers L v → isUpperHalf v = upper

/-- The CPU is sure to drop the translation. INVLPG reaches global translations and those of the
PCID that is loaded. A translation of the upper half that is not global is sure to go only with
everything: it may have been picked up with another map loaded, under the PCID of that. -/
def Invalidation.Drops (L : Nat) (cpu : Cpu) (c : Cached) : Invalidation → Prop
  | .nothing => False
  | .everything => True
  | .nonGlobal => c.OfHalf L false ∧ c.value.global = false
  | .invlpg addrs =>
    (c.value.global = true ∨ c.OfHalf L false ∧ cpu.current = true) ∧ ∃ a ∈ addrs, c.Covers L a
  | .invpcid addrs =>
    (c.OfHalf L false ∧ c.value.global = false) ∧ ∃ a ∈ addrs, c.Covers L a

/-- The CPUs, and what their TLBs hold before the first event. -/
structure Smp where
  isKernel : Bool
  invpcid : Bool
  cpus : Nat → Cpu
  held : Nat → Cached → Prop

namespace Smp

/-- `is_shootdown_target`. -/
def isShootdownTarget (smp : Smp) (cpu virt : Nat) : Bool :=
  smp.isKernel || isUpperHalf virt || (smp.cpus cpu).tracked

/-- The event makes a CPU drop the translation. -/
def Drops (smp : Smp) (L cpu : Nat) (c : Cached) : Event → Prop
  | .tables _ => False
  | .broadcast _ virt size stride =>
    smp.isShootdownTarget cpu virt = true ∧
      (localInvalidate smp.isKernel smp.invpcid (smp.cpus cpu) virt size stride).Drops L
        (smp.cpus cpu) c

end Smp

/-- The tables when the event happened. -/
def Event.mem : Event → Nat → Nat → PTEntry
  | .tables mem => mem
  | .broadcast mem _ _ _ => mem

namespace PageMap

/-- The translation is the tables' current one for a canonical address. -/
def Current (s : PageMap) (v : Nat) (c : Cached) : Prop :=
  Canonical s.feat.levels v ∧ (s.probe v).value.present = true ∧
    c = ⟨(s.probe v).level, page s.feat.levels (s.probe v).level v, (s.probe v).value⟩

end PageMap

namespace Smp

/-- A CPU can walk the tables for an address: the kernel half is part of every map. -/
def CanWalk (smp : Smp) (cpu virt : Nat) : Prop :=
  isUpperHalf virt = true ∨ (smp.cpus cpu).current = true

/-- The TLB of a CPU may hold the translation after the events, the newest of which comes first. -/
def MayHold (smp : Smp) (s : PageMap) (cpu : Nat) (c : Cached) : List Event → Prop
  | [] => smp.held cpu c
  | ev :: earlier =>
    (smp.MayHold s cpu c earlier ∧ ¬ smp.Drops s.feat.levels cpu c ev) ∨
      ∃ v, smp.CanWalk cpu v ∧ PageMap.Current { s with mem := ev.mem } v c

end Smp

/-- An invalidation of the addresses of the translation reaches the CPU. Kernel translations are
global, and only they are; the others are where the map is loaded or, unless it is the kernel's, has
a PCID. -/
def Smp.Reachable (smp : Smp) (L cpu : Nat) (c : Cached) : Prop :=
  c.OfHalf L true ∧ c.value.global = true ∨
    c.OfHalf L false ∧ c.value.global = false ∧ (smp.cpus cpu).tracked = true ∧
      ((smp.cpus cpu).current = true ∨ smp.isKernel = false ∧ (smp.cpus cpu).pcid ≠ 0)

namespace PageMap

/-- The tracker lists every CPU that has the map loaded, and no TLB holds what cannot be
invalidated. -/
structure Tracked (smp : Smp) (s : PageMap) : Prop where
  current : ∀ cpu, (smp.cpus cpu).current = true → (smp.cpus cpu).tracked = true
  reachable : ∀ cpu c, smp.MayHold s cpu c s.trace → smp.Reachable s.feat.levels cpu c

/-- The tables still grant the frame and, if the translation allows writing, the write. -/
def Grants (s : PageMap) (c : Cached) (v : Nat) : Prop :=
  ∃ m mc, s.view v = some m ∧ leafView c.level c.value v = some mc ∧
    mc.physAddress = m.physAddress ∧ (mc.flags.has .write = true → m.flags.has .write = true)

/-- Some TLB may hold a translation of the address that the tables do not grant. -/
def Stale (smp : Smp) (s : PageMap) (v : Nat) : Prop :=
  ∃ cpu c, smp.MayHold s cpu c s.trace ∧ c.Covers s.feat.levels v ∧ ¬ s.Grants c v

end PageMap

end Erebus.Vmm
