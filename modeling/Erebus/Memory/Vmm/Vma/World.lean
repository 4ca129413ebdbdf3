import Erebus.Lib.System
import Erebus.Memory.Vmm.Vma.Clone

/-!
# All address spaces

* `World`: the memory, the address spaces that exist, and the references others hold to objects.
* `SpaceCall`: the operations on one space; `Step`: one of these, `clone_into`, a space or an object
  that comes or goes, or new answers of the allocators.
* `Accounted`: the invariant: every space has its areas in order, every reference and every frame is
  accounted for.
* `references_accounted`: the count of an object is the number of the areas, the shadows and the
  others that refer to it, and it lives exactly as long as there are any.
* `areas_in_order`: the list and the tree of a space agree, and its areas are apart and aligned to
  their pages.
-/

namespace Erebus.Vmm

open RefCount Memory AddressSpace Multiset

/-- The operations on one address space. -/
inductive SpaceCall where
  | alloc (size : Nat) (access : AccessFlags) (cache : CacheMode) (pageSize : PageSize)
      (type : VMAType) (pkey hint : Nat)
  | free (addr : Nat)
  | realloc (oldAddr newSize : Nat)
  | mapObject (existingObj : Option Nat) (size objOffsetPages : Nat) (access : AccessFlags)
      (cache : CacheMode) (pageSize : PageSize) (type : VMAType) (pkey hint : Nat)
  | mapMmio (physBase size : Nat) (access : AccessFlags) (cache : CacheMode) (pageSize : PageSize)
      (pkey hint : Nat)
  | createAlias (srcAddr size : Nat) (aliasFlags : AccessFlags)
  | range (call : RangeCall) (addr size : Nat)
  | evictPage (addr : Nat)
  | handlePageFault (faultAddr : Nat) (faultType : AccessFlags)

namespace SpaceCall

/-- What a call leaves. -/
def exec : SpaceCall → Memory → AddressSpace → Memory × AddressSpace
  | .alloc size access cache pageSize type pkey hint, m, s =>
    (AddressSpace.alloc m s size access cache pageSize type pkey hint).2
  | .free addr, m, s => (AddressSpace.free m s addr).2
  | .realloc oldAddr newSize, m, s => (AddressSpace.realloc m s oldAddr newSize).2
  | .mapObject existingObj size objOffsetPages access cache pageSize type pkey hint, m, s =>
    (AddressSpace.mapObject m s existingObj size objOffsetPages access cache pageSize
      type pkey hint).2
  | .mapMmio physBase size access cache pageSize pkey hint, m, s =>
    (AddressSpace.mapMmio m s physBase size access cache pageSize pkey hint).2
  | .createAlias srcAddr size aliasFlags, m, s =>
    (AddressSpace.createAlias m s srcAddr size aliasFlags).2
  | .range call addr size, m, s => (call.exec m s addr size).2
  | .evictPage addr, m, s => (AddressSpace.evictPage m s addr).2
  | .handlePageFault faultAddr faultType, m, s =>
    (AddressSpace.handlePageFault m s faultAddr faultType).2

/-- Addresses have 64 bits, and who maps an object has a reference to it. -/
def Legal (outside : Multiset Nat) : SpaceCall → Prop
  | .mapObject (some obj) .. => obj ∈ outside
  | .range _ addr _ => addr < 2 ^ 64
  | _ => True

/-- The range does not wrap. -/
def Fits : SpaceCall → Prop
  | .range _ addr size => addr + size < 2 ^ 64
  | _ => True

end SpaceCall

/-- The address spaces, the memory they share, and the references that others hold to objects. -/
structure World where
  mem : Memory
  spaces : Multiset AddressSpace
  outside : Multiset Nat

namespace World

open Multiset (map_cons sum_cons mem_cons mem_cons_self mem_cons_of_mem coe_eq_coe coe_add mem_add)

/-- A step; `allowed` are the calls that are made. -/
inductive Step (allowed : SpaceCall → Prop) : World → World → Prop
  /-- The allocators will give other answers. -/
  | answers (w : World) (grants : List Bool) (frames : List (Option Nat)) (dice : List Nat)
      (numaNode : Nat) (free : List Nat) (outcomes : List (Option Nat)) : Step allowed w { w with
          mem :=
            { w.mem with
              grants := grants
              frames := frames
              dice := dice
              numaNode := numaNode
              tables := { w.mem.tables with free := free, outcomes := outcomes } } }
  /-- A new address space. -/
  | create (w : World) (s : AddressSpace) : s.ends = ⟨none, none⟩ → s.tree = [] →
      Step allowed w { w with spaces := s ::ₘ w.spaces }
  | call (w : World) (c : SpaceCall) (s : AddressSpace) (rest : Multiset AddressSpace) :
      w.spaces = s ::ₘ rest → c.Legal w.outside → allowed c →
      Step allowed w { w with mem := (c.exec w.mem s).1, spaces := (c.exec w.mem s).2 ::ₘ rest }
  /-- `clone_into`, into a child without areas. -/
  | clone (w : World) (parent child : AddressSpace) (rest : Multiset AddressSpace) :
      w.spaces = parent ::ₘ child ::ₘ rest → child.areas = [] → Step allowed w { w with
          mem := (cloneInto w.mem parent child).2.1
          spaces := (cloneInto w.mem parent child).2.2.1 ::ₘ
            (cloneInto w.mem parent child).2.2.2 ::ₘ rest }
  | destroy (w : World) (s : AddressSpace) (rest : Multiset AddressSpace) : w.spaces = s ::ₘ rest →
      Step allowed w { w with mem := AddressSpace.destroy w.mem s, spaces := rest }
  /-- Somebody creates an object. -/
  | createObject (w : World) (type : VMAType) (size : PageSize) (maxPages : Nat) :
      Step allowed w { w with
          mem := (w.mem.createObject none type size maxPages).2
          outside := ref (w.mem.createObject none type size maxPages).1 + w.outside }
  | addRef (w : World) (obj : Nat) : obj ∈ w.outside →
      Step allowed w { w with mem := w.mem.addRef obj, outside := obj ::ₘ w.outside }
  | dropRef (w : World) (obj : Nat) (others : Multiset Nat) : w.outside = obj ::ₘ others →
      Step allowed w { w with mem := w.mem.dropRef obj, outside := others }

/-- It starts with no address space and no object. -/
def system (allowed : SpaceCall → Prop) : System World where
  init w := ∃ tables, w = ⟨{ tables := tables }, 0, 0⟩
  step := Step allowed

/-- Every space has its areas in order, and every reference and every frame is accounted for. -/
structure Accounted (E : Past) (w : World) : Prop where
  layouts : ∀ s ∈ w.spaces, Layout s s.areas
  sound : Sound E w.mem ((w.spaces.map fun s => refs s s.areas).sum + w.outside) 0
  areas : (w.mem.areas : Multiset Nat) = (w.spaces.map fun s => (s.areas : Multiset Nat)).sum
  nodup : w.mem.areas.Nodup
  fresh : ∀ i ∈ w.mem.areas, i < w.mem.nextArea

section

variable {E : Past} {w : World} {s : AddressSpace} {rest : Multiset AddressSpace} {m' : Memory}
  {s' : AddressSpace} {ids D : List Nat} {outside' : Multiset Nat}

/-- One space among all. -/
theorem Accounted.good (h : Accounted E w) (hs : w.spaces = s ::ₘ rest) :
    ∃ D : List Nat, (D : Multiset Nat) = (rest.map fun t => (t.areas : Multiset Nat)).sum ∧
      Good E w.mem s s.areas ((rest.map fun t => refs t t.areas).sum + w.outside) D := by
  refine ⟨(rest.map fun t => (t.areas : Multiset Nat)).sum.toList, coe_toList _, ?_⟩
  have hareas := h.areas
  have hsound := h.sound
  rw [hs, map_cons, sum_cons] at hareas hsound
  have hperm :
      w.mem.areas.Perm (s.areas ++ (rest.map fun t => (t.areas : Multiset Nat)).sum.toList) := by
    rw [← coe_eq_coe, ← coe_add, coe_toList]
    exact hareas
  refine ⟨h.layouts s (hs ▸ mem_cons_self s rest), ?_, hperm, hperm.nodup_iff.1 h.nodup, fun i hi =>
    h.fresh i (hperm.mem_iff.2 hi)⟩
  rw [← add_assoc]
  exact hsound

/-- Back to all of them. -/
theorem Accounted.of_good
    (hg : Good E m' s' ids ((rest.map fun t => refs t t.areas).sum + outside') D)
    (hD : (D : Multiset Nat) = (rest.map fun t => (t.areas : Multiset Nat)).sum)
    (hrest : ∀ t ∈ rest, Layout t t.areas) : Accounted E ⟨m', s' ::ₘ rest, outside'⟩ := by
  have hids := hg.layout.areas_eq
  refine ⟨fun t ht => ?_, ?_, ?_, hg.areas.nodup_iff.2 hg.nodup,
    fun i hi => hg.fresh i (hg.areas.mem_iff.1 hi)⟩
  · rcases mem_cons.1 ht with rfl | ht
    · rw [hids]
      exact hg.layout
    · exact hrest t ht
  · rw [map_cons, sum_cons, hids, add_assoc]
    exact hg.sound
  · rw [map_cons, sum_cons, hids, ← hD, coe_add, coe_eq_coe]
    exact hg.areas

/-- Other references, and the same areas. -/
theorem Accounted.memory (h : Accounted E w) (hkeeps : Keeps w.mem m')
    (hsound : Sound E m' ((w.spaces.map fun s => refs s s.areas).sum + outside') 0) :
    Accounted E ⟨m', w.spaces, outside'⟩ where
  layouts := h.layouts
  sound := hsound
  areas := by
    dsimp only
    rw [hkeeps.areas]
    exact h.areas
  nodup := by
    dsimp only
    rw [hkeeps.areas]
    exact h.nodup
  fresh := by
    dsimp only
    rw [hkeeps.areas, hkeeps.nextArea]
    exact h.fresh

end

/-! ## Steps -/

section

variable {E : Past} {w w' : World} {allowed : SpaceCall → Prop}

/-- A call keeps the accounts of its space, whatever it answers. -/
theorem exec_kept {m : Memory} {s : AddressSpace} {ids D : List Nat} {H : Multiset Nat}
    (h : Good E m s ids H D)
    (hE : E.Endless) (c : SpaceCall) (hfits : c.Fits ∨ Fault.nullPointer ∈ E.faults)
    {outside : Multiset Nat} (hlegal : c.Legal outside) (houtside : ∀ o ∈ outside, o ∈ H) :
    ∃ ids', Good E (c.exec m s).1 (c.exec m s).2 ids' H D ∧
    (c.Fits → s.Aligned ids → (c.exec m s).2.Aligned ids') := by
  -- what all operations but those on a range have in common
  have hkept : ∀ {α : Type} {x : Except Error α × Memory × AddressSpace},
      Keeps E s ids H D x → ∃ ids', Good E x.2.1 x.2.2 ids' H D ∧
      (c.Fits → s.Aligned ids → x.2.2.Aligned ids') := by
    rintro α x ⟨r, m', s', ids', rfl, hk⟩
    exact ⟨ids', hk.good, fun _ => hk.aligned⟩
  cases c with
  | alloc size access cache pageSize type pkey hint =>
    exact hkept (alloc_ok h hE size access cache pageSize type pkey hint)
  | free addr => exact hkept (free_ok h hE addr)
  | realloc oldAddr newSize => exact hkept (realloc_ok h hE oldAddr newSize)
  | mapObject existingObj size objOffsetPages access cache pageSize type pkey hint =>
    refine hkept (mapObject_ok h hE (fun obj hobj => ?_) size objOffsetPages access cache pageSize
      type pkey hint)
    subst hobj
    exact mem_add.2 (.inr (houtside obj hlegal))
  | mapMmio physBase size access cache pageSize pkey hint =>
    exact hkept (mapMmio_ok h hE physBase size access cache pageSize pkey hint)
  | createAlias srcAddr size aliasFlags => exact hkept (createAlias_ok h hE srcAddr size aliasFlags)
  | range call addr size =>
    obtain ⟨r, m', s', ids', heq, hgood, -, hout⟩ := RangeCall.exec_ok h hE call hfits
    rw [SpaceCall.exec, heq]
    exact ⟨ids', hgood, fun hfit ha => (hout hfit ha).2⟩
  | evictPage addr => exact hkept (evictPage_ok h hE addr)
  | handlePageFault faultAddr faultType => exact hkept (handlePageFault_ok h faultAddr faultType)

/-- Nothing is asked of the page tables. -/
theorem cloneTables_trivial (parent : AddressSpace) (pids : List Nat) (root : Nat) :
    CloneTables (fun _ _ => True) parent pids root where
  mono := fun _ _ => trivial
  map := by
    intros
    generalize cloneWiredPage _ _ _ _ _ = x
    cases x <;> trivial
  unmap := fun _ _ _ => trivial

/-- **Every step keeps the accounts**, and the areas aligned if no range wraps. -/
theorem Accounted.step (h : Accounted E w) (hE : E.Endless)
    (hallowed : (∀ c, allowed c → c.Fits) ∨ Fault.nullPointer ∈ E.faults)
    (hstep : Step allowed w w') :
    Accounted E w' ∧ ((∀ c, allowed c → c.Fits) → (∀ s ∈ w.spaces, s.Aligned s.areas) →
      ∀ s ∈ w'.spaces, s.Aligned s.areas) := by
  cases hstep with
  | answers grants frames dice numaNode free outcomes =>
    exact ⟨⟨h.layouts, Sound.congr h.sound rfl rfl rfl, h.areas, h.nodup, h.fresh⟩, fun _ ha => ha⟩
  | create s hends htree =>
    have hlayout : Layout s [] := by
      refine ⟨?_, htree, List.Pairwise.nil, fun i hi => absurd hi List.not_mem_nil⟩
      rw [hends]
      exact DList.isDList_nil _
    have hids := hlayout.areas_eq
    refine ⟨⟨fun t ht => ?_, ?_, ?_, h.nodup, h.fresh⟩, fun _ ha t ht => ?_⟩
    · rcases mem_cons.1 ht with rfl | ht
      · rw [hids]
        exact hlayout
      · exact h.layouts t ht
    · rw [map_cons, sum_cons, hids, refs_nil, zero_add]
      exact h.sound
    · rw [map_cons, sum_cons, hids, coe_nil, zero_add]
      exact h.areas
    · rcases mem_cons.1 ht with rfl | ht
      · rw [hids]
        exact fun i hi => absurd hi List.not_mem_nil
      · exact ha t ht
  | call c s rest hs hlegal hc =>
    obtain ⟨D, hD, hgood⟩ := h.good hs
    have hrest : ∀ t ∈ rest, Layout t t.areas := fun t ht => h.layouts t (hs ▸ mem_cons_of_mem ht)
    obtain ⟨ids', hgood', haligned⟩ :=
      exec_kept hgood hE c (hallowed.imp_left fun hall => hall c hc) hlegal
      fun o ho => mem_add.2 (.inr ho)
    refine ⟨Accounted.of_good hgood' hD hrest, fun hall ha t ht => ?_⟩
    rcases mem_cons.1 ht with rfl | ht
    · rw [hgood'.layout.areas_eq]
      exact haligned (hall c hc) (ha s (hs ▸ mem_cons_self s rest))
    · exact ha t (hs ▸ mem_cons_of_mem ht)
  | clone parent child rest hs hempty =>
    obtain ⟨D, hD, hgood⟩ := h.good hs
    have hchild : Layout child [] := by
      rw [← hempty]
      exact h.layouts child (hs ▸ by simp)
    have hrest : ∀ t ∈ rest, Layout t t.areas := fun t ht => h.layouts t (hs ▸ by simp [ht])
    obtain ⟨r, m', parent', child', cids, heq, hgood', hlayout, hranges, -, haligned, -⟩ :=
      cloneInto_ok (cloneTables_trivial parent parent.areas child.root) hgood hchild hE trivial
    rw [heq]
    rw [map_cons, sum_cons, hempty] at hgood' hD
    rw [refs_nil, zero_add] at hgood'
    have hcids := hlayout.areas_eq
    have haccounted : Accounted E ⟨m', parent' ::ₘ child' ::ₘ rest, w.outside⟩ := by
      have hgood'' : Good E m' parent' parent.areas
          (((child' ::ₘ rest).map fun t => refs t t.areas).sum + w.outside) (cids ++ D) := by
        rw [map_cons, sum_cons, hcids, add_assoc]
        exact hgood'
      refine Accounted.of_good hgood'' ?_ fun t ht => ?_
      · rw [map_cons, sum_cons, hcids, ← coe_add, hD, coe_nil, zero_add]
      · rcases mem_cons.1 ht with rfl | ht
        · rw [hcids]
          exact hlayout
        · exact hrest t ht
    refine ⟨haccounted, fun _ ha t ht => ?_⟩
    have hparent := ha parent (hs ▸ mem_cons_self parent _)
    rcases mem_cons.1 ht with rfl | ht
    · rw [hgood'.layout.areas_eq]
      exact hranges.aligned hparent
    rcases mem_cons.1 ht with rfl | ht
    · rw [hcids]
      exact haligned hparent
    · exact ha t (hs ▸ by simp [ht])
  | destroy s rest hs =>
    obtain ⟨D, hD, hgood⟩ := h.good hs
    obtain ⟨hsound, hareas, hnext⟩ := destroy_ok hgood hE
    refine ⟨⟨fun t ht => h.layouts t (hs ▸ mem_cons_of_mem ht), hsound, ?_, ?_, fun i hi => ?_⟩,
      fun _ ha t ht => ha t (hs ▸ mem_cons_of_mem ht)⟩
    · rw [← hD, coe_eq_coe]
      exact hareas
    · exact hareas.nodup_iff.2 (List.nodup_append.1 hgood.nodup).2.1
    · dsimp only
      rw [hnext]
      exact hgood.fresh i (List.mem_append_right _ (hareas.mem_iff.1 hi))
  | createObject type size maxPages =>
    obtain ⟨r, m', heq, hsound⟩ := createObject_sound h.sound type size maxPages
    have hkeeps := createObject_keeps w.mem none type size maxPages
    rw [heq] at hkeeps ⊢
    refine ⟨h.memory hkeeps ?_, fun _ ha => ha⟩
    cases r with
    | none =>
      rw [ref_none_add]
      exact hsound
    | some o =>
      rw [ref_some_add, add_cons]
      exact hsound
  | addRef obj hobj =>
    refine ⟨h.memory (addRef_keeps w.mem obj) ?_, fun _ ha => ha⟩
    rw [add_cons]
    exact addRef_sound h.sound (mem_add.2 (.inr hobj))
  | dropRef obj others hout =>
    have hsound := h.sound
    rw [hout, add_cons] at hsound
    exact ⟨h.memory (dropRef_keeps w.mem obj) (dropRef_sound hsound), fun _ ha => ha⟩

end

/-! ## Runs -/

/-- The areas of all spaces that refer to an object. -/
def areaRefs (w : World) (o : Nat) : Nat :=
  (w.spaces.map fun s => s.areas.countP fun i => (s.area i).vmObject = some o).sum

/-- All references to an object: of areas, of shadows, and of others. -/
def allRefs (w : World) (o : Nat) : Nat := w.areaRefs o + w.mem.objects.links o + w.outside.count o

section Runs

variable {E : Past} {w : World} {allowed : SpaceCall → Prop}

theorem count_refs (s : AddressSpace) (o : Nat) (ids : List Nat) :
    (refs s ids).count o = ids.countP fun i => (s.area i).vmObject = some o := by
  induction ids with
  | nil => rfl
  | cons i ids ih =>
    have hhead := refs_middle s [] ids i
    rw [List.nil_append, List.nil_append] at hhead
    rw [hhead, count_add, ih, List.countP_cons, add_comm]
    congr 1
    cases hobj : (s.area i).vmObject with
    | none => simp [ref]
    | some p => simp [ref, count_singleton, eq_comm]

theorem count_allRefs (w : World) (o : Nat) :
    ((w.spaces.map fun s => refs s s.areas).sum + w.outside).count o +
      w.mem.objects.links o = w.allRefs o := by
  have hareas : (w.spaces.map fun s => refs s s.areas).sum.count o = w.areaRefs o := by
    rw [count_sum, areaRefs]
    exact congrArg sum (map_congr rfl fun s _ => count_refs s o s.areas)
  rw [count_add, hareas, allRefs, add_right_comm]

theorem accounted_init {w : World} (h : (system allowed).init w) (E : Past)
    (hgone : E.gone = ∅) : Accounted E w := by
  obtain ⟨tables, rfl⟩ := h
  refine ⟨fun s hs => absurd hs (notMem_zero s), ⟨⟨?_, ?_, ?_, ?_⟩, rfl, nofun, ?_⟩, rfl,
    List.nodup_nil, fun i hi => absurd hi List.not_mem_nil⟩
  · exact nofun
  · intro o hpos
    exact absurd hpos (Nat.lt_irrefl 0)
  · exact nofun
  · exact nofun
  · rw [hgone]
    exact fun o ho => absurd ho (Set.notMem_empty o)

/-- The faults that a run may end with. -/
def tolerated : Set Fault := {.endlessLoop, .nullPointer}

theorem reachable_accounted (h : (system allowed).Reachable w) : Accounted ⟨tolerated, ∅⟩ w :=
  h.invariant (I := Accounted ⟨tolerated, ∅⟩) (fun _ hinit => accounted_init hinit _ rfl)
    fun _ _ hacc hstep =>
    (hacc.step (.inl rfl) (.inr (.inr rfl)) hstep).1

/-- **The count of every object is right, at all times and whatever allocation fails.**  It is the
number of areas, of live shadows and of others that refer to the object; the object lives exactly as
long as there are any and never comes back; the frames in use are those of the live objects; nothing
dead is used and nothing is freed twice. -/
theorem references_accounted (h : (system fun _ => True).Reachable w) :
    (∀ o obj, w.mem.objects.cell o = some obj → obj.refs = w.allRefs o) ∧
      (∀ o, (∃ obj, w.mem.objects.cell o = some obj) ↔ 0 < w.allRefs o) ∧
      (∀ w', Step (fun _ => True) w w' → ∀ o, Gone w.mem.objects o → Gone w'.mem.objects o) ∧
      (w.mem.held : Multiset (Nat × PageSize)) = owned w.mem.objects ∧
      w.mem.fault ≠ some .deadObject ∧ w.mem.fault ≠ some .doubleFree := by
  have hacc := reachable_accounted h
  have hexact : ∀ o obj, w.mem.objects.cell o = some obj → obj.refs = w.allRefs o :=
    fun o obj hcell => by
    rw [hacc.sound.counted.exact hcell, count_allRefs]
  refine ⟨hexact, fun o => ⟨?_, fun hpos => ?_⟩, fun w' hstep o hgone => ?_, ?_, ?_, ?_⟩
  · rintro ⟨obj, hcell⟩
    rw [← hexact o obj hcell]
    exact hacc.sound.counted.pos hcell
  · rw [← count_allRefs] at hpos
    exact hacc.sound.counted.live hpos
  · -- the same accounts, with the dead remembered
    have hdead : Accounted ⟨tolerated, {o | Gone w.mem.objects o}⟩ w :=
      ⟨hacc.layouts, ⟨hacc.sound.counted, hacc.sound.frames, hacc.sound.fault, fun _ ho => ho⟩,
        hacc.areas, hacc.nodup, hacc.fresh⟩
    exact (hdead.step (.inl rfl) (.inr (.inr rfl)) hstep).1.sound.gone o hgone
  · rw [hacc.sound.frames, add_zero]
  · intro hf
    rcases hacc.sound.fault _ hf with hf | hf <;> cases hf
  · intro hf
    rcases hacc.sound.fault _ hf with hf | hf <;> cases hf

/-- **The areas of every space are in order**, if no call on a range has arguments that wrap: they
are aligned to their pages, not empty and apart, the list is doubly linked and goes up, and the tree
leads from the start of each area to it, and to nothing else. -/
theorem areas_in_order (h : (system SpaceCall.Fits).Reachable w) {s : AddressSpace}
    (hs : s ∈ w.spaces) :
    DList.IsDList s.links s.ends s.areas ∧
    s.areas.Pairwise (fun i j => (s.area i).start < (s.area j).start) ∧
      s.areas.Pairwise (fun i j => (s.area i).stop ≤ (s.area j).start) ∧
      (∀ i ∈ s.areas, (s.area i).start < (s.area i).stop ∧
        (s.area i).start % (s.area i).pageBytes = 0 ∧
        (s.area i).stop % (s.area i).pageBytes = 0) ∧
        s.tree = s.areas.map (fun i => ((s.area i).start, i)) ∧
      ∀ addr i, s.findVma addr = some i ↔ i ∈ s.areas ∧ (s.area i).contains addr = true := by
  have hinv : Accounted ⟨tolerated, ∅⟩ w ∧ ∀ s ∈ w.spaces, s.Aligned s.areas := by
    refine h.invariant (I := fun w => Accounted ⟨tolerated, ∅⟩ w ∧
      ∀ s ∈ w.spaces, s.Aligned s.areas)
      (fun w hinit => ⟨accounted_init hinit _ rfl, ?_⟩) fun w w' hw hstep => ?_
    · obtain ⟨tables, rfl⟩ := hinit
      exact fun s hs => absurd hs (Multiset.notMem_zero s)
    · obtain ⟨hacc, haligned⟩ := hw.1.step (.inl rfl) (.inl fun _ hc => hc) hstep
      exact ⟨hacc, haligned (fun _ hc => hc) hw.2⟩
  have hlayout := hinv.1.layouts s hs
  exact ⟨hlayout.dlist, hlayout.starts, hlayout.ordered,
    fun i hi => ⟨(hlayout.proper i hi).1, (hinv.2 s hs i hi).1, (hinv.2 s hs i hi).2⟩, hlayout.tree,
    fun _ _ => hlayout.findVma_iff⟩

end Runs

section

/-- A space without areas. -/
def emptySpace : AddressSpace where
  area _ :=
    ⟨0, 0, none, 0, ⟨0, .writeBack, .size4K, .anonymous, .firstTouch, false, false, 0⟩, 0, 0⟩
  links := ⟨fun _ => none, fun _ => none⟩
  ends := ⟨none, none⟩
  tree := []
  root := 1
  heapRegion := ⟨0x10000, 0x20000, 0x10000⟩
  mmapRegion := ⟨0x20000, 0x40000, 0x20000⟩

/-- Memory for ten descriptors, objects and entries of the tree. -/
def tenGrants : Memory where
  tables := { feat := ⟨true, true, 4⟩, root := 1 }
  grants := List.replicate 10 true

/-- A stack of 16 MiB. Two pages of it get other flags, and the part below them is freed. -/
def splitCalls : List SpaceCall :=
  [.alloc 0x1000000 (.write ||| .stack) .writeBack .size4K .anonymous 0 0x4000,
    .range (.protect 0) 0x6000 0x2000, .free 0x4000]

def splitStack : Memory × AddressSpace :=
  splitCalls.foldl (fun x c => c.exec x.1 x.2) (tenGrants, emptySpace)

/-- The world in which that is the only space. -/
def splitWorld : World := ⟨splitStack.1, splitStack.2 ::ₘ 0, 0⟩

/-- Calls on the only space, one after the other. -/
theorem calls_reachable {allowed : SpaceCall → Prop} (calls : List SpaceCall)
    (x : Memory × AddressSpace)
    (h : (system allowed).Reachable ⟨x.1, x.2 ::ₘ 0, 0⟩)
    (hcalls : ∀ c ∈ calls, c.Legal 0 ∧ allowed c) :
    (system allowed).Reachable ⟨(calls.foldl (fun x c => c.exec x.1 x.2) x).1,
      (calls.foldl (fun x c => c.exec x.1 x.2) x).2 ::ₘ 0, 0⟩ := by
  induction calls generalizing x with
  | nil => exact h
  | cons c calls ih =>
    obtain ⟨hlegal, hallowed⟩ := hcalls c List.mem_cons_self
    exact ih (c.exec x.1 x.2) (.step h (.call _ c x.2 0 rfl hlegal hallowed))
      fun c' hc' => hcalls c' (List.mem_cons_of_mem c hc')

theorem splitCalls_fit : ∀ c ∈ splitCalls, c.Legal 0 ∧ c.Fits := by
  intro c hc
  simp only [splitCalls, List.mem_cons, List.not_mem_nil, or_false] at hc
  rcases hc with rfl | rfl | rfl
  · exact ⟨trivial, trivial⟩
  · exact ⟨show 0x6000 < 2 ^ 64 by decide, show 0x6000 + 0x2000 < 2 ^ 64 by decide⟩
  · exact ⟨trivial, trivial⟩

theorem splitWorld_reachable {allowed : SpaceCall → Prop} (hallowed : ∀ c ∈ splitCalls, allowed c) :
    (system allowed).Reachable splitWorld := by
  have hinit : (system allowed).Reachable
      ⟨{ tables := { feat := ⟨true, true, 4⟩, root := 1 } }, 0, 0⟩ := .init ⟨_, rfl⟩
  have hanswers : (system allowed).Reachable ⟨tenGrants, 0, 0⟩ :=
    .step hinit (Step.answers _ (List.replicate 10 true) [] [] 0 [] [])
  have hcreate : (system allowed).Reachable ⟨tenGrants, emptySpace ::ₘ 0, 0⟩ :=
    .step hanswers (Step.create _ emptySpace rfl rfl)
  exact calls_reachable splitCalls (tenGrants, emptySpace) hcreate
    fun c hc => ⟨(splitCalls_fit c hc).1, hallowed c hc⟩

/-- The two areas that are left share the object of the stack. -/
theorem references_accounted_split :
    splitWorld.allRefs 0 = 2 ∧ (splitWorld.mem.objects.cell 0).map Cell.refs = some 2 := by
  have hcell : (splitWorld.mem.objects.cell 0).map Cell.refs = some 2 := by decide +kernel
  obtain ⟨obj, hobj, hrefs⟩ := Option.map_eq_some_iff.1 hcell
  have hreach : (system fun _ => True).Reachable splitWorld :=
    splitWorld_reachable fun _ _ => trivial
  exact ⟨((references_accounted hreach).1 0 obj hobj).symm.trans hrefs, hcell⟩

theorem areas_in_order_split : splitStack.2.areas = [1, 2] ∧
    splitStack.2.tree = splitStack.2.areas.map (fun i => ((splitStack.2.area i).start, i)) ∧
      splitStack.2.tree = [(0x6000, 1), (0x8000, 2)] ∧
      (splitStack.2.area 1).stop ≤ (splitStack.2.area 2).start := by
  have hmem : splitStack.2 ∈ splitWorld.spaces := mem_cons_self splitStack.2 0
  have hareas : splitStack.2.areas = [1, 2] := by decide +kernel
  have hreach : (system SpaceCall.Fits).Reachable splitWorld :=
    splitWorld_reachable fun c hc => (splitCalls_fit c hc).2
  obtain ⟨-, -, hapart, -, htree, -⟩ := areas_in_order hreach hmem
  rw [hareas, List.pairwise_pair] at hapart
  exact ⟨hareas, htree, by decide +kernel, hapart⟩

end

end World
end Erebus.Vmm
