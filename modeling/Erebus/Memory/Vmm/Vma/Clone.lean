import Erebus.Memory.Vmm.Vma.Operations

/-!
# Copying and destroying a space

* `CloneTables T`: what the page tables have to keep up while `clone_into` prepares the child: `T R`
  says that the child has no translation outside `R`, and whatever else is to be preserved.
* `Cloning`: how far the first phase of `clone_into` has come.
* `cloneVma_ok`, `clonePhase1_ok`: an area, and all areas, of the child.
* `abort_ok`: everything the first phase took is given back.
* `clonePhase2_ok`, `cloneInto_ok`: the areas of the parent get their shadows.
* `destroy_ok`: `~AddressSpace` gives everything back.
-/

namespace Erebus.Vmm.AddressSpace

open RefCount Memory

/-- The addresses in the areas. -/
def range (s : AddressSpace) (ids : List Nat) : Set Nat :=
  {x | ∃ i ∈ ids, (s.area i).contains x = true}

/-- What the steps of the first phase and of `abort` do to the page tables. -/
structure CloneTables (T : Set Nat → PageMap → Prop) (parent : AddressSpace) (pids : List Nat)
    (root : Nat) : Prop where
  mono : ∀ {R R' : Set Nat} {p : PageMap}, R ⊆ R' → T R p → T R' p
  map : ∀ {R : Set Nat} {m : Memory} (child : AddressSpace) {curr i : Nat},
    child.root = root → curr ∈ pids → (parent.area curr).vmObject = none →
    i < ((parent.area curr).sizeBytes + ((parent.area curr).pageBytes - 1)) /
      (parent.area curr).pageBytes →
    (∀ x, (parent.area curr).contains x = true → x ∈ R) → T R m.tables →
    Sum.elim (fun m' => T R m'.tables) (fun m' => T R m'.tables)
      (cloneWiredPage parent child (parent.area curr) i m)
  unmap : ∀ {R : Set Nat} {m : Memory} {child : AddressSpace} {curr : Nat},
    child.root = root → curr ∈ pids →
    T R m.tables → T {x ∈ R | (parent.area curr).contains x = false}
      (unmapRange m child (parent.area curr).start (parent.area curr).sizeBytes).tables

/-! ## Giving up areas -/

section

variable {E : Past} {m : Memory} {s : AddressSpace} {ids D : List Nat} {H : Multiset Nat}

theorem unmapRange_objects (m : Memory) (s : AddressSpace) (start size : Nat) :
    (unmapRange m s start size).objects = m.objects := by
  unfold unmapRange
  split <;> rfl

theorem dropRef?_grown {x : Option Nat} (h : Sound E m (ref x + H) 0) :
    Grown m.objects (dropRef? m x).objects := by
  cases x with
  | none => exact Grown.refl _
  | some o => exact dropRef_grown (by rwa [ref_some_add] at h)

theorem unmapRange_sound {X : Multiset (Nat × PageSize)} (h : Sound E m H X) (hE : E.Endless)
    (s : AddressSpace) (start size : Nat) : Sound E (unmapRange m s start size) H X := by
  unfold unmapRange
  split
  · exact fail_sound hE h
  · exact setTables_sound h _

theorem unmapRange_areas (m : Memory) (s : AddressSpace) (start size : Nat) :
    (unmapRange m s start size).areas = m.areas ∧
    (unmapRange m s start size).nextArea = m.nextArea := by
  unfold unmapRange
  split <;> exact ⟨rfl, rfl⟩

/-- The areas of `ids` are given up one after another; `P` says how far the page tables are. -/
theorem dropAreas_ok (hE : E.Endless) (P : List Nat → PageMap → Prop) :
    ∀ {ids : List Nat} {m : Memory}, Sound E m (refs s ids + H) 0 → m.areas.Perm (ids ++ D) →
      (∀ (i : Nat) (rest : List Nat) (m : Memory), i ∈ ids → P (i :: rest) m.tables →
        P rest (unmapRange m s (s.area i).start (s.area i).sizeBytes).tables) → P ids m.tables →
      Sound E (ids.foldl s.dropArea m) H 0 ∧ (ids.foldl s.dropArea m).areas.Perm D ∧
        (ids.foldl s.dropArea m).nextArea = m.nextArea ∧
        Grown m.objects (ids.foldl s.dropArea m).objects ∧ P [] (ids.foldl s.dropArea m).tables
  | [], m, h, hperm, _, hP => by
    rw [refs_nil, zero_add] at h
    exact ⟨h, hperm, rfl, Grown.refl _, hP⟩
  | i :: ids, m, h, hperm, hstep, hP => by
    have hhead := refs_middle s [] ids i
    rw [List.nil_append, List.nil_append] at hhead
    rw [hhead, add_assoc] at h
    have hunmap := unmapRange_sound h hE s (s.area i).start (s.area i).sizeBytes
    have hareas := unmapRange_areas m s (s.area i).start (s.area i).sizeBytes
    have hkeeps :=
      dropRef?_keeps (unmapRange m s (s.area i).start (s.area i).sizeBytes) (s.area i).vmObject
    have hdrop := releaseVma_sound (dropRef?_sound hunmap) i
    have hperm' : (s.dropArea m i).areas.Perm (ids ++ D) := by
      change ((dropRef? (unmapRange m s _ _) (s.area i).vmObject).areas.erase i).Perm _
      rw [hkeeps.areas, hareas.1]
      exact (hperm.erase i).trans (by rw [List.cons_append, List.erase_cons_head])
    have htables : P ids (s.dropArea m i).tables := by
      change P ids (dropRef? (unmapRange m s _ _) (s.area i).vmObject).tables
      rw [hkeeps.tables]
      exact hstep i ids m List.mem_cons_self hP
    have hgrown : Grown m.objects (s.dropArea m i).objects := by
      have := dropRef?_grown hunmap
      rw [unmapRange_objects] at this
      exact this
    obtain ⟨hsound, hareas', hnext, hgrown', hP'⟩ := dropAreas_ok hE P hdrop hperm'
      (fun j rest m hj => hstep j rest m (List.mem_cons_of_mem i hj)) htables
    exact ⟨hsound, hareas', hnext.trans (hkeeps.nextArea.trans hareas.2), hgrown.trans hgrown', hP'⟩

/-- **`~AddressSpace`** gives everything back. -/
theorem destroy_ok (h : Good E m s ids H D) (hE : E.Endless) :
    Sound E (destroy m s) H 0 ∧ (destroy m s).areas.Perm D ∧
    (destroy m s).nextArea = m.nextArea := by
  rw [destroy, h.layout.areas_eq]
  obtain ⟨hsound, hareas, hnext, -⟩ :=
    dropAreas_ok hE (fun _ _ => True) h.sound h.areas (fun _ _ _ _ _ => trivial) trivial
  exact ⟨hsound, hareas, hnext⟩

end

/-! ## The first phase -/

/-- Where the first phase of `clone_into` is: the child has areas like those of the parent, and
`shadows` are for the parent. `base` are the objects before the call. -/
structure Cloning (E : Past) (T : Set Nat → PageMap → Prop) (base : Heap Backing)
    (parent : AddressSpace)
    (pids : List Nat) (H : Multiset Nat) (D : List Nat) (root : Nat) (m : Memory)
    (child : AddressSpace) (cids : List Nat) (shadows : List (Option Nat)) : Prop where
  good : Good E m child cids (refs parent pids + ((shadows.map ref).sum + H)) (pids ++ D)
  root : child.root = root
  grown : Grown base m.objects
  copies : ∀ i ∈ cids, ∃ j ∈ pids, (child.area i).start = (parent.area j).start ∧
    (child.area i).stop = (parent.area j).stop ∧
    (child.area i).flags.pageSize = (parent.area j).flags.pageSize
  tables : T (child.range cids) m.tables

section Phase1

variable {E : Past} {T : Set Nat → PageMap → Prop} {base : Heap Backing} {m m' : Memory}
  {parent child child' s : AddressSpace} {ids pids cids D : List Nat} {H : Multiset Nat}
  {root curr vma obj : Nat} {shadows : List (Option Nat)}

/-- An area gets another object, and the reference to the old one is left over. -/
theorem Good.swapObject (h : Good E m s ids (obj ::ₘ H) D) (hvma : vma ∈ ids) :
    Good E m (s.setObject vma obj) ids (ref (s.area vma).vmObject + H) D := by
  have hlayout : Layout (s.setObject vma obj) ids := h.layout.congr rfl rfl rfl fun i _ => by
    rw [setObject]
    rcases eq_or_ne i vma with rfl | hne
    · rw [setArea_same]
      exact ⟨rfl, rfl⟩
    · rw [setArea_other s _ hne]
      exact ⟨rfl, rfl⟩
  refine h.move hlayout ?_ (.refl _) rfl rfl
  obtain ⟨a, b, rfl⟩ := List.append_of_mem hvma
  have hnew : vma ∉ a ++ b := (List.nodup_cons.1 (List.nodup_middle.1 h.layout.dlist.nodup)).1
  have hrest : refs (s.setObject vma obj) (a ++ b) = refs s (a ++ b) := by
    refine refs_congr fun i hi => ?_
    rw [setObject, setArea_other s _ fun (heq : i = vma) => hnew (heq ▸ hi)]
  have hsound := h.sound
  rw [refs_middle, ← ref_some_add, add_assoc] at hsound
  rw [refs_middle, hrest, setObject, setArea_same]
  convert hsound using 1
  ac_rfl

theorem Good.setAccess (h : Good E m s ids H D) (vma : Nat) (access : AccessFlags) :
    Good E m (s.setAccess vma access) ids H D := h.setArea rfl rfl rfl

/-- A shadow for an object somebody refers to. -/
theorem Good.createShadowClone (h : Good E m s ids H D) (ho : obj ∈ refs s ids + H) :
    ∃ r m', m.createShadowClone obj = (r, m') ∧ Good E m' s ids (ref r + H) D ∧
    m'.tables = m.tables ∧ Grown m.objects m'.objects := by
  obtain ⟨r, m', heq, hsound⟩ := createShadowClone_sound h.sound ho
  have hkeeps := createShadowClone_keeps m obj
  have hgrown := createShadowClone_grown m obj
  rw [heq] at hkeeps hgrown
  refine ⟨r, m', heq, h.memory ?_ hkeeps.areas hkeeps.nextArea, hkeeps.tables, hgrown⟩
  cases r with
  | none =>
    rw [ref_none_add]
    exact hsound
  | some o =>
    rw [ref_some_add, Multiset.add_cons]
    exact hsound

/-- The areas of a space that only differ in their objects and access flags. -/
structure SameRanges (s s' : AddressSpace) : Prop where
  root : s'.root = s.root
  bounds : ∀ i, (s'.area i).start = (s.area i).start ∧ (s'.area i).stop = (s.area i).stop ∧
    (s'.area i).flags.pageSize = (s.area i).flags.pageSize

theorem SameRanges.refl (s : AddressSpace) : SameRanges s s := ⟨rfl, fun _ => ⟨rfl, rfl, rfl⟩⟩

theorem SameRanges.trans {s' s'' : AddressSpace} (h : SameRanges s s') (h' : SameRanges s' s'') :
    SameRanges s s'' :=
  ⟨h'.root.trans h.root, fun i =>
    ⟨(h'.bounds i).1.trans (h.bounds i).1, (h'.bounds i).2.1.trans (h.bounds i).2.1,
    (h'.bounds i).2.2.trans (h.bounds i).2.2⟩⟩

theorem SameRanges.setArea {v : VMArea}
    (hv : v.start = (s.area vma).start ∧ v.stop = (s.area vma).stop ∧
    v.flags.pageSize = (s.area vma).flags.pageSize) : SameRanges s (s.setArea vma v) := by
  refine ⟨rfl, fun i => ?_⟩
  rcases eq_or_ne i vma with rfl | hne
  · rwa [setArea_same]
  · rw [setArea_other s _ hne]
    exact ⟨rfl, rfl, rfl⟩

/-- An area gets another object and is to be copied on a write. -/
theorem SameRanges.shadowed (s : AddressSpace) (vma obj : Nat) (access : AccessFlags) :
    SameRanges s ((s.setObject vma obj).setAccess vma access) :=
  (show SameRanges s (s.setObject vma obj) from .setArea ⟨rfl, rfl, rfl⟩).trans
    (.setArea ⟨rfl, rfl, rfl⟩)

theorem SameRanges.range (h : SameRanges s child) (ids : List Nat) :
    child.range ids = s.range ids := by
  ext x
  refine exists_congr fun i => and_congr_right fun _ => ?_
  rw [contains_iff, contains_iff, (h.bounds i).1, (h.bounds i).2.1]

/-- The object of an area of the child. -/
theorem cloneObject_ok (h : Good E m child cids H D) (ho : obj ∈ H) (hvma : vma ∈ cids)
    (hnone : (child.area vma).vmObject = none) (access : AccessFlags) :
    ∃ r m' child', cloneObject m child vma obj access = (r, m', child') ∧ SameRanges child child' ∧
      Good E m' child' cids ((r.toOption.map ref).getD 0 + H) D ∧ m'.tables = m.tables ∧
      Grown m.objects m'.objects := by
  unfold cloneObject
  split
  · have hadd := (h.addRef (Multiset.mem_add.2 (.inr ho))).swapObject hvma
    rw [hnone, ref_none_add] at hadd
    refine ⟨_, _, _, rfl, .setArea ⟨rfl, rfl, rfl⟩, ?_, (addRef_keeps m obj).tables,
      addRef_grown m obj⟩
    change Good E _ _ cids (ref none + H) D
    rw [ref_none_add]
    exact hadd
  · obtain ⟨r, m₁, heq₁, hgood₁, htables₁, hgrown₁⟩ :=
      h.createShadowClone (Multiset.mem_add.2 (.inr ho))
    rw [heq₁]
    cases r with
    | none =>
      rw [ref_none_add] at hgood₁
      refine ⟨_, m₁, child, rfl, SameRanges.refl child, ?_, htables₁, hgrown₁⟩
      change Good E _ _ cids (0 + H) D
      rw [zero_add]
      exact hgood₁
    | some childShadow =>
      rw [ref_some_add] at hgood₁
      have hswap := (hgood₁.swapObject hvma).setAccess vma (access ||| .copyOnWrite)
      rw [hnone, ref_none_add] at hswap
      have hranges := SameRanges.shadowed child vma childShadow (access ||| .copyOnWrite)
      obtain ⟨r, m₂, heq₂, hgood₂, htables₂, hgrown₂⟩ :=
        hswap.createShadowClone (Multiset.mem_add.2 (.inr ho))
      dsimp only
      rw [heq₂]
      cases r with
      | none =>
        rw [ref_none_add] at hgood₂
        refine ⟨_, m₂, _, rfl, hranges, ?_, htables₂.trans htables₁, hgrown₁.trans hgrown₂⟩
        change Good E _ _ cids (0 + H) D
        rw [zero_add]
        exact hgood₂
      | some parentShadow =>
        exact ⟨_, m₂, _, rfl, hranges, hgood₂, htables₂.trans htables₁, hgrown₁.trans hgrown₂⟩

/-- The shadow a step adds to those for the parent. -/
def added : Except Unit (Option Nat) → List (Option Nat)
  | .ok shadow => [shadow]
  | .error _ => []

theorem sum_added (r : Except Unit (Option Nat)) :
    ((added r).map ref).sum = (r.toOption.map ref).getD 0 := by
  cases r with
  | ok shadow => exact List.sum_singleton
  | error u => rfl

variable (hT : CloneTables T parent pids root)
include hT

/-- The translations of a wired area. -/
theorem cloneWired_ok (hroot : child.root = root) (hcurr : curr ∈ pids)
    (hwired : (parent.area curr).vmObject = none) {R : Set Nat}
    (hR : ∀ x, (parent.area curr).contains x = true → x ∈ R) (hm : T R m.tables)
    (h : Good E m child cids H D) :
    Sum.elim (fun m' => T R m'.tables ∧ Good E m' child cids H D ∧ m'.objects = m.objects)
      (fun m' => T R m'.tables ∧ Good E m' child cids H D ∧ m'.objects = m.objects)
      (cloneWired parent child (parent.area curr) m) := by
  refine Loop.upTo_ok (s := m) (fun _ m' => T R m'.tables ∧ Good E m' child cids H D ∧
    m'.objects = m.objects) _ (fun i m' hi hinv => ?_) ⟨hm, h, rfl⟩
  have htables := hT.map child hroot hcurr hwired hi hR hinv.1
  obtain ⟨-, hgood, hobjects⟩ := hinv
  revert htables
  unfold cloneWiredPage
  dsimp only
  split
  · exact fun htables => ⟨htables, hgood, hobjects⟩
  · split
    · exact fun htables => ⟨htables, hgood.setTables _, hobjects⟩
    · exact fun htables => ⟨htables, hgood.setTables _, hobjects⟩

/-- **One area of the first phase.**  If it fails, the child may have the area without an object. -/
theorem cloneVma_ok (hlayout : Layout parent pids)
    (h : Cloning E T base parent pids H D root m child cids shadows) (hcurr : curr ∈ pids)
    (hbelow : ∀ i ∈ cids, (child.area i).stop ≤ (parent.area curr).start) :
    ∃ r m' child' cids', cloneVma parent m child curr = (r, m', child') ∧
      Cloning E T base parent pids H D root m' child' cids' (shadows ++ added r) ∧
      (∀ i ∈ cids', (child'.area i).stop ≤ (parent.area curr).stop) ∧
      ∀ shadow, r = .ok (some shadow) → (parent.area curr).vmObject ≠ none := by
  have hproper := hlayout.proper curr hcurr
  have hbelow' : ∀ i ∈ cids, (child.area i).stop ≤ (parent.area curr).stop := fun i hi => by
    have := hbelow i hi
    omega
  have hnil : ∀ u : Unit, shadows ++ added (.error u) = shadows := fun _ => List.append_nil shadows
  obtain ⟨r, m₁, halloc, hgood₁, htables₁, hobjects₁⟩ := h.good.allocate
  rw [cloneVma, halloc]
  cases r with
  | none =>
    refine ⟨_, m₁, child, cids, rfl, ?_, hbelow', nofun⟩
    rw [hnil]
    exact ⟨hgood₁, h.root, hobjects₁ ▸ h.grown, h.copies, htables₁ ▸ h.tables⟩
  | some childVma =>
    have hfree : child.Free cids (parent.area curr).start (parent.area curr).stop :=
      ⟨hproper.1, fun i hi => .inl (hbelow i hi)⟩
    have hgood₁' :
        Good E m₁ child cids (ref none + (refs parent pids + ((shadows.map ref).sum + H)))
        (childVma :: (pids ++ D)) := by
      rw [ref_none_add]
      exact hgood₁
    obtain ⟨entered, m₂, henter, htables₂, hobjects₂, hnone, hsome⟩ := enterArea_ok
      (v := { parent.area curr with vmObject := none, faultCount := 0 }) hgood₁' hfree hproper.2
    have hgrown₂ : Grown base m₂.objects := by
      rw [hobjects₂, hobjects₁]
      exact h.grown
    have hm₂ : T (child.range cids) m₂.tables := by
      rw [htables₂, htables₁]
      exact h.tables
    dsimp only
    rw [henter]
    cases entered with
    | none =>
      have hgood₂ := (hnone rfl).release
      rw [ref_none_add] at hgood₂
      refine ⟨_, _, child, cids, rfl, ?_, hbelow', nofun⟩
      rw [hnil]
      exact ⟨hgood₂, h.root, hgrown₂, h.copies, hm₂⟩
    | some child₂ =>
      obtain ⟨harea, hroot₂, a, b, rfl, hgood₂⟩ := hsome child₂ rfl
      have hnew := hgood₁'.not_mem
      have hself :
          child₂.area childVma = { parent.area curr with vmObject := none, faultCount := 0 } := by
        rw [harea]
        exact setArea_same ..
      have hother : ∀ i ∈ a ++ b, child₂.area i = child.area i := fun i hi => by
        rw [harea]
        exact setArea_other child _ fun heq => hnew (heq ▸ hi)
      have hmem : ∀ i ∈ a ++ childVma :: b, i = childVma ∨ i ∈ a ++ b := fun i hi => by
        simp only [List.mem_append, List.mem_cons] at hi ⊢
        tauto
      -- whatever shares the ranges of the child at this point has the areas it should have
      have hcopies : ∀ {child'}, SameRanges child₂ child' → ∀ i ∈ a ++ childVma :: b, ∃ j ∈ pids,
          (child'.area i).start = (parent.area j).start ∧
          (child'.area i).stop = (parent.area j).stop ∧
            (child'.area i).flags.pageSize = (parent.area j).flags.pageSize := by
        intro child' hranges i hi
        rw [(hranges.bounds i).1, (hranges.bounds i).2.1, (hranges.bounds i).2.2]
        rcases hmem i hi with rfl | hi
        · rw [hself]
          exact ⟨curr, hcurr, rfl, rfl, rfl⟩
        · rw [hother i hi]
          exact h.copies i hi
      have hstops : ∀ {child'}, SameRanges child₂ child' → ∀ i ∈ a ++ childVma :: b,
          (child'.area i).stop ≤ (parent.area curr).stop := by
        intro child' hranges i hi
        rw [(hranges.bounds i).2.1]
        rcases hmem i hi with rfl | hi
        · rw [hself]
        · rw [hother i hi]
          exact hbelow' i hi
      have hm₂' : T (child₂.range (a ++ childVma :: b)) m₂.tables := by
        refine hT.mono ?_ hm₂
        rintro x ⟨i, hi, hc⟩
        refine ⟨i, ?_, by rwa [hother i hi]⟩
        simp only [List.mem_append, List.mem_cons] at hi ⊢
        tauto
      have hR : ∀ x, (parent.area curr).contains x = true → x ∈ child₂.range (a ++ childVma :: b) :=
        fun x hx => ⟨childVma, by simp, by rw [contains_iff] at hx ⊢; rw [hself]; exact hx⟩
      have hroot' : child₂.root = root := hroot₂.trans h.root
      dsimp only
      cases hobj : (parent.area curr).vmObject with
      | none =>
        have hwired := cloneWired_ok hT hroot' hcurr hobj hR hm₂' hgood₂
        dsimp only
        split
        · rename_i m₃ heq
          rw [heq] at hwired
          obtain ⟨hm₃, hgood₃, hobjects₃⟩ := hwired
          refine ⟨_, m₃, child₂, _, rfl, ?_, hstops (SameRanges.refl _), nofun⟩
          rw [hnil]
          exact ⟨hgood₃, hroot', by rwa [hobjects₃], hcopies (.refl _), hm₃⟩
        · rename_i m₃ heq
          rw [heq] at hwired
          obtain ⟨hm₃, hgood₃, hobjects₃⟩ := hwired
          refine ⟨_, m₃, child₂, _, rfl, ⟨?_, hroot', by rwa [hobjects₃], hcopies (.refl _), hm₃⟩,
            hstops (.refl _), nofun⟩
          rw [List.map_append, List.sum_append, sum_added]
          change Good E m₃ child₂ _ (refs parent pids + ((shadows.map ref).sum + ref none + H)) _
          rwa [add_assoc _ (ref none), ref_none_add]
      | some obj =>
        have ho : obj ∈ refs parent pids + ((shadows.map ref).sum + H) :=
          Multiset.mem_add.2 (.inl (mem_refs hcurr hobj))
        obtain ⟨r, m₃, child₃, heq, hranges, hgood₃, htables₃, hgrown₃⟩ :=
          cloneObject_ok hgood₂ ho (show childVma ∈ a ++ childVma :: b by simp) (by rw [hself])
            (parent.area curr).flags.getAccess
        dsimp only
        rw [heq]
        refine ⟨r, m₃, child₃, _, rfl,
          ⟨?_, hranges.root.trans hroot', hgrown₂.trans hgrown₃, hcopies hranges, ?_⟩,
          hstops hranges, fun _ _ => by simp⟩
        · rw [List.map_append, List.sum_append, sum_added]
          convert hgood₃ using 1
          ac_rfl
        · rw [hranges.range, htables₃]
          exact hm₂'

/-- **The first phase.** -/
theorem clonePhase1_ok (hlayout : Layout parent pids) :
    ∀ {nodes : List Nat} {m : Memory} {child : AddressSpace} {cids : List Nat}
    {shadows : List (Option Nat)},
      Cloning E T base parent pids H D root m child cids shadows → (∀ i ∈ nodes, i ∈ pids) →
      nodes.Pairwise (fun i j => (parent.area i).stop ≤ (parent.area j).start) →
      (∀ i ∈ cids, ∀ j ∈ nodes, (child.area i).stop ≤ (parent.area j).start) →
      ∃ ok new m' child' cids', clonePhase1 parent nodes m child shadows =
        (ok, shadows ++ new, m', child') ∧
        Cloning E T base parent pids H D root m' child' cids' (shadows ++ new) ∧
        (ok = true → new.length = nodes.length) ∧
        ∀ p ∈ nodes.zip new, ∀ shadow, p.2 = some shadow → (parent.area p.1).vmObject ≠ none
  | [], m, child, cids, shadows, h, _, _, _ => by
    refine ⟨true, [], m, child, cids, ?_, ?_, fun _ => rfl, fun p hp => absurd hp List.not_mem_nil⟩
    · rw [List.append_nil]
      rfl
    · rw [List.append_nil]
      exact h
  | curr :: rest, m, child, cids, shadows, h, hsub, hord, hbelow => by
    obtain ⟨hfirst, hord⟩ := List.pairwise_cons.1 hord
    obtain ⟨r, m₁, child₁, cids₁, heq, hcloning, hstops, hobj⟩ :=
      cloneVma_ok hT hlayout h (hsub curr (by simp)) fun i hi => hbelow i hi curr (by simp)
    rw [clonePhase1, heq]
    cases r with
    | error u => exact ⟨false, [], m₁, child₁, cids₁, by simp, hcloning, nofun, by simp⟩
    | ok shadow =>
      obtain ⟨ok, new, m', child', cids', hrest, hcloning', hlen, hnew⟩ :=
        clonePhase1_ok hlayout hcloning (fun i hi => hsub i (List.mem_cons_of_mem curr hi)) hord
          fun i hi j hj => (hstops i hi).trans (hfirst j hj)
      rw [added, List.append_assoc, List.singleton_append] at hcloning'
      refine ⟨ok, shadow :: new, m', child', cids', ?_, hcloning', fun hok => ?_, fun p hp => ?_⟩
      · dsimp only
        rw [added] at hrest
        rw [hrest, List.append_assoc, List.singleton_append]
      · rw [List.length_cons, List.length_cons, hlen hok]
      · rw [List.zip_cons_cons, List.mem_cons] at hp
        rcases hp with rfl | hp
        · exact fun sh hsh => hobj sh (congrArg Except.ok hsh)
        · exact hnew p hp

omit hT

/-! ## Giving up -/

theorem abortVma_fold (m : Memory) (child : AddressSpace) (l : List Nat) :
    l.foldl (fun x c => abortVma x.1 x.2 c) (m, child) = (l.foldl child.dropArea m,
        { child with
          tree := l.foldl (fun t c => KeyMap.erase (child.area c).start t) child.tree }) := by
  induction l generalizing m child with
  | nil => rfl
  | cons c l ih =>
    rw [List.foldl_cons, ih]
    rfl

theorem erase_all {f : Nat → Nat} (l : List Nat) (t : List (Nat × Nat))
    (ht : ∀ e ∈ t, ∃ c ∈ l, e.1 = f c) : l.foldl (fun t c => KeyMap.erase (f c) t) t = [] := by
  induction l generalizing t with
  | nil =>
    refine List.eq_nil_iff_forall_not_mem.2 fun e he => ?_
    obtain ⟨c, hc, -⟩ := ht e he
    exact List.not_mem_nil hc
  | cons c l ih =>
    refine ih _ fun e he => ?_
    obtain ⟨hmem, hne⟩ := List.mem_filter.1 (show e ∈ KeyMap.erase (f c) t from he)
    obtain ⟨c', hc', heq⟩ := ht e hmem
    rcases List.mem_cons.1 hc' with rfl | hc'
    · simp [heq] at hne
    · exact ⟨c', hc', heq⟩

/-- References in hand are dropped. -/
theorem dropShadows_ok :
    ∀ {shadows : List (Option Nat)} {m : Memory}, Good E m s ids ((shadows.map ref).sum + H) D →
    Good E (shadows.foldl dropRef? m) s ids H D ∧
    Grown m.objects (shadows.foldl dropRef? m).objects ∧
      (shadows.foldl dropRef? m).tables = m.tables
  | [], m, h => by
    rw [List.map_nil, List.sum_nil, zero_add] at h
    exact ⟨h, Grown.refl _, rfl⟩
  | shadow :: shadows, m, h => by
    rw [List.map_cons, List.sum_cons, add_assoc] at h
    have hsound := h.sound
    rw [add_left_comm] at hsound
    obtain ⟨hgood, hgrown, htables⟩ := dropShadows_ok h.dropRef?
    exact ⟨hgood, (dropRef?_grown hsound).trans hgrown,
      htables.trans (dropRef?_keeps m shadow).tables⟩

/-- **`abort`** gives back everything the first phase took. -/
theorem abort_ok (hT : CloneTables T parent pids root)
    (h : Cloning E T base parent pids H D root m child cids shadows) (hE : E.Endless) :
    ∃ m' child', abort m child shadows = (m', child') ∧
    Good E m' child' [] (refs parent pids + H) (pids ++ D) ∧
      child'.root = root ∧ Grown base m'.objects ∧ T ∅ m'.tables := by
  rw [abort, h.good.layout.areas_eq, abortVma_fold]
  have hstep : ∀ (i : Nat) (rest : List Nat) (m : Memory), i ∈ cids →
      T (child.range (i :: rest)) m.tables →
      T (child.range rest)
        (unmapRange m child (child.area i).start (child.area i).sizeBytes).tables := by
    intro i rest m hi hm
    obtain ⟨j, hj, hstart, hstop, -⟩ := h.copies i hi
    have hbytes : (child.area i).sizeBytes = (parent.area j).sizeBytes := by
      rw [VMArea.sizeBytes, VMArea.sizeBytes, hstart, hstop]
    rw [hstart, hbytes]
    refine hT.mono ?_ (hT.unmap h.root hj hm)
    rintro x ⟨⟨k, hk, hc⟩, hout⟩
    rcases List.mem_cons.1 hk with rfl | hk
    · rw [contains_iff, hstart, hstop, ← contains_iff, hout] at hc
      cases hc
    · exact ⟨k, hk, hc⟩
  obtain ⟨hsound, hareas, hnext, hgrown, htables⟩ :=
    dropAreas_ok hE (fun rest => T (child.range rest)) h.good.sound h.good.areas hstep h.tables
  have htree : cids.foldl (fun t c => KeyMap.erase (child.area c).start t) child.tree = [] := by
    refine erase_all (f := fun c => (child.area c).start) cids child.tree fun e he => ?_
    rw [h.good.layout.tree] at he
    obtain ⟨i, hi, rfl⟩ := List.mem_map.1 he
    exact ⟨i, hi, rfl⟩
  have hgood : Good E (cids.foldl child.dropArea m) { child with
        tree := cids.foldl (fun t c => KeyMap.erase (child.area c).start t) child.tree
        ends := ⟨none, none⟩ } []
      ((shadows.map ref).sum + (refs parent pids + H)) (pids ++ D) := by
    refine ⟨⟨DList.isDList_nil _, htree, List.Pairwise.nil, fun i hi => absurd hi List.not_mem_nil⟩,
      ?_, hareas, ?_, ?_⟩
    · rw [refs_nil, zero_add, add_left_comm]
      exact hsound
    · exact (List.nodup_append.1 h.good.nodup).2.1
    · intro i hi
      rw [hnext]
      exact h.good.fresh i (List.mem_append_right cids hi)
  obtain ⟨hgood', hgrown', htables'⟩ := dropShadows_ok hgood
  refine ⟨_, _, rfl, hgood', h.root, h.grown.trans (hgrown.trans hgrown'), ?_⟩
  rw [htables']
  refine hT.mono ?_ htables
  rintro x ⟨i, hi, -⟩
  exact absurd hi List.not_mem_nil

end Phase1

/-! ## The second phase -/

section

variable {E : Past} {T : Set Nat → PageMap → Prop} {m m' : Memory} {parent child s : AddressSpace}
  {pids cids D : List Nat} {H : Multiset Nat} {curr : Nat}

theorem Good.writeProtectRange (h : Good E m s pids H D) (hE : E.Endless) (start size : Nat) :
    Good E (writeProtectRange m s start size) s pids H D := by
  unfold AddressSpace.writeProtectRange
  split
  · exact h.fail hE
  · exact h.setTables _

/-- An area of the parent gets its shadow. -/
theorem commitVma_ok {shadow : Option Nat} (h : Good E m parent pids (ref shadow + H) D)
    (hE : E.Endless) (hcurr : curr ∈ pids)
    (hobj : ∀ o, shadow = some o → (parent.area curr).vmObject ≠ none) :
    ∃ m' parent', commitVma m parent curr shadow = (m', parent') ∧ Good E m' parent' pids H D ∧
      SameRanges parent parent' ∧ ∀ i, i ≠ curr → parent'.area i = parent.area i := by
  cases shadow with
  | none =>
    rw [ref_none_add] at h
    exact ⟨m, parent, rfl, h, SameRanges.refl parent, fun _ _ => rfl⟩
  | some shadow =>
    obtain ⟨old, hold⟩ := Option.ne_none_iff_exists'.1 (hobj shadow rfl)
    rw [ref_some_add] at h
    have hswap :=
      ((h.writeProtectRange hE (parent.area curr).start (parent.area curr).sizeBytes).swapObject
      hcurr).setAccess curr ((parent.area curr).flags.getAccess ||| .copyOnWrite)
    rw [hold, ref_some_add] at hswap
    rw [commitVma, hold]
    refine ⟨_, _, rfl, hswap.dropRef, .shadowed .., fun i hne => ?_⟩
    rw [setAccess, setArea_other _ _ hne, setObject, setArea_other _ _ hne]

theorem SameRanges.aligned {s' : AddressSpace} (h : SameRanges s s') {ids : List Nat}
    (ha : s.Aligned ids) : s'.Aligned ids := fun i hi => by
  rw [VMArea.pageBytes, (h.bounds i).2.2, (h.bounds i).1, (h.bounds i).2.1]
  exact ha i hi

/-- **The second phase.** -/
theorem clonePhase2_ok (hE : E.Endless) : ∀ {pairs : List (Nat × Option Nat)} {m : Memory}
    {parent : AddressSpace}, Good E m parent pids (((pairs.map Prod.snd).map ref).sum + H) D →
    (∀ p ∈ pairs, p.1 ∈ pids) → (pairs.map Prod.fst).Nodup →
    (∀ p ∈ pairs, ∀ o, p.2 = some o → (parent.area p.1).vmObject ≠ none) →
    ∃ m' parent', clonePhase2 m parent pairs = (m', parent') ∧ Good E m' parent' pids H D ∧
    SameRanges parent parent'
  | [], m, parent, h, _, _, _ => by
    rw [List.map_nil, List.map_nil, List.sum_nil, zero_add] at h
    exact ⟨m, parent, rfl, h, SameRanges.refl parent⟩
  | p :: pairs, m, parent, h, hmem, hnodup, hobj => by
    rw [List.map_cons, List.map_cons, List.sum_cons, add_assoc] at h
    rw [List.map_cons, List.nodup_cons] at hnodup
    obtain ⟨m₁, parent₁, heq, hgood₁, hranges₁, hother⟩ :=
      commitVma_ok h hE (hmem p (by simp)) (hobj p (by simp))
    obtain ⟨m', parent', hrest, hgood, hranges⟩ := clonePhase2_ok hE hgood₁
      (fun q hq => hmem q (List.mem_cons_of_mem p hq)) hnodup.2 fun q hq o ho => by
        rw [hother q.1 fun heq => hnodup.1 (heq ▸ List.mem_map_of_mem hq)]
        exact hobj q (List.mem_cons_of_mem p hq) o ho
    refine ⟨m', parent', ?_, hgood, hranges₁.trans hranges⟩
    rw [clonePhase2] at hrest ⊢
    rw [List.foldl_cons, heq]
    exact hrest

/-- The same accounts, seen from another space. -/
theorem Good.swap {t : AddressSpace} {ids tids : List Nat}
    (h : Good E m s ids (refs t tids + H) (tids ++ D))
    (ht : Layout t tids) : Good E m t tids (refs s ids + H) (ids ++ D) where
  layout := ht
  sound := by
    rw [add_left_comm]
    exact h.sound
  areas := h.areas.trans (List.perm_append_comm_assoc ..)
  nodup := (List.perm_append_comm_assoc ids tids D).nodup_iff.1 h.nodup
  fresh i hi := h.fresh i ((List.perm_append_comm_assoc tids ids D).mem_iff.1 hi)

theorem Good.with_empty (h : Good E m s pids H D) (hchild : Layout child []) :
    Good E m child [] (refs s pids + H) (pids ++ D) := by
  refine Good.swap ?_ hchild
  rw [refs_nil, zero_add, List.nil_append]
  exact h

/-- **`clone_into`**, into a child without areas. -/
theorem cloneInto_ok (hT : CloneTables T parent pids child.root) (h : Good E m parent pids H D)
    (hchild : Layout child []) (hE : E.Endless) (hm : T ∅ m.tables) :
    ∃ r m' parent' child' cids', cloneInto m parent child = (r, m', parent', child') ∧
      Good E m' parent' pids (refs child' cids' + H) (cids' ++ D) ∧ Layout child' cids' ∧
      SameRanges parent parent' ∧ child'.root = child.root ∧
      (parent.Aligned pids → child'.Aligned cids') ∧
      (r ≠ .ok () → parent' = parent ∧ cids' = [] ∧ Grown m.objects m'.objects ∧
        T ∅ m'.tables) := by
  have hempty : ∀ {m' : Memory} {child' : AddressSpace},
      Good E m' child' [] (refs parent pids + H) (pids ++ D) →
      Good E m' parent pids (refs child' [] + H) ([] ++ D) := fun hgood => hgood.swap h.layout
  rw [cloneInto, h.layout.areas_eq]
  split
  · refine ⟨_, m, parent, child, [], rfl, hempty (h.with_empty hchild), hchild,
      SameRanges.refl parent, rfl,
      fun _ i hi => absurd hi List.not_mem_nil, fun hne => absurd rfl hne⟩
  obtain ⟨answer, m₁, hgrant, hsame⟩ := grant_same m
  have hgood₁ := (h.same hsame).with_empty hchild
  rw [hgrant]
  cases answer with
  | false =>
    exact ⟨_, m₁, parent, child, [], rfl, hempty hgood₁, hchild, .refl parent, rfl,
      fun _ i hi => absurd hi List.not_mem_nil,
      fun _ => ⟨rfl, rfl, hsame.objects ▸ Grown.refl m.objects, hsame.tables ▸ hm⟩⟩
  | true =>
    have hstart : Cloning E T m.objects parent pids H D child.root m₁ child [] [] := by
      refine ⟨?_, rfl, hsame.objects ▸ Grown.refl m.objects,
        fun i hi => absurd hi List.not_mem_nil, ?_⟩
      · rw [List.map_nil, List.sum_nil, zero_add]
        exact hgood₁
      · rw [hsame.tables]
        exact hT.mono (Set.empty_subset _) hm
    obtain ⟨ok, shadows, m₂, child₂, cids, hphase, hcloning, hlen, hobj⟩ :=
      clonePhase1_ok hT h.layout hstart
      (fun _ hi => hi) h.layout.ordered fun i hi => absurd hi List.not_mem_nil
    rw [List.nil_append] at hphase hcloning
    dsimp only
    rw [hphase]
    cases ok with
    | false =>
      obtain ⟨m', child', habort, hgood', hroot, hgrown, htables⟩ := abort_ok hT hcloning hE
      dsimp only
      rw [habort]
      exact ⟨_, m', parent, child', [], rfl, hempty hgood', hgood'.layout, .refl parent, hroot,
        fun _ i hi => absurd hi List.not_mem_nil, fun _ => ⟨rfl, rfl, hgrown, htables⟩⟩
    | true =>
      have hfst : (pids.zip shadows).map Prod.fst = pids :=
        List.map_fst_zip (le_of_eq (hlen rfl).symm)
      have hsnd : (pids.zip shadows).map Prod.snd = shadows :=
        List.map_snd_zip (le_of_eq (hlen rfl))
      have hgood₂ : Good E m₂ parent pids (((pids.zip shadows).map Prod.snd |>.map ref).sum +
          (refs child₂ cids + H)) (cids ++ D) := by
        rw [hsnd, add_left_comm]
        exact hcloning.good.swap h.layout
      obtain ⟨m', parent', hphase2, hgood', hranges⟩ := clonePhase2_ok hE hgood₂
        (fun p hp => (List.of_mem_zip hp).1) (by rw [hfst]; exact h.layout.dlist.nodup) hobj
      dsimp only
      rw [hphase2]
      refine ⟨_, m', parent', child₂, cids, rfl, hgood', hcloning.good.layout, hranges,
        hcloning.root, fun ha i hi => ?_, fun hne => absurd rfl hne⟩
      obtain ⟨j, hj, hstart', hstop', hpage⟩ := hcloning.copies i hi
      rw [VMArea.pageBytes, hstart', hstop', hpage]
      exact ha j hj

end

end Erebus.Vmm.AddressSpace
