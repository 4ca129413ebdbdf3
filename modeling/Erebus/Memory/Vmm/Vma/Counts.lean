import Erebus.Memory.Vmm.Vma.Allocate

/-!
# Counts and frames

* `owned`: the frames of all objects.
* `Sound E m H X`: every object counts the references `H` to it, besides those of its shadows; the
  allocator has handed out the frames of the objects, and the frames `X` that are on their way to
  one; and of the things that must not happen only those in `E` did.
* One lemma for each operation on the memory: what it takes out of `H` or puts there.
-/

namespace Erebus.Vmm

open RefCount

/-- The frames of an object. -/
def Backing.frames (b : Backing) : Multiset (Nat × PageSize) :=
  ↑(b.pages.map fun page => (page.2, b.pageSize))

/-- The frames of all objects. -/
def owned (h : Heap Backing) : Multiset (Nat × PageSize) := (h.bodies.map Backing.frames).sum

/-- What may have gone wrong, and the objects that are gone for good. -/
structure Past where
  faults : Set Fault
  gone : Set Nat := ∅

/-- Searches without end are tolerated. -/
abbrev Past.Endless (E : Past) : Prop := Fault.endlessLoop ∈ E.faults

/-- Every reference and every frame is accounted for. -/
structure Sound (E : Past) (m : Memory) (H : Multiset Nat)
    (X : Multiset (Nat × PageSize)) : Prop where
  counted : Counted m.objects H
  frames : (m.held : Multiset (Nat × PageSize)) = owned m.objects + X
  fault : ∀ f, m.fault = some f → f ∈ E.faults
  gone : ∀ o ∈ E.gone, Gone m.objects o

namespace Memory

variable {E : Past} {m m' : Memory} {H : Multiset Nat} {X : Multiset (Nat × PageSize)} {o : Nat}
  {block : Nat × PageSize}
variable {c : Cell Backing}

theorem Sound.congr (h : Sound E m H X) (hobjects : m'.objects = m.objects)
    (hheld : m'.held = m.held) (hfault : m'.fault = m.fault) : Sound E m' H X := by
  constructor
  · rw [hobjects]
    exact h.counted
  · rw [hobjects, hheld]
    exact h.frames
  · rw [hfault]
    exact h.fault
  · rw [hobjects]
    exact h.gone

/-! ## Allocators -/

/-- Only what the allocators will answer is different. -/
structure Same (m m' : Memory) : Prop where
  objects : m'.objects = m.objects
  held : m'.held = m.held
  fault : m'.fault = m.fault
  areas : m'.areas = m.areas
  nextArea : m'.nextArea = m.nextArea
  tables : m'.tables = m.tables

theorem Same.sound (hs : Same m m') (h : Sound E m H X) : Sound E m' H X :=
  Sound.congr h hs.objects hs.held hs.fault

theorem grant_same (m : Memory) : ∃ answer m', m.grant = (answer, m') ∧ Same m m' := by
  unfold grant
  split <;> exact ⟨_, _, rfl, rfl, rfl, rfl, rfl, rfl, rfl⟩

theorem setTables_sound (h : Sound E m H X) (p : PageMap) : Sound E (m.setTables p) H X :=
  Sound.congr h rfl rfl rfl

theorem releaseVma_sound (h : Sound E m H X) (vma : Nat) : Sound E (m.releaseVma vma) H X :=
  Sound.congr h rfl rfl rfl

theorem fail_sound {f : Fault} (hf : f ∈ E.faults) (h : Sound E m H X) :
    Sound E (m.fail f) H X := by
  refine ⟨h.counted, h.frames, fun g hg => ?_, h.gone⟩
  rw [fail] at hg
  cases hfault : m.fault with
  | none =>
    rw [hfault] at hg
    cases hg
    exact hf
  | some g' =>
    rw [hfault] at hg
    cases hg
    exact h.fault _ hfault

/-- A new frame is in the hand of its owner. -/
theorem allocPages_sound (h : Sound E m H X) (size : PageSize) :
    ∃ r m', m.allocPages size = (r, m') ∧ m'.objects = m.objects ∧
      Sound E m' H ((r.map fun phys => (phys, size)).elim X (· ::ₘ X)) := by
  unfold allocPages
  split
  · split
    · refine ⟨_, _, rfl, rfl, h.counted, ?_, h.fault, h.gone⟩
      show ((_ :: m.held : List _) : Multiset (Nat × PageSize)) = _
      rw [← Multiset.cons_coe, h.frames, Option.map_some, Option.elim_some, Multiset.add_cons]
    · exact ⟨_, _, rfl, rfl, Sound.congr h rfl rfl rfl⟩
  · exact ⟨_, _, rfl, rfl, Sound.congr h rfl rfl rfl⟩
  · exact ⟨_, _, rfl, rfl, h⟩

theorem freePages_objects (m : Memory) (block : Nat × PageSize) :
    (m.freePages block).objects = m.objects := by
  unfold freePages
  split <;> rfl

/-- A frame in somebody's hand goes back. -/
theorem freePages_sound (h : Sound E m H (block ::ₘ X)) : Sound E (m.freePages block) H X := by
  have hheld : (m.held : Multiset (Nat × PageSize)) = block ::ₘ (owned m.objects + X) := by
    rw [h.frames, Multiset.add_cons]
  have hmem : block ∈ m.held := by
    rw [← Multiset.mem_coe, hheld]
    exact Multiset.mem_cons_self _ _
  rw [freePages, if_pos hmem]
  refine ⟨h.counted, ?_, h.fault, h.gone⟩
  rw [Multiset.coe_eq_coe.2 (List.perm_cons_erase hmem), ← Multiset.cons_coe] at hheld
  exact (Multiset.cons_inj_right block).1 hheld

/-! ## References -/

theorem owned_append (h : Heap Backing) (c : Cell Backing) :
    owned (h ++ [some c]) = owned h + c.body.frames := by
  simp [owned, Heap.bodies]

theorem owned_perm {h h' : Heap Backing} {gone : List Backing}
    (hperm : h.bodies.Perm (gone ++ h'.bodies)) :
    owned h = (gone.map Backing.frames).sum + owned h' := by
  rw [owned, owned, (hperm.map _).sum_eq, List.map_append, List.sum_append]

theorem owned_set {h : Heap Backing} {d : Cell Backing} (hcell : h.cell o = some c) :
    d.body.frames + owned h = c.body.frames + owned (h.set o (some d)) := by
  have hperm := bodies_set hcell (some d)
  have hsum := (hperm.map Backing.frames).sum_eq
  simpa [owned] using hsum

theorem createObject_sound (h : Sound E m H X) (type : VMAType) (size : PageSize) (maxPages : Nat) :
    ∃ r m', m.createObject none type size maxPages = (r, m') ∧
    Sound E m' (r.elim H (· ::ₘ H)) X := by
  obtain ⟨answer, m₁, hgrant, hsame⟩ := grant_same m
  have hgranted := hsame.sound h
  rw [createObject, hgrant]
  cases answer with
  | false => exact ⟨_, _, rfl, hgranted⟩
  | true =>
    refine ⟨_, _, rfl, ?_⟩
    obtain ⟨-, hcounted⟩ := create_ok hgranted.counted (⟨type, size, maxPages, []⟩ : Backing)
    refine ⟨hcounted, ?_, hgranted.fault, fun o ho => (hgranted.gone o ho).append _⟩
    show (m₁.held : Multiset (Nat × PageSize)) = owned (m₁.objects ++ [_]) + X
    rw [owned_append, hgranted.frames]
    simp [Backing.frames]

theorem addRef_sound (h : Sound E m H X) (ho : o ∈ H) : Sound E (m.addRef o) (o ::ₘ H) X := by
  obtain ⟨c, hcell, hadd, hcounted⟩ := addRef_ok h.counted ho
  rw [addRef, hadd]
  refine ⟨hcounted, ?_, h.fault, fun q hq => (h.gone q hq).set hcell _⟩
  have hset := owned_set (d := { c with refs := c.refs + 1 }) hcell
  show (m.held : Multiset (Nat × PageSize)) = owned (m.objects.set o _) + X
  rw [h.frames, add_left_cancel hset]

theorem freeBacking_sound (b : Backing) :
    ∀ {m : Memory}, Sound E m H (b.frames + X) → Sound E (m.freeBacking b) H X := by
  obtain ⟨type, size, maxPages, pages⟩ := b
  induction pages with
  | nil =>
    intro m h
    simpa [freeBacking, Backing.frames] using h
  | cons page pages ih =>
    intro m h
    refine ih (m := m.freePages (page.2, size)) (freePages_sound ?_)
    rw [← Multiset.cons_add]
    exact h

theorem freeAll_sound (gone : List Backing) :
    ∀ {m : Memory}, Sound E m H ((gone.map Backing.frames).sum + X) →
    Sound E (gone.foldl freeBacking m) H X := by
  induction gone with
  | nil =>
    intro m h
    simpa using h
  | cons b gone ih =>
    intro m h
    refine ih (m := m.freeBacking b) (freeBacking_sound b ?_)
    simpa [add_assoc] using h

/-- **A reference is dropped**; what is destroyed gives its frames back. -/
theorem dropRef_sound (h : Sound E m (o ::ₘ H) X) : Sound E (m.dropRef o) H X := by
  obtain ⟨objects, gone, hdrop, hcounted, hperm, hbelow⟩ := dropRef_ok h.counted
  rw [dropRef, hdrop]
  refine freeAll_sound gone ⟨hcounted, ?_, h.fault, fun q hq => (h.gone q hq).below hbelow⟩
  show (m.held : Multiset (Nat × PageSize)) = owned objects + _
  rw [h.frames, owned_perm hperm, add_comm _ (owned objects), add_assoc]

/-- **A shadow** holds a reference to what it shadows. -/
theorem createShadowClone_sound (h : Sound E m H X) (ho : o ∈ H) :
    ∃ r m', m.createShadowClone o = (r, m') ∧ Sound E m' (r.elim H (· ::ₘ H)) X := by
  obtain ⟨c, hcell⟩ := h.counted.of_mem ho
  obtain ⟨answer, m₁, hgrant, hsame⟩ := grant_same m
  have hgranted := hsame.sound h
  simp only [createShadowClone, hcell, hgrant]
  cases answer with
  | false => exact ⟨_, _, rfl, hgranted⟩
  | true =>
    refine ⟨_, _, rfl, ?_⟩
    have hadd := addRef_sound hgranted ho
    refine ⟨createLinked_ok hadd.counted _, ?_, hadd.fault, fun q hq => (hadd.gone q hq).append _⟩
    show ((m₁.addRef o).held : Multiset (Nat × PageSize)) = owned ((m₁.addRef o).objects ++ [_]) + X
    rw [owned_append, hadd.frames]
    simp [Backing.frames]

/-! ## Pages -/

theorem setBacking_sound {f : Backing → Backing} (hcell : m.objects.cell o = some c)
    (h : Sound E m H X)
    {X' : Multiset (Nat × PageSize)} (hX : (f c.body).frames + X' = c.body.frames + X) :
    Sound E (m.setBacking o f) H X' := by
  rw [setBacking, hcell]
  refine ⟨h.counted.setBody hcell _, ?_, h.fault, fun q hq => (h.gone q hq).set hcell _⟩
  have hset := owned_set (d := { c with body := f c.body }) hcell
  show (m.held : Multiset (Nat × PageSize)) = owned (m.objects.set o _) + X'
  have hsum : (f c.body).frames + (owned m.objects + X) =
      (f c.body).frames + (owned (m.objects.set o (some { c with body := f c.body })) + X') := by
    rw [← add_assoc, hset, add_right_comm, ← hX]
    simp only [add_assoc, add_comm, add_left_comm]
  rw [h.frames]
  exact add_left_cancel hsum

theorem expandMaxPages_sound (h : Sound E m H X) (ho : o ∈ H) (n : Nat) :
    Sound E (m.expandMaxPages o n) H X := by
  obtain ⟨c, hcell⟩ := h.counted.of_mem ho
  exact setBacking_sound hcell h rfl

/-- A frame on its way to an object comes to be one of the object's, or goes back. -/
theorem install_sound {page : Nat} (hcell : m.objects.cell o = some c)
    (h : Sound E m H ((page, c.body.pageSize) ::ₘ X))
    (pageOffset : Nat) : ∃ r m', m.install o pageOffset page = (r, m') ∧ Sound E m' H X := by
  obtain ⟨answer, m₁, hgrant, hsame⟩ := grant_same m
  have hgranted := hsame.sound h
  simp only [install, hcell, hgrant]
  split
  · refine ⟨_, _, rfl, setBacking_sound (c := c) (by rwa [hsame.objects]) hgranted ?_⟩
    rw [Multiset.add_cons, ← Multiset.cons_add]
    rfl
  · have hfree := freePages_sound hgranted
    split
    · exact ⟨_, _, rfl, hfree⟩
    · exact ⟨_, _, rfl, hfree⟩

/-- A new frame for an object. -/
theorem allocInstall_sound (hcell : m.objects.cell o = some c) (h : Sound E m H X)
    (pageOffset : Nat)
    {x : Except Error Nat × Memory} (hx : (match m.allocPages c.body.pageSize with
      | (none, m) => (.error .outOfMemory, m)
      | (some phys, m) => m.install o pageOffset phys) = x) : Sound E x.2 H X := by
  obtain ⟨r, m₁, halloc, hobjects, hsound⟩ := allocPages_sound h c.body.pageSize
  rw [halloc] at hx
  cases r with
  | none =>
    subst hx
    exact hsound
  | some phys =>
    obtain ⟨r, m₂, hinstall, hsound₂⟩ :=
      install_sound (c := c) (by rwa [hobjects]) hsound pageOffset
    dsimp only at hx
    rw [hinstall] at hx
    subst hx
    exact hsound₂

theorem getPage_sound (h : Sound E m H X) (ho : o ∈ H) (pageOffset : Nat) :
    Sound E (m.getPage o pageOffset).2 H X := by
  obtain ⟨c, hcell⟩ := h.counted.of_mem ho
  unfold getPage
  rw [hcell]
  dsimp only
  split
  · exact h
  split
  · exact h
  split
  · exact h
  split
  · exact h
  · exact allocInstall_sound hcell h pageOffset rfl

theorem resolveCowFault_sound (h : Sound E m H X) (ho : o ∈ H) (pageOffset : Nat) :
    Sound E (m.resolveCowFault o pageOffset).2 H X := by
  obtain ⟨c, hcell⟩ := h.counted.of_mem ho
  unfold resolveCowFault
  rw [hcell]
  dsimp only
  split
  · exact h
  split
  · exact h
  · exact allocInstall_sound hcell h pageOffset rfl

/-! ## Old objects -/

theorem addRef_grown (m : Memory) (o : Nat) : Grown m.objects (m.addRef o).objects := by
  unfold addRef Heap.addRef
  cases hcell : m.objects.cell o with
  | none => exact Grown.refl _
  | some c =>
    refine (below_set hcell ?_).grown
    rintro d ⟨⟩
    exact ⟨rfl, rfl⟩

theorem freeBacking_objects (m : Memory) (b : Backing) : (m.freeBacking b).objects = m.objects := by
  obtain ⟨type, size, maxPages, pages⟩ := b
  induction pages generalizing m with
  | nil => rfl
  | cons page pages ih => exact (ih (m.freePages (page.2, size))).trans (freePages_objects m _)

theorem freeAll_objects (gone : List Backing) (m : Memory) :
    (gone.foldl freeBacking m).objects = m.objects := by
  induction gone generalizing m with
  | nil => rfl
  | cons b gone ih => exact (ih (m.freeBacking b)).trans (freeBacking_objects m b)

theorem dropRef_grown (h : Sound E m (o ::ₘ H) X) : Grown m.objects (m.dropRef o).objects := by
  obtain ⟨objects, gone, hdrop, -, -, hbelow⟩ := dropRef_ok h.counted
  rw [dropRef, hdrop]
  dsimp only
  rw [freeAll_objects]
  exact hbelow.grown

theorem createShadowClone_grown (m : Memory) (o : Nat) :
    Grown m.objects (m.createShadowClone o).2.objects := by
  obtain ⟨answer, m₁, hgrant, hsame⟩ := grant_same m
  unfold createShadowClone
  split
  · exact Grown.refl _
  · rw [hgrant]
    cases answer with
    | false =>
      rw [← hsame.objects]
      exact Grown.refl _
    | true =>
      rw [← hsame.objects]
      exact (addRef_grown m₁ o).trans (grown_append _ _)

/-! ## What objects have nothing to do with -/

/-- Descriptors and page tables are left alone. -/
structure Keeps (m m' : Memory) : Prop where
  areas : m'.areas = m.areas
  nextArea : m'.nextArea = m.nextArea
  tables : m'.tables = m.tables
  fault : m'.fault = none → m.fault = none

theorem Keeps.refl (m : Memory) : Keeps m m := ⟨rfl, rfl, rfl, id⟩

theorem Keeps.trans {m'' : Memory} (h : Keeps m m') (h' : Keeps m' m'') : Keeps m m'' :=
  ⟨h'.areas.trans h.areas, h'.nextArea.trans h.nextArea, h'.tables.trans h.tables,
    fun hnone => h.fault (h'.fault hnone)⟩

theorem Same.keeps (h : Same m m') : Keeps m m' :=
  ⟨h.areas, h.nextArea, h.tables, fun hnone => h.fault ▸ hnone⟩

theorem fail_keeps (m : Memory) (f : Fault) : Keeps m (m.fail f) :=
  ⟨rfl, rfl, rfl, fun hnone => (Option.or_eq_none_iff.1 hnone).1⟩

theorem grant_keeps (m : Memory) : Keeps m m.grant.2 := by
  obtain ⟨answer, m', hgrant, hsame⟩ := grant_same m
  rw [hgrant]
  exact hsame.keeps

theorem allocPages_keeps (m : Memory) (size : PageSize) : Keeps m (m.allocPages size).2 := by
  unfold allocPages
  split
  · split <;> exact ⟨rfl, rfl, rfl, id⟩
  · exact ⟨rfl, rfl, rfl, id⟩
  · exact ⟨rfl, rfl, rfl, id⟩

theorem freePages_keeps (m : Memory) (block : Nat × PageSize) : Keeps m (m.freePages block) := by
  unfold freePages
  split
  · exact ⟨rfl, rfl, rfl, id⟩
  · exact fail_keeps m _

theorem createObject_keeps (m : Memory) (parent : Option Nat) (type : VMAType)
    (size : PageSize) (n : Nat) : Keeps m (m.createObject parent type size n).2 := by
  have hgrant := grant_keeps m
  unfold createObject
  split
  · rename_i heq
    rwa [heq] at hgrant
  · rename_i heq
    rw [heq] at hgrant
    exact ⟨hgrant.areas, hgrant.nextArea, hgrant.tables, hgrant.fault⟩

theorem addRef_keeps (m : Memory) (o : Nat) : Keeps m (m.addRef o) := by
  unfold addRef
  split
  · exact fail_keeps m _
  · exact ⟨rfl, rfl, rfl, id⟩

theorem foldl_keeps {α : Type*} {f : Memory → α → Memory}
    (hf : ∀ m x, Keeps m (f m x)) (l : List α) : ∀ m, Keeps m (l.foldl f m) := by
  induction l with
  | nil => exact Keeps.refl
  | cons x l ih => exact fun m => (hf m x).trans (ih (f m x))

theorem freeBacking_keeps (m : Memory) (b : Backing) : Keeps m (m.freeBacking b) :=
  foldl_keeps (f := fun m (page : Nat × Nat) => m.freePages (page.2, b.pageSize))
    (fun m _ => freePages_keeps m _) b.pages m

theorem dropRef_keeps (m : Memory) (o : Nat) : Keeps m (m.dropRef o) := by
  unfold dropRef
  split
  · exact fail_keeps m _
  · rename_i objects gone _
    have hfold := foldl_keeps freeBacking_keeps gone { m with objects := objects }
    exact ⟨hfold.areas, hfold.nextArea, hfold.tables, hfold.fault⟩

theorem setBacking_keeps (m : Memory) (o : Nat) (f : Backing → Backing) :
    Keeps m (m.setBacking o f) := by
  unfold setBacking
  split
  · exact fail_keeps m _
  · exact ⟨rfl, rfl, rfl, id⟩

theorem install_keeps (m : Memory) (o pageOffset page : Nat) :
    Keeps m (m.install o pageOffset page).2 := by
  have hgrant := grant_keeps m
  unfold install
  split
  · exact fail_keeps m _
  · split
    rename_i grown m₁ heq
    rw [heq] at hgrant
    split
    · dsimp only at hgrant ⊢
      exact hgrant.trans (setBacking_keeps m₁ o _)
    · dsimp only
      split <;> exact Keeps.trans hgrant (freePages_keeps m₁ _)

theorem createShadowClone_keeps (m : Memory) (o : Nat) : Keeps m (m.createShadowClone o).2 := by
  have hgrant := grant_keeps m
  unfold createShadowClone
  split
  · exact fail_keeps m _
  · split
    · rename_i heq
      rwa [heq] at hgrant
    · rename_i m₁ heq
      rw [heq] at hgrant
      have hadd := hgrant.trans (addRef_keeps m₁ o)
      exact ⟨hadd.areas, hadd.nextArea, hadd.tables, hadd.fault⟩

/-- A new frame for an object, in either of the two functions. -/
theorem allocInstall_keeps (m : Memory) (size : PageSize) (o pageOffset : Nat) :
    Keeps m (match m.allocPages size with
      | (none, m) => ((.error .outOfMemory : Except Error Nat), m)
      | (some phys, m) => m.install o pageOffset phys).2 := by
  have halloc := allocPages_keeps m size
  split
  · rename_i heq
    rwa [heq] at halloc
  · rename_i heq
    rw [heq] at halloc
    exact halloc.trans (install_keeps ..)

theorem getPage_keeps (m : Memory) (o pageOffset : Nat) : Keeps m (m.getPage o pageOffset).2 := by
  unfold getPage
  split
  · exact fail_keeps m _
  split
  · exact Keeps.refl m
  split
  · exact Keeps.refl m
  split
  · exact Keeps.refl m
  split
  · exact Keeps.refl m
  · exact allocInstall_keeps ..

theorem resolveCowFault_keeps (m : Memory) (o pageOffset : Nat) :
    Keeps m (m.resolveCowFault o pageOffset).2 := by
  unfold resolveCowFault
  split
  · exact fail_keeps m _
  split
  · exact Keeps.refl m
  split
  · exact Keeps.refl m
  · exact allocInstall_keeps ..

end Memory
end Erebus.Vmm
