import Erebus.Memory.Vmm.Vma.Range

/-!
# Making and removing areas keeps the accounts

* `Kept`: an operation on one space leaves areas in order and every reference accounted for, and
  areas that were aligned to their pages stay so.
* `enterArea_ok`, `Good.remove`: an area comes, with the reference it was made with, or goes.
* `alloc_ok`, `free_ok`, `realloc_ok`, `mapObject_ok`, `mapMmio_ok`, `createAlias_ok`,
  `handlePageFault_ok`, `evictPage_ok`: one lemma for each operation, whatever the allocators
  answer.
-/

namespace Erebus.Vmm.AddressSpace

open RefCount Memory

/-- Areas in order and every reference accounted for, as before. -/
structure Kept (E : Past) (s : AddressSpace) (ids : List Nat) (H : Multiset Nat)
    (D : List Nat) (m' : Memory) (s' : AddressSpace) (ids' : List Nat) : Prop where
  good : Good E m' s' ids' H D
  root : s'.root = s.root
  aligned : s.Aligned ids → s'.Aligned ids'

/-- An operation keeps what is known, whatever it answers. -/
abbrev Keeps {α : Type} (E : Past) (s : AddressSpace) (ids : List Nat) (H : Multiset Nat)
    (D : List Nat) (x : α × Memory × AddressSpace) : Prop :=
  ∃ r m' s' ids', x = (r, m', s') ∧ Kept E s ids H D m' s' ids'

/-- Only the regions where addresses are handed out are different. -/
structure SameAreas (s s' : AddressSpace) : Prop where
  area : s'.area = s.area
  links : s'.links = s.links
  ends : s'.ends = s.ends
  tree : s'.tree = s.tree
  root : s'.root = s.root

section Basics

variable {E : Past} {m m' : Memory} {s s' s'' : AddressSpace} {ids ids' a b D : List Nat}
  {H : Multiset Nat} {i o vma addr size alignment start stop : Nat}

theorem Kept.refl (h : Good E m s ids H D) : Kept E s ids H D m s ids := ⟨h, rfl, id⟩

theorem Keeps.refl {α : Type} {r : α} (h : Good E m s ids H D) : Keeps E s ids H D (r, m, s) :=
  ⟨r, m, s, ids, rfl, .refl h⟩

theorem Kept.trans (h : Kept E s ids H D m s' ids') {m'' : Memory} {ids'' : List Nat}
    (h' : Kept E s' ids' H D m'' s'' ids'') : Kept E s ids H D m'' s'' ids'' :=
  ⟨h'.good, h'.root.trans h.root, fun ha => h'.aligned (h.aligned ha)⟩

theorem SameAreas.refl (s : AddressSpace) : SameAreas s s := ⟨rfl, rfl, rfl, rfl, rfl⟩

theorem SameAreas.good (h : SameAreas s s') (hg : Good E m s ids H D) : Good E m s' ids H D :=
  hg.space (hg.layout.congr h.links h.ends h.tree fun i _ => by rw [h.area]; exact ⟨rfl, rfl⟩)
    fun i _ => by rw [h.area]

theorem SameAreas.kept (h : SameAreas s s') (hg : Good E m s' ids H D) :
    Kept E s ids H D m s' ids :=
  ⟨hg, h.root, fun ha i hi => by rw [h.area]; exact ha i hi⟩

theorem SameAreas.free (h : SameAreas s s') (hf : s.Free ids start stop) : s'.Free ids start stop :=
  ⟨hf.1, fun i hi => by rw [h.area]; exact hf.2 i hi⟩

theorem ref_some_add (o : Nat) (H : Multiset Nat) : ref (some o) + H = o ::ₘ H :=
  Multiset.singleton_add o H

theorem ref_none_add (H : Multiset Nat) : ref none + H = H := zero_add H

theorem Good.dropRef? {x : Option Nat} (h : Good E m s ids (ref x + H) D) :
    Good E (dropRef? m x) s ids H D := by
  have hkeeps := dropRef?_keeps m x
  refine h.memory (dropRef?_sound ?_) hkeeps.areas hkeeps.nextArea
  rw [add_left_comm]
  exact h.sound

theorem Good.dropRef (h : Good E m s ids (o ::ₘ H) D) : Good E (m.dropRef o) s ids H D := by
  rw [← ref_some_add] at h
  exact h.dropRef?

variable (h : Good E m s ids H D)
include h

theorem Good.addRef (ho : o ∈ refs s ids + H) : Good E (m.addRef o) s ids (o ::ₘ H) D := by
  have hkeeps := addRef_keeps m o
  refine h.memory ?_ hkeeps.areas hkeeps.nextArea
  rw [Multiset.add_cons]
  exact addRef_sound h.sound ho

theorem Good.createObject (type : VMAType) (size : PageSize) (n : Nat) :
    ∃ r m', m.createObject none type size n = (r, m') ∧ Good E m' s ids (ref r + H) D ∧
    m'.tables = m.tables := by
  obtain ⟨r, m', heq, hsound⟩ := createObject_sound h.sound type size n
  have hkeeps := createObject_keeps m none type size n
  rw [heq] at hkeeps
  refine ⟨r, m', heq, h.memory ?_ hkeeps.areas hkeeps.nextArea, hkeeps.tables⟩
  cases r with
  | none =>
    rw [ref_none_add]
    exact hsound
  | some o =>
    rw [ref_some_add, Multiset.add_cons]
    exact hsound

theorem Good.expandMaxPages (ho : o ∈ refs s ids + H) (n : Nat) :
    Good E (m.expandMaxPages o n) s ids H D := by
  have hkeeps := setBacking_keeps m o fun b => { b with maxPages := max b.maxPages n }
  exact h.memory (expandMaxPages_sound h.sound ho n) hkeeps.areas hkeeps.nextArea

/-- `unmap_range` touches page tables only. -/
theorem Good.unmapRange (hE : E.Endless) (s' : AddressSpace) (start size : Nat) :
    Good E (unmapRange m s' start size) s ids H D := by
  unfold AddressSpace.unmapRange
  split
  · exact h.fail hE
  · exact h.setTables _

omit h

/-! ## Room -/

theorem getPageBytes_dvd (size : PageSize) : getPageBytes size ∣ 2 ^ 64 := by
  cases size <;> decide

theorem alignDown_mod (n a : Nat) : alignDown n a % a = 0 :=
  Nat.sub_mod_eq_zero_of_mod_eq (Nat.mod_mod n a).symm

theorem add64_mod {x y n : Nat} (hn : n ∣ 2 ^ 64) (hx : x % n = 0) (hy : y % n = 0) :
    add64 x y % n = 0 := by
  rw [add64, Nat.mod_mod_of_dvd _ hn, Nat.add_mod, hx, hy, Nat.zero_add, Nat.zero_mod]

/-- What `first_fit` finds is aligned. -/
theorem firstFit_mod {«from» limit found : Nat}
    (hf : s.firstFit «from» limit size alignment = some found) : found % alignment = 0 := by
  refine Loop.run_of_some (fun candidate => candidate % alignment = 0)
    (fun r => r % alignment = 0) ?_ (alignDown_mod ..) hf
  intro candidate hc
  rw [firstFitRound]
  split
  · exact Nat.zero_mod alignment
  split
  · exact hc
  split
  · exact hc
  · exact alignDown_mod ..

theorem searchGap_mod {region : Region} {found : Nat}
    (hf : s.searchGap region size alignment = some found) : found % alignment = 0 := by
  rw [searchGap] at hf
  split at hf
  · cases hf
  · exact firstFit_mod hf
  · rename_i hfirst
    cases hf
    exact firstFit_mod hfirst

/-- **`find_free_gap`** finds room, if it finds anything. -/
theorem findFreeGap_ok (h : Good E m s ids H D) (hE : E.Endless) (size alignment : Nat)
    (isHeap : Bool) :
    ∃ found m' s', findFreeGap m s size alignment isHeap = (found, m', s') ∧ SameAreas s s' ∧
    Good E m' s' ids H D ∧
      m'.tables = m.tables ∧
      (found ≠ 0 → s'.Free ids found (add64 found size) ∧ found % alignment = 0) := by
  unfold findFreeGap
  dsimp only
  split
  · exact ⟨_, _, s, rfl, SameAreas.refl s, h.fail hE, rfl, fun hne => absurd rfl hne⟩
  · exact ⟨_, m, s, rfl, .refl s, h, rfl, fun hne => absurd rfl hne⟩
  · rename_i found _ hsearch
    have hroll : ∃ roll m', m.randomBelow 16 = (roll, m') ∧ Same m m' := by
      unfold randomBelow
      split <;> exact ⟨_, _, rfl, rfl, rfl, rfl, rfl, rfl, rfl⟩
    obtain ⟨roll, m', heq, hsame⟩ := hroll
    rw [heq]
    have hsameAreas : ∀ region : Region,
        SameAreas s (if isHeap then { s with heapRegion := region }
          else { s with mmapRegion := region }) := by
      intro region
      split <;> exact ⟨rfl, rfl, rfl, rfl, rfl⟩
    refine ⟨_, m', _, rfl, hsameAreas _, (hsameAreas _).good (h.same hsame), hsame.tables,
      fun hne => ?_⟩
    exact ⟨(hsameAreas _).free (h.layout.searchGap_free hsearch hne), searchGap_mod hsearch⟩

theorem placeArea_ok (h : Good E m s ids H D) (hE : E.Endless) (hint size alignment : Nat) :
    ∃ r m' s', placeArea m s hint size alignment = (r, m', s') ∧ SameAreas s s' ∧
    Good E m' s' ids H D ∧ m'.tables = m.tables ∧ ∀ addr, r = .ok addr →
        s'.Free ids addr (add64 addr size) ∧ (hint ≠ 0 → addr = hint) ∧
        (hint = 0 → addr % alignment = 0) := by
  unfold placeArea
  split
  · rename_i hhint
    split
    · rename_i hfree
      refine ⟨_, m, s, rfl, SameAreas.refl s, h, rfl, ?_⟩
      rintro addr ⟨rfl⟩
      exact ⟨h.layout.rangeIsFree_iff.1 hfree, fun _ => rfl, fun hzero => absurd hzero hhint⟩
    · exact ⟨_, m, s, rfl, .refl s, h, rfl, nofun⟩
  · rename_i hhint
    obtain ⟨found, m', s', heq, hsame, hgood, htables, hfound⟩ :=
      findFreeGap_ok h hE size alignment false
    rw [heq]
    cases found with
    | zero => exact ⟨_, m', s', rfl, hsame, hgood, htables, nofun⟩
    | succ n =>
      refine ⟨_, m', s', rfl, hsame, hgood, htables, ?_⟩
      rintro addr ⟨rfl⟩
      obtain ⟨hfree, hmod⟩ := hfound (Nat.succ_ne_zero n)
      exact ⟨hfree, fun hne => absurd hne hhint, fun _ => hmod⟩

/-! ## One area more, or less -/

/-- **A new area** takes over the reference it was made with. -/
theorem Good.enter {v : VMArea} (h : Good E m s ids (ref v.vmObject + H) (vma :: D))
    (hfree : s.Free ids v.start v.stop) (hstop : v.stop < 2 ^ 64)
    (hs' : s' = { s.setArea vma v with tree := KeyMap.insert v.start vma s.tree }.linkVma vma) :
    s'.area = (s.setArea vma v).area ∧ s'.root = s.root ∧ ∃ a b, ids = a ++ b ∧
    Good E m s' (a ++ vma :: b) H D := by
  obtain ⟨harea, -, hroot⟩ :=
    linkVma_area { s.setArea vma v with tree := KeyMap.insert v.start vma s.tree } vma
  rw [← hs'] at harea hroot
  have hnew := Good.not_mem h
  obtain ⟨a, b, rfl, hlayout⟩ := h.layout.enter hnew hfree hstop
  rw [← hs'] at hlayout
  refine ⟨harea, hroot, a, b, rfl, h.move hlayout ?_ ?_ rfl rfl⟩
  · have hrest : refs s' (a ++ b) = refs s (a ++ b) := by
      refine refs_congr fun i hi => ?_
      rw [harea]
      exact congrArg VMArea.vmObject (setArea_other s v fun heq => hnew (heq ▸ hi))
    have hself : s'.area vma = v := by
      rw [harea]
      exact setArea_same ..
    rw [refs_middle, hrest, hself, add_assoc, add_left_comm]
    exact h.sound
  · rw [List.append_assoc, List.append_assoc, List.cons_append]
    exact List.Perm.append_left a List.perm_middle.symm

/-- The tree may fail to take it. -/
theorem enterArea_ok {v : VMArea} (h : Good E m s ids (ref v.vmObject + H) (vma :: D))
    (hfree : s.Free ids v.start v.stop) (hstop : v.stop < 2 ^ 64) :
    ∃ r m', enterArea m s vma v = (r, m') ∧ m'.tables = m.tables ∧ m'.objects = m.objects ∧
      (r = none → Good E m' s ids (ref v.vmObject + H) (vma :: D)) ∧
      ∀ s', r = some s' → s'.area = (s.setArea vma v).area ∧ s'.root = s.root ∧
        ∃ a b, ids = a ++ b ∧ Good E m' s' (a ++ vma :: b) H D := by
  obtain ⟨answer, m', heq, hsame⟩ := grant_same m
  have hgood := h.same hsame
  rw [enterArea, heq]
  cases answer with
  | false => exact ⟨none, m', rfl, hsame.tables, hsame.objects, fun _ => hgood, nofun⟩
  | true =>
    refine ⟨_, m', rfl, hsame.tables, hsame.objects, nofun, ?_⟩
    rintro s' ⟨rfl⟩
    exact hgood.enter hfree hstop rfl

/-- The areas after one came. -/
theorem Aligned.enter {v : VMArea} (ha : s.Aligned (a ++ b)) (hnew : vma ∉ a ++ b)
    (harea : s'.area = (s.setArea vma v).area) (hstart : v.start % v.pageBytes = 0)
    (hstop : v.stop % v.pageBytes = 0) : s'.Aligned (a ++ vma :: b) := by
  intro i hi
  rw [harea]
  rcases eq_or_ne i vma with rfl | hne
  · rw [setArea_same]
    exact ⟨hstart, hstop⟩
  · rw [setArea_other s v hne]
    refine ha i ?_
    simp only [List.mem_append, List.mem_cons] at hi ⊢
    tauto

/-- **An area goes** and leaves its reference behind. -/
theorem Good.remove (h : Good E m s (a ++ i :: b) H D) :
    Good E m (s.removeArea i (s.area i).start) (a ++ b) (ref (s.area i).vmObject + H) (i :: D) := by
  refine h.move h.layout.remove ?_ ?_ rfl rfl
  · have hrest : refs (s.removeArea i (s.area i).start) (a ++ b) = refs s (a ++ b) :=
      refs_congr fun _ _ => rfl
    have hsound := h.sound
    rw [refs_middle, add_assoc] at hsound
    rw [hrest, add_left_comm]
    exact hsound
  · rw [List.append_assoc, List.append_assoc, List.cons_append]
    exact List.Perm.append_left a List.perm_middle

theorem Aligned.remove (ha : s.Aligned (a ++ i :: b)) (key : Nat) :
    (s.removeArea i key).Aligned (a ++ b) :=
  fun j hj => ha j (by
    simp only [List.mem_append, List.mem_cons] at hj ⊢
    tauto)

end Basics

/-! ## Allocation -/

section

variable {E : Past} {m m' : Memory} {s s' : AddressSpace} {ids a b D : List Nat} {H : Multiset Nat}
  {obj vma addr size hint : Nat}
variable {pageSize : PageSize} {alignedSize : Nat}

theorem populatePage_ok {x : Memory × AddressSpace} (h : Filled E id s ids H D x)
    (hvma : vma ∈ ids) (addr bytesPerPage : Nat) (access : AccessFlags) (i : Nat) :
    Sum.elim (Filled E id s ids H D) (fun x => Filled E id s ids H D x.2.2)
      (populatePage vma addr bytesPerPage access i x) := by
  obtain ⟨r, x, heq, happ, hgood⟩ :=
    resolveVmaFaultLocked_ok h.2 hvma (add64 addr (i * bytesPerPage)) (fillType access) id
  have happ'' := h.1.trans happ fun i hi => absurd hi List.not_mem_nil
  rw [populatePage, heq]
  cases r with
  | ok u => exact ⟨happ'', hgood⟩
  | error e => exact ⟨happ'', hgood⟩

/-- The pages of a new area. -/
theorem populate_ok (h : Good E m s (a ++ vma :: b) H D) (hE : E.Endless)
    (hobj : (s.area vma).vmObject = some obj) (hstart : (s.area vma).start = addr)
    (size bytesPerPage : Nat)
    (access : AccessFlags) :
    Keeps E s (a ++ vma :: b) H D (populate m s vma obj addr size bytesPerPage access) := by
  have hvma : vma ∈ a ++ vma :: b := by simp
  have hloop := Loop.upTo_ok (n := size / bytesPerPage) (s := (m, s))
      (fun _ => Filled E id s (a ++ vma :: b) H D) _
    (fun i _ _ hinv => populatePage_ok hinv hvma addr bytesPerPage access i) ⟨.refl id s, h⟩
  unfold populate
  split
  · rename_i heq
    rw [heq] at hloop
    exact ⟨_, _, _, _, rfl, hloop.2, hloop.1.root, hloop.1.aligned fun _ => rfl⟩
  · rename_i i e m₁ s₁ heq
    rw [heq] at hloop
    obtain ⟨happ, hgood⟩ := hloop
    have hremoved := (hgood.unmapRange hE s₁ addr (i * bytesPerPage)).remove
    rw [(happ.bounds vma).1, hstart, (happ.bounds vma).2.2.1, hobj] at hremoved
    exact ⟨_, _, _, a ++ b, rfl, hremoved.dropRef?.release, happ.root, fun ha =>
      (happ.aligned (fun _ => rfl) ha).remove addr⟩

theorem add64_lt (x y : Nat) : add64 x y < 2 ^ 64 := Nat.mod_lt _ (by decide)

/-- Where a new area goes, if its hint is aligned. -/
theorem placed_mod {alignment : Nat} (hhint : hint = 0 ∨ hint % alignment = 0)
    (haddr : (hint ≠ 0 → addr = hint) ∧ (hint = 0 → addr % alignment = 0)) :
    addr % alignment = 0 := by
  rcases eq_or_ne hint 0 with hzero | hne
  · exact haddr.2 hzero
  · rw [haddr.1 hne]
    exact hhint.resolve_left hne

/-- `alloc` after the descriptor and the object were made. -/
theorem allocWith_ok (h : Good E m s ids (obj ::ₘ H) (vma :: D)) (hE : E.Endless)
    (hsize : alignedSize % getPageBytes pageSize = 0)
    (hhint : hint = 0 ∨ hint % getPageBytes pageSize = 0)
    (headroomPages : Nat) (access : AccessFlags) (cache : CacheMode) (type : VMAType) (pkey : Nat) :
    Keeps E s ids H D
      (allocWith m s vma obj alignedSize headroomPages access cache pageSize type pkey hint) := by
  obtain ⟨r, m₁, s₁, hplace, hsame, hgood₁, -, haddr⟩ :=
    placeArea_ok h hE hint alignedSize (getPageBytes pageSize)
  rw [allocWith, hplace]
  cases r with
  | error e => exact ⟨_, _, s₁, ids, rfl, hsame.kept (Good.dropRef hgood₁.release)⟩
  | ok addr =>
    obtain ⟨hfree, hwhere⟩ := haddr addr rfl
    have hmod := placed_mod hhint hwhere
    rw [← ref_some_add] at hgood₁
    obtain ⟨entered, m₂, henter, -, -, hnone, hsome⟩ := enterArea_ok
      (v := initVma m₁ addr alignedSize access cache pageSize type .firstTouch pkey
        (type = .hardwareMmio || access.has .mmio) (some obj) headroomPages) hgood₁
          hfree (add64_lt ..)
    dsimp only
    rw [henter]
    cases entered with
    | none => exact ⟨_, _, s₁, ids, rfl, hsame.kept ((hnone rfl).release.dropRef?)⟩
    | some s₂ =>
      obtain ⟨harea, hroot, a, b, rfl, hgood₂⟩ := hsome s₂ rfl
      have hkept : Kept E s (a ++ b) H D m₂ s₂ (a ++ vma :: b) :=
        (hsame.kept hgood₁.release.dropRef?).trans ⟨hgood₂, hroot, fun ha =>
          Aligned.enter ha hgood₁.not_mem harea hmod (add64_mod (getPageBytes_dvd _) hmod hsize)⟩
      dsimp only
      split
      · have hvma : s₂.area vma = _ := harea ▸ setArea_same ..
        have hobj : (s₂.area vma).vmObject = some obj := by
          rw [hvma]
          rfl
        have hstart : (s₂.area vma).start = addr := by
          rw [hvma]
          rfl
        obtain ⟨r, m', s', ids', heq, hpop⟩ :=
          populate_ok hgood₂ hE hobj hstart alignedSize (getPageBytes pageSize) access
        exact ⟨r, m', s', ids', heq, hkept.trans hpop⟩
      · exact ⟨_, m₂, s₂, _, rfl, hkept⟩

theorem hint_ok {alignment : Nat} (h : ¬ (decide (hint ≠ 0) && !isAligned hint alignment) = true) :
    hint = 0 ∨ hint % alignment = 0 := by
  simp only [isAligned, Bool.and_eq_true, decide_eq_true_eq, Bool.not_eq_true',
    decide_eq_false_iff_not, not_and, not_not] at h
  exact or_iff_not_imp_left.2 h

/-- **`alloc`.** -/
theorem alloc_ok (h : Good E m s ids H D) (hE : E.Endless) (size : Nat) (access : AccessFlags)
    (cache : CacheMode) (pageSize : PageSize) (type : VMAType) (pkey hint : Nat) :
    Keeps E s ids H D (alloc m s size access cache pageSize type pkey hint) := by
  unfold alloc
  split
  · exact .refl h
  split
  · exact .refl h
  rename_i hhint
  dsimp only
  obtain ⟨vma, m₁, hvma, hgood₁, -, -⟩ := h.allocate
  generalize (if access.has .stack = true then maxStackBytes / getPageBytes pageSize else 0) =
    headroomPages
  obtain ⟨obj, m₂, hobj, hgood₂, -⟩ := hgood₁.createObject type pageSize
    (headroomPages + alignUp size (getPageBytes pageSize) / getPageBytes pageSize)
  rw [hvma]
  dsimp only
  rw [hobj]
  cases vma with
  | none => exact ⟨_, _, s, ids, rfl, .refl hgood₂.dropRef?⟩
  | some vma =>
    cases obj with
    | none => exact ⟨_, _, s, ids, rfl, .refl (hgood₂.release.dropRef?)⟩
    | some obj =>
      rw [ref_some_add] at hgood₂
      exact allocWith_ok hgood₂ hE (alignDown_mod ..) (hint_ok hhint) headroomPages access
        cache type pkey

/-- **`free`.** -/
theorem free_ok (h : Good E m s ids H D) (hE : E.Endless) (addr : Nat) :
    Keeps E s ids H D (free m s addr) := by
  unfold free
  split
  · exact .refl h
  · rename_i vma hget
    obtain ⟨hmem, rfl⟩ := h.layout.get_iff.1 hget
    obtain ⟨a, b, rfl⟩ := List.append_of_mem hmem
    have hremoved := (h.unmapRange hE s (s.area vma).start (s.area vma).sizeBytes).remove
    exact ⟨_, _, _, a ++ b, rfl, hremoved.dropRef?.release, rfl, fun ha => ha.remove _⟩

/-- Another end for an area, where there is room. -/
theorem Good.restop (h : Good E m s (a ++ vma :: b) H D) {stop : Nat}
    (hlt : (s.area vma).start < stop)
    (hstop : stop < 2 ^ 64) (hafter : ∀ j ∈ b, stop ≤ (s.area j).start) :
    Good E m (s.setArea vma { s.area vma with stop := stop }) (a ++ vma :: b) H D := by
  refine h.space (h.layout.restop rfl hlt hstop hafter) fun i _ => ?_
  rcases eq_or_ne i vma with rfl | hne
  · rw [setArea_same]
  · rw [setArea_other s _ hne]

/-- The end of `realloc`. -/
theorem moveArea_ok (h : Good E m s (a ++ vma :: b) H D) (hE : E.Endless)
    (hobj : (s.area vma).vmObject = some obj) {newAddr newAligned : Nat}
    (hfree : s.Free (a ++ vma :: b) newAddr (add64 newAddr newAligned))
    (hmod : newAddr % (s.area vma).pageBytes = 0)
    (hsize : newAligned % (s.area vma).pageBytes = 0) (neededPages : Nat) :
    Keeps E s (a ++ vma :: b) H D
      (moveArea m s vma obj (s.area vma).start newAddr newAligned neededPages) := by
  obtain ⟨answer, m₁, hgrant, hsame⟩ := grant_same m
  have hgood₁ := h.same hsame
  rw [moveArea, hgrant]
  cases answer with
  | false => exact ⟨_, m₁, s, _, rfl, Kept.refl hgood₁⟩
  | true =>
    dsimp only
    generalize hv : s.area vma = v
    rw [hv] at hobj hmod hsize
    -- the old range goes first, then the new one comes
    have hne : newAddr ≠ v.start := by
      have hother := hfree.2 vma (by simp)
      have hproper := h.layout.proper vma (by simp)
      have hlt := hfree.1
      rw [hv] at hother hproper
      omega
    have hremoved :=
      Good.remove (hgood₁.unmapRange hE { s with tree := KeyMap.insert newAddr vma s.tree } v.start
      v.sizeBytes)
    rw [hv, hobj] at hremoved
    have hnew := hremoved.not_mem
    have hfree' : (s.removeArea vma v.start).Free (a ++ b) newAddr (add64 newAddr newAligned) :=
      ⟨hfree.1, fun i hi => hfree.2 i (by
        simp only [List.mem_append, List.mem_cons] at hi ⊢
        tauto)⟩
    have hspace :
        (({ s with tree := KeyMap.insert newAddr vma s.tree }.removeArea vma v.start).setArea vma
        { v with start := newAddr, stop := add64 newAddr newAligned }).linkVma vma =
        { (s.removeArea vma v.start).setArea vma { v with
          start := newAddr, stop := add64 newAddr newAligned } with
          tree := KeyMap.insert newAddr vma (s.removeArea vma v.start).tree }.linkVma vma := by
      refine congrArg (fun t => linkVma t vma) ?_
      simp only [removeArea, unlinkVma, setArea, KeyMap.erase_insert_of_ne hne]
    obtain ⟨harea, hroot, a', b', hsplit, hgood⟩ := Good.enter
      (v := { v with start := newAddr, stop := add64 newAddr newAligned }) (hobj.symm ▸ hremoved)
      hfree' (add64_lt ..) hspace
    have hvma : obj ∈ refs _ (a' ++ vma :: b') := mem_refs (i := vma) (by simp) (by
      rw [harea, setArea_same]
      exact hobj)
    refine ⟨_, _, _, _, rfl, hgood.expandMaxPages (Multiset.mem_add.2 (.inl hvma)) neededPages,
      hroot, fun ha => ?_⟩
    have hrest := ha.remove v.start
    rw [hsplit] at hrest hnew
    exact Aligned.enter hrest hnew harea hmod (add64_mod (getPageBytes_dvd _) hmod hsize)

/-- **`realloc`.** -/
theorem realloc_ok (h : Good E m s ids H D) (hE : E.Endless) (oldAddr newSize : Nat) :
    Keeps E s ids H D (realloc m s oldAddr newSize) := by
  unfold realloc
  split
  · exact .refl h
  rename_i vma hget
  obtain ⟨hmem, rfl⟩ := h.layout.get_iff.1 hget
  dsimp only
  split
  swap
  · exact .refl h
  rename_i obj hobj _
  split
  · exact .refl h
  have hsize : alignUp newSize (s.area vma).pageBytes % (s.area vma).pageBytes = 0 :=
    alignDown_mod ..
  generalize alignUp newSize (s.area vma).pageBytes = newAligned at hsize
  have hobj_mem : ∀ {s' : AddressSpace} {ids' : List Nat}, vma ∈ ids' →
      (s'.area vma).vmObject = some obj →
      obj ∈ refs s' ids' + H := fun hin ho => Multiset.mem_add.2 (.inl (mem_refs hin ho))
  split
  · -- the area grows where it is
    rename_i hfree
    obtain ⟨hlt, hroom⟩ := h.layout.rangeIsFree_iff.1 hfree
    have hproper := h.layout.proper vma hmem
    obtain ⟨a, b, rfl⟩ := List.append_of_mem hmem
    have hgood :=
      h.restop (show _ < add64 (s.area vma).start newAligned by omega) (add64_lt ..) fun j hj => by
      have hafter := h.layout.after hj
      have hproper' := h.layout.proper j (by simp [hj])
      have := hroom j (by simp [hj])
      omega
    refine ⟨_, _, _, _, rfl, hgood.expandMaxPages (hobj_mem (by simp) ?_) _, rfl, fun ha i hi => ?_⟩
    · rw [setArea_same]
      exact hobj
    · rcases eq_or_ne i vma with rfl | hne
      · rw [setArea_same]
        exact ⟨(ha i hi).1, add64_mod (getPageBytes_dvd _) (ha i hi).1 hsize⟩
      · rw [setArea_other s _ hne]
        exact ha i hi
  · obtain ⟨found, m₁, s₁, heq, hsame, hgood₁, -, hfound⟩ :=
      findFreeGap_ok h hE newAligned (s.area vma).pageBytes false
    rw [heq]
    cases found with
    | zero => exact ⟨_, m₁, s₁, ids, rfl, hsame.kept hgood₁⟩
    | succ n =>
      obtain ⟨hfree, hmod⟩ := hfound (Nat.succ_ne_zero n)
      obtain ⟨a, b, rfl⟩ := List.append_of_mem hmem
      rw [← hsame.area] at hobj hmod hsize ⊢
      obtain ⟨r, m', s', ids', hmove, hkept⟩ := moveArea_ok hgood₁ hE hobj hfree hmod hsize
        (add64 (s₁.area vma).objectOffset (newAligned / (s₁.area vma).pageBytes))
      exact ⟨r, m', s', ids', hmove, (hsame.kept hgood₁).trans hkept⟩

/-- A page of a device area only changes page tables. -/
theorem mapDevicePage_ok (h : Good E m s ids H D) (s' : AddressSpace)
    (addr physBase bytesPerPage : Nat)
    (access : AccessFlags) (cache : CacheMode) (pkey : Nat) (pageSize : PageSize) (i : Nat) :
    Sum.elim (fun m' => Good E m' s ids H D) (fun x => Good E x.2.2 s ids H D)
      (mapDevicePage s' addr physBase bytesPerPage access cache pkey pageSize i m) := by
  unfold mapDevicePage
  split
  · exact h.setTables _
  · exact h.setTables _

section

variable (h : Good E m s ids H (vma :: D)) (hfree : s.Free ids addr (add64 addr alignedSize))
  (hmod : addr % getPageBytes pageSize = 0) (hsize : alignedSize % getPageBytes pageSize = 0)
  (access : AccessFlags) (cache : CacheMode) (pkey : Nat)
include h hfree hmod hsize

/-- The end of `map_object`: the area takes a reference of its own. -/
theorem mapObjectAt_ok (hobj : obj ∈ refs s ids + H) (objOffsetPages : Nat) (type : VMAType) :
    Keeps E s ids H D (mapObjectAt m s vma obj addr alignedSize objOffsetPages access cache
      pageSize type pkey) := by
  obtain ⟨answer, m₁, hgrant, hsame⟩ := grant_same m
  have hgood₁ := h.same hsame
  rw [mapObjectAt]
  rw [enterArea, hgrant]
  cases answer with
  | false => exact ⟨_, _, s, ids, rfl, Kept.refl hgood₁.release⟩
  | true =>
    have hadd := hgood₁.addRef hobj
    rw [← ref_some_add] at hadd
    obtain ⟨harea, hroot, a, b, rfl, hgood₂⟩ := Good.enter
      (v := initVma m addr alignedSize (access ||| .shared) cache pageSize type .firstTouch pkey
        (type = .hardwareMmio || (access ||| AccessFlags.shared).has .mmio) (some obj)
          objOffsetPages)
      hadd hfree (add64_lt ..) rfl
    exact ⟨_, _, _, _, rfl, hgood₂, hroot, fun ha =>
      Aligned.enter ha hadd.not_mem harea hmod (add64_mod (getPageBytes_dvd _) hmod hsize)⟩

/-- The end of `map_mmio`. -/
theorem mapMmioAt_ok (hE : E.Endless) (physBase : Nat) :
    Keeps E s ids H D (mapMmioAt m s vma addr physBase alignedSize access cache pageSize pkey) := by
  have hloop := Loop.upTo_ok (n := alignedSize / getPageBytes pageSize) (s := m)
    (fun _ (m : Memory) => Good E m s ids H (vma :: D)) _
    (fun i _ _ hinv => mapDevicePage_ok hinv s addr physBase (getPageBytes pageSize)
      (access ||| .mmio) cache pkey pageSize i) h
  unfold mapMmioAt
  dsimp only
  split
  · rename_i i e m₁ heq
    rw [heq] at hloop
    exact ⟨_, _, s, ids, rfl, Kept.refl (Good.unmapRange hloop hE s addr _).release⟩
  · rename_i m₁ heq
    rw [heq] at hloop
    have hgood₁ : Good E m₁ s ids (ref none + H) (vma :: D) := by
      rw [ref_none_add]
      exact hloop
    obtain ⟨entered, m₂, henter, -, -, hnone, hsome⟩ := enterArea_ok
      (v := initVma m₁ addr alignedSize (access ||| .mmio) cache pageSize .hardwareMmio .strictLocal
      pkey true none 0) hgood₁ hfree (add64_lt ..)
    rw [henter]
    cases entered with
    | none =>
      have hgood₂ := hnone rfl
      refine ⟨_, _, s, ids, rfl, .refl ?_⟩
      rw [← ref_none_add H]
      exact (hgood₂.unmapRange hE s addr alignedSize).release
    | some s₂ =>
      obtain ⟨harea, hroot, a, b, rfl, hgood₂⟩ := hsome s₂ rfl
      exact ⟨_, m₂, s₂, _, rfl, hgood₂, hroot, fun ha =>
        Aligned.enter ha hgood₁.not_mem harea hmod (add64_mod (getPageBytes_dvd _) hmod hsize)⟩

end

/-- **`map_object`**, of an object the caller has a reference to. -/
theorem mapObject_ok (h : Good E m s ids H D) (hE : E.Endless) {existingObj : Option Nat}
    (hobj : ∀ obj, existingObj = some obj → obj ∈ refs s ids + H) (size objOffsetPages : Nat)
    (access : AccessFlags)
    (cache : CacheMode) (pageSize : PageSize) (type : VMAType) (pkey hint : Nat) :
    Keeps E s ids H D
      (mapObject m s existingObj size objOffsetPages access cache pageSize type pkey hint) := by
  unfold mapObject
  split
  · exact .refl h
  rename_i obj
  obtain ⟨cell, hcell⟩ := h.sound.counted.live (o := obj)
    (Nat.lt_of_lt_of_le (Multiset.count_pos.2 (hobj obj rfl)) (Nat.le_add_right _ _))
  rw [hcell]
  dsimp only
  split
  · exact .refl h
  split
  · exact .refl h
  rename_i hhint
  obtain ⟨vma, m₁, hvma, hgood₁, -, -⟩ := h.allocate
  rw [hvma]
  cases vma with
  | none => exact .refl hgood₁
  | some vma =>
    obtain ⟨r, m₂, s₂, hplace, hsame, hgood₂, -, haddr⟩ :=
      placeArea_ok hgood₁ hE hint (alignUp size (getPageBytes pageSize)) (getPageBytes pageSize)
    dsimp only
    rw [hplace]
    cases r with
    | error e => exact ⟨_, _, s₂, ids, rfl, hsame.kept hgood₂.release⟩
    | ok addr =>
      obtain ⟨hfree, hwhere⟩ := haddr addr rfl
      have hobj' : obj ∈ refs s₂ ids + H := by
        rw [refs_congr (s := s) fun i _ => by rw [hsame.area]]
        exact hobj obj rfl
      obtain ⟨r, m', s', ids', heq, hkept⟩ :=
        mapObjectAt_ok hgood₂ hfree (placed_mod (hint_ok hhint) hwhere)
        (alignDown_mod ..) access cache pkey hobj' objOffsetPages type
      exact ⟨r, m', s', ids', heq, (hsame.kept hgood₂.release).trans hkept⟩

/-- **`map_mmio`.** -/
theorem mapMmio_ok (h : Good E m s ids H D) (hE : E.Endless) (physBase size : Nat)
    (access : AccessFlags) (cache : CacheMode) (pageSize : PageSize) (pkey hint : Nat) :
    Keeps E s ids H D (mapMmio m s physBase size access cache pageSize pkey hint) := by
  unfold mapMmio
  dsimp only
  split
  · exact .refl h
  split
  · exact .refl h
  rename_i hhint
  rw [Bool.or_eq_true, not_or] at hhint
  obtain ⟨vma, m₁, hvma, hgood₁, -, -⟩ := h.allocate
  rw [hvma]
  cases vma with
  | none => exact .refl hgood₁
  | some vma =>
    obtain ⟨r, m₂, s₂, hplace, hsame, hgood₂, -, haddr⟩ :=
      placeArea_ok hgood₁ hE hint (alignUp size (getPageBytes pageSize)) (getPageBytes pageSize)
    dsimp only
    rw [hplace]
    cases r with
    | error e => exact ⟨_, _, s₂, ids, rfl, hsame.kept hgood₂.release⟩
    | ok addr =>
      obtain ⟨hfree, hwhere⟩ := haddr addr rfl
      obtain ⟨r, m', s', ids', heq, hkept⟩ :=
        mapMmioAt_ok hgood₂ hfree (placed_mod (hint_ok hhint.2) hwhere)
        (alignDown_mod ..) access cache pkey hE physBase
      exact ⟨r, m', s', ids', heq, (hsame.kept hgood₂.release).trans hkept⟩

end

/-! ## Aliases and faults -/

section

variable {E : Past} {m m' : Memory} {s s' : AddressSpace} {ids a b D : List Nat} {H : Multiset Nat}
  {vma addr size : Nat}

theorem aliasSource_ok (h : Good E m s ids H D) (currSrc : Nat) (wantsWrite : Bool) :
    ∃ r x, aliasSource m s currSrc wantsWrite = (r, x) ∧ Filled E id s ids H D x := by
  unfold aliasSource
  dsimp only
  split
  · exact ⟨_, _, rfl, .refl id s, h⟩
  split
  · exact ⟨_, _, rfl, .refl id s, h⟩
  rename_i src hfind
  split
  · exact ⟨_, _, rfl, .refl id s, h⟩
  generalize (if (wantsWrite && (s.area src).flags.getAccess.has .write) = true then
    AccessFlags.write else .read) = faultType
  obtain ⟨r, x, heq, hfilled⟩ :=
    resolveVmaFaultLocked_ok h (h.layout.findVma_mem hfind).1 currSrc faultType id
  rw [heq]
  cases r with
  | error e => exact ⟨_, x, rfl, hfilled⟩
  | ok u =>
    dsimp only
    split
    · exact ⟨_, x, rfl, hfilled⟩
    · exact ⟨_, x, rfl, hfilled⟩

theorem aliasPage_ok {x : Memory × AddressSpace} (h : Filled E id s ids H D x)
    (srcAddr aliasAddr : Nat) (aliasFlags : AccessFlags) (i : Nat) :
    Sum.elim (Filled E id s ids H D) (fun x => Filled E id s ids H D x.2.2)
      (aliasPage srcAddr aliasAddr aliasFlags i x) := by
  obtain ⟨r, x, heq, happ, hgood⟩ :=
    aliasSource_ok h.2 (add64 srcAddr (i * pageSize)) (aliasFlags.has .write)
  have happ'' := h.1.trans happ fun i hi => absurd hi List.not_mem_nil
  rw [aliasPage, heq]
  cases r with
  | error e => exact ⟨happ'', hgood⟩
  | ok t =>
    dsimp only
    split
    · exact ⟨happ'', hgood.setTables _⟩
    · exact ⟨happ'', hgood.setTables _⟩

/-- The end of `create_alias`. -/
theorem createAliasAt_ok (h : Good E m s ids H (vma :: D)) (hE : E.Endless)
    (hfree : s.Free ids addr (add64 addr size)) (hmod : addr % pageSize = 0)
    (hsize : size % pageSize = 0) (srcAddr : Nat) (aliasFlags : AccessFlags) :
    Keeps E s ids H D (createAliasAt m s vma addr srcAddr size aliasFlags) := by
  have hloop :=
    Loop.upTo_ok (n := size / pageSize) (s := (m, s)) (fun _ => Filled E id s ids H (vma :: D)) _
    (fun i _ _ hinv => aliasPage_ok hinv srcAddr addr aliasFlags i) ⟨.refl id s, h⟩
  unfold createAliasAt
  split
  · rename_i i e m₁ s₁ heq
    rw [heq] at hloop
    obtain ⟨happ, hgood⟩ := hloop
    exact ⟨_, _, s₁, ids, rfl, (hgood.unmapRange hE s₁ addr _).release, happ.root,
      happ.aligned fun _ => rfl⟩
  · rename_i m₁ s₁ heq
    rw [heq] at hloop
    obtain ⟨happ, hgood⟩ := hloop
    have hgood₁ : Good E m₁ s₁ ids (ref none + H) (vma :: D) := by
      rw [ref_none_add]
      exact hgood
    have hfree₁ : s₁.Free ids addr (add64 addr size) := ⟨hfree.1, fun i hi => by
      rw [(happ.bounds i).1, (happ.bounds i).2.1]
      exact hfree.2 i hi⟩
    obtain ⟨entered, m₂, henter, -, -, hnone, hsome⟩ := enterArea_ok
      (v := initVma m₁ addr size aliasFlags .writeBack .size4K .anonymous .firstTouch 0 true none 0)
      hgood₁ hfree₁ (add64_lt ..)
    dsimp only
    rw [henter]
    cases entered with
    | none =>
      have hgood₂ := hnone rfl
      refine ⟨_, _, s₁, ids, rfl, ?_, happ.root, happ.aligned fun _ => rfl⟩
      rw [← ref_none_add H]
      exact (hgood₂.unmapRange hE s₁ addr size).release
    | some s₂ =>
      obtain ⟨harea, hroot, a, b, rfl, hgood₂⟩ := hsome s₂ rfl
      exact ⟨_, m₂, s₂, _, rfl, hgood₂, hroot.trans happ.root, fun ha =>
        Aligned.enter (happ.aligned (fun _ => rfl) ha) hgood₁.not_mem harea hmod
          (add64_mod (getPageBytes_dvd .size4K) hmod hsize)⟩

/-- **`create_alias`.** -/
theorem createAlias_ok (h : Good E m s ids H D) (hE : E.Endless) (srcAddr size : Nat)
    (aliasFlags : AccessFlags) : Keeps E s ids H D (createAlias m s srcAddr size aliasFlags) := by
  unfold createAlias
  split
  · exact .refl h
  rename_i halign
  split
  · exact .refl h
  have hsize : size % pageSize = 0 := by
    rw [aligned_iff] at halign
    exact halign.2
  obtain ⟨vma, m₁, hvma, hgood₁, -, -⟩ := h.allocate
  rw [hvma]
  cases vma with
  | none => exact .refl hgood₁
  | some vma =>
    obtain ⟨found, m₂, s₂, heq, hsame, hgood₂, -, hfound⟩ :=
      findFreeGap_ok hgood₁ hE size pageSize false
    dsimp only
    rw [heq]
    cases found with
    | zero => exact ⟨_, _, s₂, ids, rfl, hsame.kept hgood₂.release⟩
    | succ n =>
      obtain ⟨hfree, hmod⟩ := hfound (Nat.succ_ne_zero n)
      obtain ⟨r, m', s', ids', heq', hkept⟩ :=
        createAliasAt_ok hgood₂ hE hfree hmod hsize srcAddr aliasFlags
      exact ⟨r, m', s', ids', heq', (hsame.kept hgood₂.release).trans hkept⟩

/-- **`evict_page`.** -/
theorem evictPage_ok (h : Good E m s ids H D) (hE : E.Endless) (addr : Nat) :
    Keeps E s ids H D (evictPage m s addr) := by
  unfold evictPage
  split
  · exact .refl h
  dsimp only
  split
  · exact .refl h
  split
  · exact ⟨_, _, s, ids, rfl, .refl (h.fail hE)⟩
  · exact ⟨_, _, s, ids, rfl, .refl (h.setTables _)⟩

/-- The areas around an address that is in none of them. -/
theorem Layout.around (h : Layout s ids) (hnone : s.findVma addr = none) :
    ∃ a b, ids = a ++ b ∧ (∀ i ∈ a, (s.area i).stop ≤ addr) ∧ (∀ i ∈ b, addr < (s.area i).start) ∧
      s.nextAbove addr = b.head? ∧
      (∀ x, (KeyMap.floor addr s.tree).any (fun e => x < (s.area e.2).stop) = false →
        ∀ i ∈ a, (s.area i).stop ≤ x) := by
  have hout : ∀ i ∈ ids, ¬ ((s.area i).start ≤ addr ∧ addr < (s.area i).stop) := by
    intro i hi hc
    rw [h.findVma_iff.2 ⟨hi, contains_iff.2 hc⟩] at hnone
    cases hnone
  rcases h.floor_cases addr with ⟨hfloor, hall⟩ | ⟨a, i, b, rfl, hfloor, hle, hb⟩
  · refine ⟨[], ids, rfl, fun i hi => absurd hi List.not_mem_nil, hall, ?_,
      fun _ _ i hi => absurd hi List.not_mem_nil⟩
    rw [nextAbove, hfloor]
    exact h.dlist.head_eq
  · have hi := hout i (by simp)
    refine ⟨a ++ [i], b, by simp, fun j hj => ?_, hb, ?_, fun x hx j hj => ?_⟩
    · rcases List.mem_append.1 hj with hj | hj
      · exact (h.before hj).trans hle
      · rw [List.mem_singleton.1 hj]
        omega
    · rw [nextAbove, hfloor]
      exact h.dlist.cells.2
    · rw [hfloor] at hx
      have hx' : (s.area i).stop ≤ x := by simpa using hx
      rcases List.mem_append.1 hj with hj | hj
      · have hproper := h.proper i (by simp)
        have := h.before hj
        omega
      · rw [List.mem_singleton.1 hj]
        exact hx'

/-- The space after a stack has been made to begin further down. -/
def lowered (s : AddressSpace) (stack newStart : Nat) : AddressSpace :=
  { s.setArea stack
      { s.area stack with
        start := newStart
        objectOffset := (s.area stack).objectOffset - ((s.area stack).start - newStart) /
          (s.area stack).pageBytes } with
    tree := KeyMap.erase (s.area stack).start (KeyMap.insert newStart stack s.tree) }

theorem lowered_same (s : AddressSpace) (stack newStart : Nat) :
    (s.lowered stack newStart).area stack = { s.area stack with
      start := newStart
      objectOffset := (s.area stack).objectOffset - ((s.area stack).start - newStart) /
    (s.area stack).pageBytes } :=
  setArea_same ..

theorem lowered_other (s : AddressSpace) {stack i : Nat} (newStart : Nat) (hne : i ≠ stack) :
    (s.lowered stack newStart).area i = s.area i := setArea_other s _ hne

/-- What `expand_stack_locked` can do: nothing, or lower a stack that the address is below to the
page of the address. -/
theorem expandStackLocked_cases (h : Layout s ids) (m : Memory) (faultAddr : Nat) :
    ∃ r m' s', expandStackLocked m s faultAddr = (r, m', s') ∧ Same m m' ∧
      (s' = s ∧ (∀ vma, r = .ok vma → s.findVma faultAddr = some vma) ∨
        ∃ a stack b newStart, ids = a ++ stack :: b ∧ r = .ok stack ∧
        s' = s.lowered stack newStart ∧
          newStart = alignDown faultAddr (s.area stack).pageBytes ∧
          faultAddr < (s.area stack).start ∧
          (∀ i ∈ a, (s.area i).stop ≤ newStart) ∧ (s.area stack).stop - newStart ≤ maxStackBytes ∧
          ((s.area stack).start - newStart) / (s.area stack).pageBytes ≤
            (s.area stack).objectOffset) := by
  have hm : Same m m := ⟨rfl, rfl, rfl, rfl, rfl, rfl⟩
  unfold expandStackLocked
  split
  · rename_i vma hfind
    exact ⟨_, m, s, rfl, hm, .inl ⟨rfl, fun _ hok => by cases hok; exact hfind⟩⟩
  rename_i hfind
  obtain ⟨a, b, rfl, ha, hb, hnext, hfloor⟩ := h.around hfind
  split
  · exact ⟨_, m, s, rfl, hm, .inl ⟨rfl, nofun⟩⟩
  rename_i stack hstack
  dsimp only
  split
  · exact ⟨_, m, s, rfl, hm, .inl ⟨rfl, nofun⟩⟩
  split
  · exact ⟨_, m, s, rfl, hm, .inl ⟨rfl, nofun⟩⟩
  rename_i hroom
  rw [not_or, not_or, Bool.not_eq_true, not_lt, not_lt] at hroom
  obtain ⟨answer, m', hgrant, hsame⟩ := grant_same m
  rw [hgrant]
  cases answer with
  | false => exact ⟨_, m', s, rfl, hsame, .inl ⟨rfl, nofun⟩⟩
  | true =>
    rw [hnext] at hstack
    obtain ⟨b, rfl⟩ := List.head?_eq_some_iff.1 hstack
    exact ⟨_, m', _, rfl, hsame,
      .inr ⟨a, stack, b, _, rfl, rfl, rfl, rfl, hb stack (by simp), hfloor _ hroom.2.2,
      hroom.1, hroom.2.1⟩⟩

/-- **`expand_stack_locked`**: the stack reaches down to the page of the fault. -/
theorem expandStackLocked_ok (h : Good E m s ids H D) (faultAddr : Nat) :
    ∃ r m' s', expandStackLocked m s faultAddr = (r, m', s') ∧ Kept E s ids H D m' s' ids ∧
      ∀ vma, r = .ok vma → vma ∈ ids := by
  obtain ⟨r, m', s', heq, hsame,
      ⟨rfl, hfound⟩ | ⟨a, stack, b, newStart, rfl, rfl, rfl, hnew, hlt, hbefore, -⟩⟩ :=
    expandStackLocked_cases h.layout m faultAddr
  · exact ⟨r, m', _, heq, Kept.refl (h.same hsame), fun vma hr =>
      (h.layout.findVma_mem (hfound vma hr)).1⟩
  · have hle : newStart ≤ faultAddr := hnew ▸ Nat.sub_le ..
    have hmod : newStart % (s.area stack).pageBytes = 0 := hnew ▸ alignDown_mod ..
    refine ⟨_, m', _, heq,
      ⟨(h.same hsame).space (h.layout.lower rfl (hle.trans_lt hlt) hbefore) fun i _ => ?_, rfl,
      fun haligned i hi => ?_⟩, ?_⟩
    · rcases eq_or_ne i stack with rfl | hne
      · rw [lowered_same]
      · rw [lowered_other s _ hne]
    · rcases eq_or_ne i stack with rfl | hne
      · rw [lowered_same]
        exact ⟨hmod, (haligned i hi).2⟩
      · rw [lowered_other s _ hne]
        exact haligned i hi
    · rintro v ⟨rfl⟩
      simp

/-- **`handle_page_fault`.** -/
theorem handlePageFault_ok (h : Good E m s ids H D) (faultAddr : Nat) (faultType : AccessFlags) :
    Keeps E s ids H D (handlePageFault m s faultAddr faultType) := by
  have hresolve : ∀ {m₁ s₁ vma}, Kept E s ids H D m₁ s₁ ids → vma ∈ ids →
      Keeps E s ids H D (resolveVmaFaultLocked m₁ s₁ vma faultAddr faultType) := by
    intro m₁ s₁ vma hkept hvma
    obtain ⟨r, x, heq, happ, hgood⟩ :=
      resolveVmaFaultLocked_ok hkept.good hvma faultAddr faultType id
    exact ⟨r, _, _, ids, heq, hkept.trans ⟨hgood, happ.root, happ.aligned fun _ => rfl⟩⟩
  unfold handlePageFault
  split
  · rename_i vma hfind
    exact hresolve (Kept.refl h) (h.layout.findVma_mem hfind).1
  · split
    · obtain ⟨r, m₁, s₁, heq, hkept, hmem⟩ := expandStackLocked_ok h faultAddr
      rw [heq]
      cases r with
      | error e => exact ⟨_, m₁, s₁, ids, rfl, hkept⟩
      | ok stack => exact hresolve hkept (hmem stack rfl)
    · exact .refl h

end

end Erebus.Vmm.AddressSpace
