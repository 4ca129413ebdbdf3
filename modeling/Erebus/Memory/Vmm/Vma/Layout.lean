import Erebus.Memory.Vmm.Vma.Allocate

/-!
# The layout of an address space

List and tree hold the same areas, which go up without overlap.

* `Layout s ids`: the areas of `s` are `ids`, in this order.
* `Layout.findVma_iff`, `Layout.rangeIsFree_iff`, `searchGap_free`: what the searches find.
* `Layout.enter`, `Layout.remove`, `Layout.split`, `Layout.absorb`, `Layout.resize`: what one change
  of the list and the tree leaves.
-/

namespace Erebus.Vmm.AddressSpace

open List
    (mem_cons mem_map pairwise_append pairwise_cons mem_append map_append map_congr_left map_cons)
open DList

/-- The areas of the space, in order. -/
structure Layout (s : AddressSpace) (ids : List Nat) : Prop where
  dlist : IsDList s.links s.ends ids
  tree : s.tree = ids.map fun i => ((s.area i).start, i)
  ordered : ids.Pairwise fun i j => (s.area i).stop ≤ (s.area j).start
  proper : ∀ i ∈ ids, (s.area i).start < (s.area i).stop ∧ (s.area i).stop < 2 ^ 64

/-- What the tree holds of a list of areas. -/
abbrev entries (s : AddressSpace) (l : List Nat) : List (Nat × Nat) :=
  l.map fun j => ((s.area j).start, j)

/-- A range that no area reaches into. -/
def Free (s : AddressSpace) (ids : List Nat) (start stop : Nat) : Prop :=
  start < stop ∧ ∀ i ∈ ids, (s.area i).stop ≤ start ∨ stop ≤ (s.area i).start

variable {s s' : AddressSpace} {ids a b : List Nat} {i j addr : Nat}

theorem contains_iff {v : VMArea} : v.contains addr = true ↔ v.start ≤ addr ∧ addr < v.stop := by
  simp [VMArea.contains]

/-! ## Order -/

theorem Layout.starts (h : Layout s ids) :
    ids.Pairwise fun i j => (s.area i).start < (s.area j).start :=
  h.ordered.imp_of_mem fun hi _ hle => lt_of_lt_of_le (h.proper _ hi).1 hle

theorem Layout.length_le (h : Layout s ids) : ids.length ≤ maxAreas := by
  have hnodup : (ids.map fun i => (s.area i).start).Nodup :=
    List.pairwise_map.2 (h.starts.imp fun hlt => Nat.ne_of_lt hlt)
  have hsub : (ids.map fun i => (s.area i).start).toFinset ⊆ Finset.range maxAreas := by
    intro x hx
    obtain ⟨i, hi, rfl⟩ := mem_map.1 (List.mem_toFinset.1 hx)
    have := h.proper i hi
    exact Finset.mem_range.2 (lt_trans this.1 this.2)
  have hcard := Finset.card_le_card hsub
  rwa [List.toFinset_card_of_nodup hnodup, List.length_map, Finset.card_range] at hcard

theorem Layout.areas_eq (h : Layout s ids) : s.areas = ids := by
  rw [areas, following, h.dlist.head_eq]
  exact h.dlist.seg.walk_next h.length_le

section

variable (h : Layout s (a ++ i :: b))
include h

theorem Layout.following_eq : s.following (some i) = i :: b := by
  have hlen := h.length_le
  rw [List.length_append] at hlen
  exact ((seg_append _ _ _ a (i :: b)).1 h.dlist.seg).2.walk_next (by omega)

/-- The areas in front of one end before it starts. -/
theorem Layout.before (hj : j ∈ a) : (s.area j).stop ≤ (s.area i).start :=
  (pairwise_append.1 h.ordered).2.2 j hj i (by simp)

theorem Layout.after (hj : j ∈ b) : (s.area i).stop ≤ (s.area j).start :=
  (pairwise_cons.1 (pairwise_append.1 h.ordered).2.1).1 j hj

end

/-- An address lies in one area at most. -/
theorem Layout.eq_of_contains (h : Layout s ids) (addr : Nat) (hi : i ∈ ids) (hj : j ∈ ids)
    (hci : (s.area i).contains addr = true) (hcj : (s.area j).contains addr = true) : i = j := by
  rw [contains_iff] at hci hcj
  by_contra hne
  have hall : ∀ x ∈ ids, ∀ y ∈ ids, x ≠ y → (s.area x).stop ≤ (s.area y).start ∨
      (s.area y).stop ≤ (s.area x).start :=
    List.Pairwise.forall_of_forall_of_flip (by intro x _ hxx; exact absurd rfl hxx)
      (h.ordered.imp fun hle _ => Or.inl hle) (h.ordered.imp fun hle _ => Or.inr hle)
  rcases hall i hi j hj hne with hle | hle <;> omega

/-! ## Searches -/

section

variable (h : Layout s ids)
include h

theorem Layout.sorted : KeyMap.Sorted s.tree := by
  rw [h.tree]
  exact List.pairwise_map.2 h.starts

/-- The last area that starts at or below an address. -/
theorem Layout.floor_cases (addr : Nat) :
    (KeyMap.floor addr s.tree = none ∧ ∀ i ∈ ids, addr < (s.area i).start) ∨
      ∃ a i b, ids = a ++ i :: b ∧ KeyMap.floor addr s.tree = some ((s.area i).start, i) ∧
        (s.area i).start ≤ addr ∧ ∀ j ∈ b, addr < (s.area j).start := by
  rcases h.sorted.floor_cases addr with ⟨hnone, habove⟩ | ⟨a, e, b, ht, hfloor, -, hle, hb⟩
  · refine Or.inl ⟨hnone, fun i hi => habove ((s.area i).start, i) ?_⟩
    rw [h.tree]
    exact mem_map.2 ⟨i, hi, rfl⟩
  · right
    obtain ⟨a', rest, hids, -, hrest⟩ := List.map_eq_append_iff.1 (h.tree.symm.trans ht)
    obtain ⟨i, b', rfl, rfl, rfl⟩ := List.map_eq_cons_iff.1 hrest
    exact ⟨a', i, b', hids, hfloor, hle, fun j hj => hb _ (mem_map.2 ⟨j, hj, rfl⟩)⟩

/-- `find_vma` finds the area around an address. -/
theorem Layout.findVma_iff :
    s.findVma addr = some i ↔ i ∈ ids ∧ (s.area i).contains addr = true := by
  rcases h.floor_cases addr with ⟨hfloor, habove⟩ | ⟨a, x, b, hids, hfloor, hle, hb⟩
  · rw [findVma, hfloor]
    refine ⟨nofun, fun ⟨hi, hc⟩ => ?_⟩
    have := habove i hi
    rw [contains_iff] at hc
    omega
  · rw [findVma, hfloor]
    simp only [Option.ite_none_right_eq_some, Option.some.injEq]
    constructor
    · rintro ⟨hc, rfl⟩
      exact ⟨by simp [hids], hc⟩
    · rintro ⟨hi, hc⟩
      have hxi : x = i := by
        rw [hids] at hi h
        rw [contains_iff] at hc
        rcases mem_append.1 hi with hia | hib
        · have := h.before hia
          omega
        · rcases mem_cons.1 hib with rfl | hib
          · rfl
          · have := hb i hib
            omega
      exact ⟨hxi ▸ hc, hxi⟩

theorem Layout.findVma_mem (hf : s.findVma addr = some i) :
    i ∈ ids ∧ (s.area i).start ≤ addr ∧ addr < (s.area i).stop := by
  obtain ⟨hi, hc⟩ := h.findVma_iff.1 hf
  exact ⟨hi, contains_iff.1 hc⟩

/-- `range_is_free` says whether an area reaches into the range. -/
theorem Layout.rangeIsFree_iff {start stop : Nat} :
    s.rangeIsFree start stop = true ↔ s.Free ids start stop := by
  by_cases hlt : stop ≤ start
  · rw [rangeIsFree, if_pos hlt]
    exact ⟨nofun, fun hf => absurd hf.1 (Nat.not_lt.2 hlt)⟩
  · rw [rangeIsFree, if_neg hlt]
    rcases h.floor_cases (stop - 1) with ⟨hfloor, habove⟩ | ⟨a, x, b, hids, hfloor, hle, hb⟩
    · rw [hfloor]
      refine ⟨fun _ => ⟨by omega, fun i hi => Or.inr ?_⟩, fun _ => rfl⟩
      have := habove i hi
      omega
    · rw [hfloor]
      simp only [decide_eq_true_eq]
      constructor
      · refine fun hstop => ⟨by omega, fun i hi => ?_⟩
        rw [hids] at hi h
        rcases mem_append.1 hi with hia | hib
        · have := h.before hia
          have := h.proper x (by simp)
          omega
        · rcases mem_cons.1 hib with rfl | hib
          · exact Or.inl hstop
          · have := hb i hib
            omega
      · intro hf
        have hx : x ∈ ids := by simp [hids]
        have := h.proper x hx
        rcases hf.2 x hx with hle' | hle' <;> omega

/-- What `first_fit` finds is free. -/
theorem Layout.firstFit_free {start limit size alignment found : Nat}
    (hf : s.firstFit start limit size alignment = some found) (hfound : found ≠ 0) :
    s.Free ids found (add64 found size) := by
  refine Loop.run_of_some (fun _ => True) (fun r => r ≠ 0 → s.Free ids r (add64 r size)) ?_
    trivial hf hfound
  intro candidate _
  rw [firstFitRound]
  split
  · exact fun hne => absurd rfl hne
  · rename_i hroom
    have hfree : s.rangeIsFree candidate (add64 candidate size) = true →
        s.Free ids candidate (add64 candidate size) := h.rangeIsFree_iff.1
    rw [rangeIsFree, if_neg (by omega)] at hfree
    split
    · rename_i hfloor
      rw [hfloor] at hfree
      exact fun _ => hfree rfl
    · rename_i hfloor
      rw [hfloor] at hfree
      split
      · rename_i hle
        exact fun _ => hfree (decide_eq_true hle)
      · trivial

theorem Layout.searchGap_free {region : Region} {size alignment found : Nat}
    (hf : s.searchGap region size alignment = some found) (hfound : found ≠ 0) :
    s.Free ids found (add64 found size) := by
  rw [searchGap] at hf
  split at hf
  · cases hf
  · exact h.firstFit_free hf hfound
  · rename_i hfirst
    cases hf
    exact h.firstFit_free hfirst hfound

end

/-! ## Changes -/

/-- Other attributes for the same ranges, and other page tables. -/
theorem Layout.congr (h : Layout s ids) (hlinks : s'.links = s.links) (hends : s'.ends = s.ends)
    (htree : s'.tree = s.tree)
    (harea : ∀ i ∈ ids, (s'.area i).start = (s.area i).start ∧ (s'.area i).stop = (s.area i).stop) :
    Layout s' ids where
  dlist := by
    rw [hlinks, hends]
    exact h.dlist
  tree := by
    rw [htree, h.tree]
    exact map_congr_left fun i hi => by rw [(harea i hi).1]
  ordered := h.ordered.imp_of_mem fun hi hj hle => by rwa [(harea _ hi).2, (harea _ hj).1]
  proper := fun i hi => by
    rw [(harea i hi).1, (harea i hi).2]
    exact h.proper i hi

theorem setArea_same (s : AddressSpace) (vma : Nat) (v : VMArea) : (s.setArea vma v).area vma = v :=
  Function.update_self ..

theorem setArea_other (s : AddressSpace) {vma i : Nat} (v : VMArea) (hne : i ≠ vma) :
    (s.setArea vma v).area i = s.area i :=
  Function.update_of_ne hne ..

/-- Other areas between the same neighbours. -/
theorem Layout.window {m n : List Nat} (h : Layout s (a ++ (m ++ b)))
    (hdlist : IsDList s'.links s'.ends (a ++ (n ++ b)))
    (htree : s'.tree = s.entries a ++ (s'.entries n ++ s.entries b))
    (hother : ∀ j ∈ a ++ b, s'.area j = s.area j)
    (hmid : n.Pairwise fun j k => (s'.area j).stop ≤ (s'.area k).start)
    (hnew : ∀ j ∈ n, ((s'.area j).start < (s'.area j).stop ∧ (s'.area j).stop < 2 ^ 64) ∧
      (∀ k ∈ a, (s.area k).stop ≤ (s'.area j).start) ∧
    ∀ k ∈ b, (s'.area j).stop ≤ (s.area k).start) : Layout s' (a ++ (n ++ b)) := by
  obtain ⟨horda, hord, hordab⟩ := pairwise_append.1 h.ordered
  have hordb := (pairwise_append.1 hord).2.1
  have hmap : ∀ l : List Nat, (∀ j ∈ l, j ∈ a ++ b) → s.entries l = s'.entries l := fun l hl =>
    map_congr_left fun j hj => by rw [hother j (hl j hj)]
  refine ⟨hdlist, ?_, pairwise_append.2 ⟨?_, pairwise_append.2 ⟨hmid, ?_, ?_⟩, ?_⟩, ?_⟩
  · rw [htree, hmap a (by simp +contextual), hmap b (by simp +contextual), map_append, map_append]
  · exact horda.imp_of_mem fun hj hk hle => by
      rwa [hother _ (by simp [hj]), hother _ (by simp [hk])]
  · exact hordb.imp_of_mem fun hj hk hle => by
      rwa [hother _ (by simp [hj]), hother _ (by simp [hk])]
  · intro j hj k hk
    rw [hother k (by simp [hk])]
    exact (hnew j hj).2.2 k hk
  · intro j hj k hk
    rw [hother j (by simp [hj])]
    rcases mem_append.1 hk with hk | hk
    · exact (hnew k hk).2.1 j hj
    · rw [hother k (by simp [hk])]
      exact hordab j hj k (by simp [hk])
  · intro j hj
    by_cases hjn : j ∈ n
    · exact (hnew j hjn).1
    · have hjab : j ∈ a ++ b := by simpa [hjn] using hj
      rw [hother j hjab]
      exact h.proper j (by simp at hjab ⊢; tauto)

/-- The areas around a free range. -/
theorem Layout.gap (h : Layout s ids) {start stop : Nat} (hfree : s.Free ids start stop) :
    ∃ a b, ids = a ++ b ∧ (∀ i ∈ a, (s.area i).stop ≤ start) ∧
    ∀ i ∈ b, stop ≤ (s.area i).start := by
  obtain ⟨a, b, ht, ha, hb⟩ := h.sorted.split start
  obtain ⟨a', b', hids, rfl, rfl⟩ := List.map_eq_append_iff.1 (h.tree.symm.trans ht)
  refine ⟨a', b', hids, fun i hi => ?_, fun i hi => ?_⟩
  · have hle := ha _ (mem_map.2 ⟨i, hi, rfl⟩)
    have hlt := hfree.1
    dsimp only at hle
    rcases hfree.2 i (by simp [hids, hi]) with hor | hor <;> omega
  · have hlt := hb _ (mem_map.2 ⟨i, hi, rfl⟩)
    have := h.proper i (by simp [hids, hi])
    dsimp only at hlt
    rcases hfree.2 i (by simp [hids, hi]) with hor | hor <;> omega

/-- The list part of `link_vma`: the new area comes between the smaller and the bigger ones. -/
theorem linkVma_isDList {new : Nat} (hdlist : IsDList s.links s.ends (a ++ b))
    (hlen : (a ++ b).length ≤ maxAreas)
    (hnew : new ∉ a ++ b) (ha : ∀ i ∈ a, (s.area i).start < (s.area new).start)
    (hb : ∀ i ∈ b, (s.area new).start < (s.area i).start) :
    IsDList (s.linkVma new).links (s.linkVma new).ends (a ++ new :: b) := by
  have hwalk : s.areas = a ++ b := by
    rw [areas, following, hdlist.head_eq]
    exact hdlist.seg.walk_next hlen
  rw [linkVma]
  split
  · -- the list is empty
    rename_i hhead
    have hnil := hdlist.eq_nil_of_head_none hhead
    obtain ⟨rfl, rfl⟩ := List.append_eq_nil_iff.1 hnil
    refine ⟨rfl, rfl, ?_, by simp⟩
    simp [seg_cons]
  · split
    · -- it comes last
      rename_i hlast
      have hbnil : b = [] := by
        rcases List.eq_nil_or_concat b with rfl | ⟨c, t, rfl⟩
        · rfl
        · have htail : s.ends.tail = some t := by simp [hdlist.tail_eq]
          have := hb t (by simp)
          rw [htail] at hlast
          simp only [Option.any_some, decide_eq_true_eq] at hlast
          omega
      subst hbnil
      rw [List.append_nil] at hdlist hnew
      exact pushBack_isDList hdlist hnew
    · -- it comes before the first bigger one
      rename_i hhead hlast
      cases b with
      | nil =>
        rcases List.eq_nil_or_concat a with rfl | ⟨c, t, rfl⟩
        · exact absurd hdlist.head_eq hhead
        · have htail : s.ends.tail = some t := by simp [hdlist.tail_eq]
          refine absurd ?_ hlast
          rw [htail]
          simpa using ha t (by simp)
      | cons c b =>
        have hfind :
            s.areas.find? (fun curr => !((s.area curr).start < (s.area new).start)) = some c := by
          have hc := hb c (by simp)
          have hsmall : a.find? (fun curr => !((s.area curr).start < (s.area new).start)) = none :=
            List.find?_eq_none.2 fun i hi => by simpa using ha i hi
          rw [hwalk, List.find?_append, hsmall, Option.none_or, List.find?_cons_of_pos]
          simpa using le_of_lt hc
        have hlinked := insertBefore_isDList hdlist hnew
        dsimp only
        rw [hfind]
        exact hlinked

theorem linkVma_area (s : AddressSpace) (new : Nat) :
    (s.linkVma new).area = s.area ∧ (s.linkVma new).tree = s.tree ∧
    (s.linkVma new).root = s.root := by
  unfold linkVma
  split
  · exact ⟨rfl, rfl, rfl⟩
  · split <;> exact ⟨rfl, rfl, rfl⟩

/-- **A new area** goes between those around its range. -/
theorem Layout.enter (h : Layout s ids) {new : Nat} {v : VMArea} (hnew : new ∉ ids)
    (hfree : s.Free ids v.start v.stop) (hstop : v.stop < 2 ^ 64) : ∃ a b, ids = a ++ b ∧
      Layout ({ s.setArea new v with tree := KeyMap.insert v.start new s.tree }.linkVma new)
        (a ++ new :: b) := by
  obtain ⟨a, b, rfl, ha, hb⟩ := h.gap hfree
  refine ⟨a, b, rfl, ?_⟩
  have hlt := hfree.1
  have hne : ∀ i ∈ a ++ b, i ≠ new := fun i hi heq => hnew (heq ▸ hi)
  have harea : ∀ i ∈ a ++ b, (s.setArea new v).area i = s.area i :=
    fun i hi => setArea_other s v (hne i hi)
  have hstarta : ∀ i ∈ a, (s.area i).start < v.start := fun i hi =>
    lt_of_lt_of_le (h.proper i (by simp [hi])).1 (ha i hi)
  have hstartb : ∀ i ∈ b, v.start < (s.area i).start := fun i hi => lt_of_lt_of_le hlt (hb i hi)
  obtain ⟨hareas, htree, -⟩ :=
    linkVma_area { s.setArea new v with tree := KeyMap.insert v.start new s.tree } new
  refine Layout.window (m := []) (n := [new]) h
    (linkVma_isDList h.dlist h.length_le hnew ?_ ?_) ?_ ?_ (List.pairwise_singleton ..) ?_
  · intro i hi
    dsimp only
    rw [harea i (by simp [hi]), setArea_same]
    exact hstarta i hi
  · intro i (hi : i ∈ b)
    dsimp only
    rw [harea i (by simp [hi]), setArea_same]
    exact hstartb i hi
  · simp only [htree, entries, hareas]
    rw [h.tree, map_append, KeyMap.insert_append (by simpa using hstarta) (by simpa using hstartb)]
    simp [setArea_same]
  · rwa [hareas]
  · rw [hareas]
    simpa [setArea_same] using ⟨⟨hlt, hstop⟩, ha, hb⟩

/-- The keys of the other areas are not that of the one. -/
theorem Layout.key_ne (h : Layout s (a ++ i :: b)) :
    (∀ e ∈ s.entries a, e.1 ≠ (s.area i).start) ∧
      ∀ e ∈ s.entries b, e.1 ≠ (s.area i).start := by
  have hpair := pairwise_append.1 h.starts
  constructor
  · intro e he
    obtain ⟨j, hj, rfl⟩ := mem_map.1 he
    exact Nat.ne_of_lt (hpair.2.2 j hj i (by simp))
  · intro e he
    obtain ⟨j, hj, rfl⟩ := mem_map.1 he
    exact Nat.ne_of_gt ((pairwise_cons.1 hpair.2.1).1 j hj)

/-- `get` finds the area that starts at a key. -/
theorem Layout.get_iff (h : Layout s ids) :
    KeyMap.get addr s.tree = some i ↔ i ∈ ids ∧ (s.area i).start = addr := by
  constructor
  · intro hget
    rw [KeyMap.get] at hget
    obtain ⟨e, hfind, rfl⟩ := Option.map_eq_some_iff.1 hget
    have hmem := List.mem_of_find?_eq_some hfind
    have hkey := List.find?_some hfind
    rw [h.tree] at hmem
    obtain ⟨j, hj, rfl⟩ := mem_map.1 hmem
    exact ⟨hj, by simpa using hkey⟩
  · rintro ⟨hi, rfl⟩
    obtain ⟨a, b, rfl⟩ := List.append_of_mem hi
    refine h.sorted.get_append (e := ((s.area i).start, i)) (a := s.entries a) (b := s.entries b) ?_
    rw [h.tree, map_append, map_cons]

variable (h : Layout s (a ++ i :: b))
include h

/-- **An area leaves.** -/
theorem Layout.remove : Layout (s.removeArea i (s.area i).start) (a ++ b) where
  dlist := unlink_isDList h.dlist
  tree := by
    change KeyMap.erase _ s.tree = _
    rw [h.tree, map_append, map_cons, KeyMap.erase_append h.key_ne.1 h.key_ne.2, ← map_append]
    rfl
  ordered := h.ordered.sublist (by simp)
  proper := fun j hj => h.proper j (by
    simp only [mem_append, mem_cons] at hj ⊢
    tauto)

/-- An area changes its range where there is room. -/
theorem Layout.resize {v : VMArea} {s' : AddressSpace} (hlinks : s'.links = s.links)
    (hends : s'.ends = s.ends) (harea : s'.area = (s.setArea i v).area)
    (htree : s'.tree = s.entries a ++ (v.start, i) :: s.entries b)
    (hproper : v.start < v.stop ∧ v.stop < 2 ^ 64) (hbefore : ∀ j ∈ a, (s.area j).stop ≤ v.start)
    (hafter : ∀ j ∈ b, v.stop ≤ (s.area j).start) : Layout s' (a ++ i :: b) := by
  have hnodup := List.nodup_cons.1 (List.nodup_middle.1 h.dlist.nodup)
  refine Layout.window (m := [i]) (n := [i]) h ?_ ?_ ?_ (List.pairwise_singleton ..) ?_
  · rw [hlinks, hends]
    exact h.dlist
  · simpa [harea, setArea_same] using htree
  · rw [harea]
    exact fun j hj => setArea_other s v fun heq => hnodup.1 (heq ▸ hj)
  · simpa [harea, setArea_same] using ⟨hproper, hbefore, hafter⟩

/-- Other attributes and another end for an area. -/
theorem Layout.restop {v : VMArea} (hstart : v.start = (s.area i).start)
    (hlt : v.start < v.stop) (hstop : v.stop < 2 ^ 64)
    (hafter : ∀ j ∈ b, v.stop ≤ (s.area j).start) : Layout (s.setArea i v) (a ++ i :: b) := by
  refine h.resize (v := v) rfl rfl rfl ?_ ⟨hlt, hstop⟩ (fun j hj => hstart ▸ h.before hj) hafter
  show s.tree = _
  rw [h.tree, hstart, map_append, map_cons]

/-- An area starts further down. -/
theorem Layout.lower {v : VMArea} (hstop : v.stop = (s.area i).stop)
    (hlt : v.start < (s.area i).start) (hbefore : ∀ j ∈ a, (s.area j).stop ≤ v.start) :
    Layout
      { s.setArea i v with tree := KeyMap.erase (s.area i).start (KeyMap.insert v.start i s.tree) }
      (a ++ i :: b) := by
  have hproper := h.proper i (by simp)
  refine h.resize rfl rfl rfl ?_ (by omega) hbefore fun j hj => hstop ▸ h.after hj
  have ha : ∀ e ∈ s.entries a, e.1 < v.start := by
    intro e he
    obtain ⟨j, hj, rfl⟩ := mem_map.1 he
    exact lt_of_lt_of_le (h.proper j (by simp [hj])).1 (hbefore j hj)
  have hb : ∀ e ∈ ((s.area i).start, i) :: s.entries b, v.start < e.1 := by
    intro e he
    rcases mem_cons.1 he with rfl | he
    · exact hlt
    · obtain ⟨j, hj, rfl⟩ := mem_map.1 he
      exact hlt.trans (hproper.1.trans_le (h.after hj))
  have hkeys : ∀ e ∈ s.entries a ++ [(v.start, i)], e.1 ≠ (s.area i).start := by
    intro e he
    rcases mem_append.1 he with he | he
    · exact h.key_ne.1 e he
    · rw [List.mem_singleton.1 he]
      exact hlt.ne
  change KeyMap.erase _ (KeyMap.insert _ _ s.tree) = _
  rw [h.tree, map_append, map_cons, KeyMap.insert_append ha hb]
  have hsplit : ∀ (x y : Nat × Nat) (l r : List (Nat × Nat)),
      l ++ x :: y :: r = (l ++ [x]) ++ y :: r := by simp
  rw [hsplit, KeyMap.erase_append hkeys h.key_ne.2, List.append_assoc]
  rfl

omit h

theorem splitAt_area {upper : Nat} (point : Nat) (hui : upper ≠ i) :
    (s.splitAt i point upper).area i = { s.area i with stop := point } ∧
    (s.splitAt i point upper).area upper =
        { s.area i with
          start := point
          objectOffset :=
            add64 (s.area i).objectOffset ((point - (s.area i).start) / (s.area i).pageBytes) } ∧
      ∀ j, j ≠ i → j ≠ upper → (s.splitAt i point upper).area j = s.area j := by
  refine ⟨setArea_same .., (setArea_other _ _ hui).trans (setArea_same ..), fun j hi hu => ?_⟩
  exact (setArea_other _ _ hi).trans (setArea_other _ _ hu)

/-- **An area is cut in two.** -/
theorem Layout.split (h : Layout s (a ++ i :: b)) {point upper : Nat}
    (hlt : (s.area i).start < point)
    (hstop : point < (s.area i).stop) (hnew : upper ∉ a ++ i :: b) :
    Layout (s.splitAt i point upper) (a ++ i :: upper :: b) := by
  have hi := h.proper i (by simp)
  have hui : upper ≠ i := fun heq => hnew (by simp [heq])
  have hnodup := List.nodup_middle.1 h.dlist.nodup
  have hne : ∀ j ∈ a ++ b, j ≠ i := fun j hj heq => (List.nodup_cons.1 hnodup).1 (heq ▸ hj)
  have hneu : ∀ j ∈ a ++ b, j ≠ upper := fun j hj heq => hnew (by
    rw [← heq]
    simp only [mem_append, mem_cons] at hj ⊢
    tauto)
  obtain ⟨hself, hupper, hrest⟩ := splitAt_area (s := s) point hui
  have hother : ∀ j ∈ a ++ b, (s.splitAt i point upper).area j = s.area j := fun j hj =>
    hrest j (hne j hj) (hneu j hj)
  have hafter : ∀ j ∈ b, (s.area i).stop ≤ (s.area j).start := fun j hj => h.after hj
  refine Layout.window (m := [i]) (n := [i, upper]) h (insertAfter_isDList h.dlist hnew)
    ?_ hother ?_ ?_
  · change KeyMap.insert point upper s.tree = _
    have hsplit : s.tree = (s.entries a ++ [((s.area i).start, i)]) ++ s.entries b := by
      simp [h.tree]
    rw [hsplit, KeyMap.insert_append]
    · simp [hself, hupper]
    · intro e he
      rcases mem_append.1 he with he | he
      · obtain ⟨j, hj, rfl⟩ := mem_map.1 he
        have := h.before hj
        have := h.proper j (by simp [hj])
        dsimp only
        omega
      · obtain rfl := List.mem_singleton.1 he
        exact hlt
    · intro e he
      obtain ⟨j, hj, rfl⟩ := mem_map.1 he
      have := hafter j hj
      dsimp only
      omega
  · simp [hself, hupper]
  · have hbefore : ∀ k ∈ a, (s.area k).stop ≤ (s.area i).start := fun k hk => h.before hk
    rintro j (_ | ⟨_, _ | ⟨_, ⟨⟩⟩⟩)
    · rw [hself]
      exact ⟨⟨hlt, hstop.trans hi.2⟩, hbefore, fun k hk => hstop.le.trans (hafter k hk)⟩
    · rw [hupper]
      exact ⟨⟨hstop, hi.2⟩, fun k hk => (hbefore k hk).trans hlt.le, hafter⟩

/-- **An area takes over its successor.** -/
theorem Layout.absorb (h : Layout s (a ++ i :: j :: b)) :
    Layout (s.absorbed i j) (a ++ i :: b) := by
  have hremoved : Layout (s.removeArea j (s.area j).start) (a ++ i :: b) := by
    have happ : Layout s ((a ++ [i]) ++ j :: b) := by simpa using h
    simpa using happ.remove
  have hij := h.after (j := j) (by simp)
  have hi := h.proper i (by simp)
  have hj := h.proper j (by simp)
  have hsplit : Layout s ((a ++ [i]) ++ j :: b) := by simpa using h
  have hset := hremoved.restop (v := { s.area i with stop := (s.area j).stop }) rfl
    (lt_of_lt_of_le hi.1 (hij.trans (le_of_lt hj.1))) hj.2 fun k hk => hsplit.after hk
  exact hset.congr rfl rfl rfl fun _ _ => ⟨rfl, rfl⟩

end Erebus.Vmm.AddressSpace
