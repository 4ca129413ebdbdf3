import Erebus.Memory.Vmm.PageMap.Flush

/-!
# Unmapping a range

* `Fits s start size`: every leaf that meets the range lies in it, so that unmapping the range
  splits nothing.
* `Gone`: what `unmap_range` has done when it comes to an address: everything before it is unmapped,
  nothing else changed, and only what it unmapped may be stale.
* `unmapRange_ok`: the loop ends; if it succeeds the range is unmapped and flushed, and it fails
  only by running out of memory at a huge page that crosses the end of the range.
-/

namespace Erebus.Vmm

open PTEntry

namespace PageMap

/-- All slots of a batch are in the half of its first. -/
theorem batch_upperOf {L v l n i : Nat} (hbatch : Batch L v l n) (hi : i < n) (hL : l + 1 ≤ L) :
    upperOf L (v + i * levelCoverage l) = upperOf L v :=
  upperOf_congr (Nat.le_add_left 1 l) hL (hbatch.table_eq hi)

variable [Callers]

/-! ## Present leaves -/

section

variable {s s' : PageMap} {held held' : List Nat} {v w start size : Nat} {P Q : Set Nat}

theorem level_succ_le (hwf : WF s held) (size : PageSize) : size.level + 1 ≤ s.feat.levels := by
  have h3 := PageSize.level_le size
  rcases hwf.levels with h | h <;> omega

theorem present_iff_view (hwf : WF s held) (v : Nat) :
    (s.probe v).value.present = true ↔ s.view v ≠ none := by
  obtain ⟨l, f, hl, hr, hleaf, hprobe⟩ := probe_reaches hwf.levels_pos v
  rw [view_eq, hprobe]
  constructor
  · intro hpresent
    obtain ⟨m, hm⟩ := leafView_isSome hpresent ((hwf.entries hr).leaf hpresent hleaf) l v
    rw [hm]
    exact Option.some_ne_none m
  · intro hne
    by_contra hpresent
    exact hne (if_neg hpresent)

omit [Callers] in
/-- The whole page of a leaf has its mapping. -/
theorem view_of_page {l f : Nat} (hL : 1 ≤ s.feat.levels) (hr : Reaches s v l f)
    (hleaf : ¬ s.DirAt v l f) (hw : s.SamePage l v w) :
    s.view w = leafView l (s.load (slotOf v l f)) w := by
  have hprobe := hr.probe_of_leaf (hr.pos hL) hleaf
  obtain ⟨hlevel, hvalue⟩ := probe_of_page_eq (v := v) (w := w) hL (by rw [hprobe]; exact hw)
  rw [view_eq, hlevel, hvalue, hprobe]

omit [Callers] in
/-- Nothing is mapped below a missing entry. -/
theorem view_none_of_page {l f : Nat} (hL : 1 ≤ s.feat.levels) (hr : Reaches s v l f)
    (hhole : (s.load (slotOf v l f)).present = false) (hw : s.SamePage l v w) :
    s.view w = none := by
  rw [view_of_page hL hr (not_isDirectory_of_hole hhole) hw, leafView, hhole]
  rfl

omit [Callers] in
/-- Leaves are at most at level 3. -/
theorem probe_level_le_three (hL : 1 ≤ s.feat.levels)
    (hpresent : (s.probe v).value.present = true) : (s.probe v).level ≤ 3 := by
  obtain ⟨l, f, hl, hr, hleaf, hprobe⟩ := probe_reaches hL v
  rw [hprobe] at hpresent ⊢
  by_contra hlt
  apply hleaf
  refine ⟨hpresent, ?_⟩
  rintro (h1 | ⟨h3, -⟩) <;> simp only at hlt <;> omega

/-- Every leaf that meets the range lies in it. -/
def Fits (s : PageMap) (start size : Nat) : Prop :=
  ∀ w ∈ Seg s.feat.levels start size, (s.probe w).value.present = true →
    ∀ u, page s.feat.levels (s.probe w).level u = page s.feat.levels (s.probe w).level w →
      u ∈ Seg s.feat.levels start size

/-- Leaves only get smaller where nothing new is mapped. -/
theorem Fits.of_changes (hfits : Fits s start size) (hwf : WF s held) (hwf' : WF s' held')
    (h : Changes s s' P Q)
    (hP : ∀ w ∈ Seg s.feat.levels start size, w ∉ P ∨ s'.view w = none) : Fits s' start size := by
  intro w hw hpresent u hu
  rw [h.feat] at hw hu ⊢
  have hview := (present_iff_view hwf' w).1 hpresent
  have hout : w ∉ P := (hP w hw).resolve_right hview
  rw [h.view w hout] at hview
  have hlevel := h.level_le hwf.levels_pos w
  exact hfits w hw ((present_iff_view hwf w).2 hview) u (page_eq_of_le hlevel hu)

end

/-! ## The state of an unmapping -/

/-- The `n` bytes from `start` on are unmapped and nothing else changed; `cleared` tells if anything
had been mapped there. -/
structure Gone (s₀ s : PageMap) (held : List Nat) (start n : Nat) (cleared : Bool) : Prop where
  wf : WF s held
  changes : Changes s₀ s (Seg s₀.feat.levels start n) (Seg s₀.feat.levels start n)
  gone : ∀ w ∈ Seg s₀.feat.levels start n, s.view w = none
  quiet : cleared = false → Changes s₀ s ∅ ∅
  some : cleared = true → ∃ w ∈ Seg s₀.feat.levels start n, s₀.view w ≠ none

section Unmapping

variable {s₀ s s' : PageMap} {held : List Nat} {start a b l f : Nat} {cleared : Bool}

theorem Gone.init (hwf : WF s₀ held) (start : Nat) : Gone s₀ s₀ held start 0 false where
  wf := hwf
  changes := (Changes.refl s₀).mono (Set.empty_subset _) (Set.empty_subset _)
  gone w hw := by
    rw [seg_zero] at hw
    exact hw.elim
  quiet _ := .refl s₀
  some h := nomatch h

variable (h : Gone s₀ s held start a cleared)
include h

/-- A stretch without mappings is passed. -/
theorem Gone.skip (hnone : ∀ w ∈ Seg s₀.feat.levels (start + a) b, s.view w = none) :
    Gone s₀ s held start (a + b) cleared where
  wf := h.wf
  changes := h.changes.mono (Seg.subset (Nat.le_add_right a b)) (Seg.subset (Nat.le_add_right a b))
  gone w hw := by
    rw [seg_add] at hw
    exact hw.elim (h.gone w) (hnone w)
  quiet := h.quiet
  some hc := by
    obtain ⟨w, hw, hview⟩ := h.some hc
    exact ⟨w, Seg.subset (Nat.le_add_right a b) hw, hview⟩

/-- A leaf is cleared. -/
theorem Gone.clear (hr : Reaches s (start + a) l f) (hleaf : ¬ s.DirAt (start + a) l f)
    (hpresent : (s.load (slotOf (start + a) l f)).present = true)
    (halign : (start + a) % levelCoverage l = 0) :
    Gone s₀ (s.store (slotOf (start + a) l f) 0) held start (a + levelCoverage l) true := by
  have hfeat := h.changes.feat
  have hl := hr.pos h.wf.levels_pos
  have hnew := not_isDirectory_zero l
  have hok : EntryOk s.feat (upperOf s.feat.levels (start + a)) l 0 :=
    ⟨fun hp => by simp [present] at hp, fun hp => by simp [present] at hp,
      fun hp => by simp [present] at hp⟩
  have hpage : ∀ w, s.SamePage l (start + a) w ↔
      w ∈ Seg s₀.feat.levels (start + a) (levelCoverage l) := by
    intro w
    rw [← hfeat]
    exact page_eq_iff_seg (hr.le.trans (Nat.le_succ _)) halign
  have hstep := store_changes h.wf hr hleaf hnew hok
  have hgone : ∀ w ∈ Seg s₀.feat.levels start (a + levelCoverage l),
      (s.store (slotOf (start + a) l f) 0).view w = none := by
    intro w hw
    by_cases hin : s.SamePage l (start + a) w
    · rw [store_view h.wf hr hleaf hnew hin, leafView_zero]
    · rw [hstep.view w hin]
      rw [seg_add] at hw
      exact h.gone w (hw.resolve_right fun hw => hin ((hpage w).2 hw))
  refine ⟨overwrite_wf h.wf hr hnew hok, ?_, hgone, (by simp), fun _ => ⟨start + a, ?_, ?_⟩⟩
  · apply (h.changes.trans hstep).mono
    · rintro w (hw | hw)
      · exact Seg.subset (Nat.le_add_right _ _) hw
      · rw [seg_add]
        exact .inr ((hpage w).1 hw)
    · rintro w (hw | ⟨hw, -⟩)
      · exact Seg.subset (Nat.le_add_right _ _) hw
      · rw [seg_add]
        exact .inr ((hpage w).1 hw)
  · rw [seg_add]
    exact .inr ((hpage _).1 rfl)
  · -- what is mapped now was not passed yet, so it was there from the beginning
    have hmapped : s.view (start + a) ≠ none := by
      rw [← present_iff_view h.wf, hr.probe_of_leaf hl hleaf]
      exact hpresent
    rwa [← h.changes.view _ fun hmem => hmapped (h.gone _ hmem)]

/-- A step that changes no mapping may come afterwards. -/
theorem Gone.before (hwf : WF s' held) (hc : Changes s s' ∅ ∅) :
    Gone s₀ s' held start a cleared where
  wf := hwf
  changes := h.changes.trans_right hc
  gone w hmem := (hc.quiet w).trans (h.gone w hmem)
  quiet hcleared := (h.quiet hcleared).trans_left hc
  some := h.some

/-- Nothing new is mapped. -/
theorem Gone.view_or_none (w : Nat) : s.view w = s₀.view w ∨ s.view w = none := by
  by_cases hw : w ∈ Seg s₀.feat.levels start a
  · exact .inr (h.gone w hw)
  · exact .inl (h.changes.view w hw)

/-- In a range that cuts no leaf, the leaf an unmapping comes to lies ahead of it. -/
theorem Gone.whole {size : Nat} (hfits : Fits s start size) (hin : InHalf s₀.feat.levels start size)
    (ha : a < size) (hpresent : (s.probe (start + a)).value.present = true) :
    (start + a) % levelCoverage (s.probe (start + a)).level = 0 ∧
      levelCoverage (s.probe (start + a)).level ≤ size - a := by
  have hfeat := h.changes.feat
  have hL := h.wf.levels
  rw [← hfeat] at hin
  have hlin := hin.lin_add hL ha
  have hspan := hin.lin_le hL (by omega)
  have hle : (s.probe (start + a)).level ≤ s.feat.levels + 1 := by
    have h3 := probe_level_le_three h.wf.levels_pos hpresent
    rcases h.wf.levels with h4 | h5 <;> omega
  generalize hl : (s.probe (start + a)).level = l at hle
  generalize hv : start + a = v at hlin hpresent hl
  have hpos := levelCoverage_pos l
  have hlt : v % levelCoverage l < levelCoverage l := Nat.mod_lt _ hpos
  have hpage : ∀ k, v % levelCoverage l + k < levelCoverage l → s.SamePage l v (v + k) := by
    intro k hk
    exact page_of_seg (n := k + 1) hle (by omega) (add_mem_seg _ v (Nat.lt_succ_self k))
  have hv_mem : v ∈ Seg s.feat.levels start size := by
    rw [← hv]
    exact add_mem_seg _ start ha
  have hinside := fun u hu => hfits v hv_mem hpresent u (hl ▸ hu)
  have haligned : v % levelCoverage l = 0 := by
    by_contra hne
    -- the page starts before `v`, at an address that has been passed
    obtain ⟨p, hp, hpmod⟩ : ∃ p, v = p + v % levelCoverage l ∧ p % levelCoverage l = 0 :=
      ⟨levelCoverage l * (v / levelCoverage l), (Nat.div_add_mod v _).symm, Nat.mul_mod_right _ _⟩
    have hsplit : lin s.feat.levels v = lin s.feat.levels p + v % levelCoverage l := by
      have hadd := lin_add_of_lt (v := p) (k := v % levelCoverage l) hle (by omega)
      rwa [← hp] at hadd
    have hsame : s.SamePage l p v := by
      apply page_of_seg (v := p) (n := v % levelCoverage l + 1) hle (by omega)
      exact ⟨v % levelCoverage l, Nat.lt_succ_self _, by rw [← hp]⟩
    have hp_mem : p ∈ Seg s₀.feat.levels start a := by
      have hmem := (mem_seg hspan).1 (hinside p hsame.symm)
      rw [← hfeat, mem_seg (by omega)]
      omega
    obtain ⟨-, hvalue⟩ := probe_of_page_eq h.wf.levels_pos (v := v) (w := p) (by rw [hl, hsame])
    have hview := (present_iff_view h.wf p).1 (by rw [hvalue, hpresent])
    exact hview (h.gone p hp_mem)
  refine ⟨haligned, ?_⟩
  have hlast := (mem_seg hspan).1 (hinside (v + (levelCoverage l - 1)) (hpage _ (by omega)))
  rw [lin_add_of_lt hle (by omega), hlin] at hlast
  omega

omit h

end Unmapping

/-! ## The loop -/

/-- What is left to do for a loop that passes pages or splits them. -/
def work (endVirt : Nat) (s : PageMap) (curr : Nat) : Nat :=
  4 * ((endVirt - curr) / 4096) + if (s.probe curr).value.present then (s.probe curr).level else 0

section

variable {s s' : PageMap} {endVirt curr : Nat}

omit [Callers] in
theorem work_le (hL : 1 ≤ s.feat.levels) (endVirt curr : Nat) :
    work endVirt s curr ≤ 4 * ((endVirt - curr) / 4096) + 3 := by
  unfold work
  split
  · exact Nat.add_le_add_left (probe_level_le_three hL ‹_›) _
  · omega

omit [Callers] in
theorem work_lt_rounds (hL : 1 ≤ s.feat.levels) (start size : Nat) :
    work (start + size) s start < rounds size := by
  have hle := work_le hL (start + size) start
  rw [Nat.add_sub_cancel_left] at hle
  rw [rounds, pageSize_eq]
  omega

omit [Callers] in
theorem not_isAligned {n : Nat} (h : n % 4096 = 0) : (!isAligned n pageSize) = false := by
  simp [isAligned, pageSize_eq, h]

omit [Callers] in
/-- Passing a page. -/
theorem work_advance (hL : 1 ≤ s'.feat.levels) {n : Nat} (hpos : 0 < n) (hn : n % 4096 = 0)
    (hle : curr + n ≤ endVirt) : work endVirt s' (curr + n) < work endVirt s curr := by
  have hbound := work_le hL endVirt (curr + n)
  have hself : 4 * ((endVirt - curr) / 4096) ≤ work endVirt s curr := Nat.le_add_right _ _
  omega

omit [Callers] in
/-- Splitting one. -/
theorem work_split (hpresent : (s.probe curr).value.present = true)
    (hlt : (s'.probe curr).level < (s.probe curr).level) :
    work endVirt s' curr < work endVirt s curr := by
  rw [work, work, if_pos hpresent]
  split <;> omega

/-- A huge leaf is split, or nothing can be done. -/
theorem walk_split {held : List Nat} (h : WF s held)
    (hpresent : (s.probe curr).value.present = true) (hhuge : 1 < (s.probe curr).level) :
    ∃ r s', s.walk curr false (PageSize.ofLevel ((s.probe curr).level - 1)) = (r, s') ∧
      Walked s s' held curr (PageSize.ofLevel ((s.probe curr).level - 1)).level ∧
      ∀ pte, r = .ok pte → work endVirt s' curr < work endVirt s curr := by
  have hl3 := probe_level_le_three h.levels_pos hpresent
  have hlower : (PageSize.ofLevel ((s.probe curr).level - 1)).level = (s.probe curr).level - 1 := by
    obtain heq | heq : (s.probe curr).level = 2 ∨ (s.probe curr).level = 3 := by omega
    · rw [heq]
      rfl
    · rw [heq]
      rfl
  obtain ⟨r, s', hwalk, hwalked, hreach⟩ :=
    walk_ok h curr false (PageSize.ofLevel ((s.probe curr).level - 1))
  refine ⟨r, s', hwalk, hwalked, fun pte hpte => work_split hpresent ?_⟩
  obtain ⟨g, hg, -⟩ := hreach pte hpte
  have hless := hg.probe_level_le
  omega

end

section Range

variable {s₀ : PageMap} {held : List Nat} {start size : Nat}

/-- What `unmap_range` knows when it comes to an address. -/
def Unmapping (s₀ : PageMap) (held : List Nat) (start size : Nat)
    (st : PageMap × Nat × Bool) : Prop :=
  ∃ done, done ≤ size ∧ done % 4096 = 0 ∧ st.2.1 = start + done ∧
    Gone s₀ st.1 held start done st.2.2

/-- What it knows when it leaves its loop. -/
def Unmapped (s₀ : PageMap) (held : List Nat) (start size : Nat) :
    Except Error Bool × PageMap → Prop
  | (.ok cleared, s) => Gone s₀ s held start size cleared
  | (.error _, s) => (∃ done cleared, done ≤ size ∧ Gone s₀ s held start done cleared) ∧
      (InHalf s₀.feat.levels start size → ¬ Fits s₀ start size)

variable (hend : start + size < 2 ^ 64) (hstart : start % 4096 = 0) (hsize : size % 4096 = 0)

/-- The slots of one page table. -/
theorem clearSlots_ok {s : PageMap} {done n f : Nat} {cleared : Bool}
    (h : Gone s₀ s held start done cleared) (hr : Reaches s (start + done) 1 f)
    (hbatch : Batch s₀.feat.levels (start + done) 1 n) :
    ∃ s' cleared', Loop.times (clearSlot (slotOf (start + done) 1 f)) n (s, cleared) =
      (s', cleared') ∧ Gone s₀ s' held start (done + n * 4096) cleared' := by
  apply Exists.intro _
  apply Exists.intro _
  refine ⟨rfl, (Loop.times_ok (fun i (st : PageMap × Bool) =>
    Gone s₀ st.1 held start (done + i * 4096) st.2 ∧ Reaches st.1 (start + done) 1 f) ?_ ?_).1⟩
  swap
  · simpa using ⟨h, hr⟩
  rintro i ⟨s, cleared⟩ hi ⟨hgone, hr⟩
  simp only at hgone hr
  have hfeat := hgone.changes.feat
  have haddr : start + done + i * levelCoverage 1 = start + (done + i * 4096) := by
    rw [levelCoverage_one, Nat.add_assoc]
  have hslot := hbatch.slot_at hi f
  have hreach : Reaches s (start + done + i * levelCoverage 1) 1 f := by
    rw [← hfeat] at hbatch
    exact hbatch.reaches hi hr
  have halign := hbatch.aligned_add i
  rw [haddr] at hslot hreach halign
  have hleaf : ∀ e, ¬ IsDirectory 1 e := fun e hdir => hdir.2 (.inl rfl)
  have hnext : done + (i + 1) * 4096 = done + i * 4096 + levelCoverage 1 := by
    rw [levelCoverage_one]
    omega
  rw [clearSlot, hslot, hnext]
  cases hpresent : (s.load (slotOf (start + (done + i * 4096)) 1 f)).present with
  | true =>
    rw [if_pos rfl]
    exact ⟨hgone.clear hreach (hleaf _) hpresent halign,
      (store_reaches_iff hgone.wf hreach (hleaf _) (hleaf _)).2 hr⟩
  | false =>
    rw [if_neg Bool.false_ne_true]
    refine ⟨hgone.skip fun w hw => ?_, hr⟩
    apply view_none_of_page hgone.wf.levels_pos hreach hpresent
    rwa [SamePage, page_eq_iff_seg (Nat.le_add_left 1 _) halign, hfeat]

omit [Callers] in
/-- The 4 KiB pages of one round: up to the end of the range or of the page table. -/
theorem chunk_pages {L v r : Nat} (hL : 1 ≤ L) (hv : v % 4096 = 0) (hr : r % 4096 = 0)
    (hpos : 0 < r) :
    ∃ n, min r (sizeToBytes .size2M - v % sizeToBytes .size2M) = n ∧ 0 < n ∧ n % 4096 = 0 ∧ n ≤ r ∧
      n / pageSize * 4096 = n ∧ Batch L v 1 (n / pageSize) := by
  obtain ⟨hpos, hn, hle, hfit⟩ :=
    chunk_ok (c := sizeToBytes .size2M) hv hr hpos (dvd_levelCoverage 2)
    (levelCoverage_pos 2)
  generalize min r (sizeToBytes .size2M - v % sizeToBytes .size2M) = n at hpos hn hle hfit
  have hbytes : n / pageSize * 4096 = n := by
    rw [pageSize_eq]
    omega
  exact ⟨n, rfl, hpos, hn, hle, hbytes, le_rfl, hL,
    hv, by rw [levelCoverage_one, hbytes]; exact hfit⟩

include hend hstart hsize

/-- One round: a hole, a huge leaf that lies in the range, one that does not, or a page table. -/
theorem unmapRound_ok (hwf₀ : WF s₀ held) (st : PageMap × Nat × Bool)
    (hinv : Unmapping s₀ held start size st) :
    Sum.elim (fun st' => Unmapping s₀ held start size st' ∧
        work (start + size) st'.1 st'.2.1 < work (start + size) st.1 st.2.1)
      (Unmapped s₀ held start size) (unmapRound (start + size) st) := by
  obtain ⟨s, curr, cleared⟩ := st
  obtain ⟨done, hdone, hmod, hcurr, hgone⟩ := hinv
  simp only at hcurr hgone
  subst hcurr
  simp only [unmapRound]
  by_cases hlt : start + done < start + size
  swap
  · rw [if_neg hlt]
    have heq : done = size := by omega
    subst heq
    exact hgone
  rw [if_pos hlt]
  have hfeat := hgone.changes.feat
  have hL := hgone.wf.levels_pos
  have hv : (start + done) % 4096 = 0 := by omega
  have hremaining : start + size - (start + done) = size - done := by omega
  -- the rest of a round that passes `n` bytes
  have hpass : ∀ {s' n cleared'}, 0 < n → n % 4096 = 0 → n ≤ size - done →
      Gone s₀ s' held start (done + n) cleared' →
      Unmapping s₀ held start size (s', add64 (start + done) n, cleared') ∧
        work (start + size) s' (add64 (start + done) n) < work (start + size) s (start + done) := by
    intro s' n cleared' hpos hn hle hgone'
    have hadd : add64 (start + done) n = start + (done + n) := by
      rw [add64, Nat.mod_eq_of_lt (by omega), Nat.add_assoc]
    rw [hadd]
    refine ⟨⟨done + n, by omega, by omega, rfl, hgone'⟩, ?_⟩
    rw [← Nat.add_assoc]
    exact work_advance hgone'.wf.levels_pos hpos hn (by omega)
  obtain ⟨l, f, hl, hr, hleaf, hprobe⟩ := probe_reaches hL (start + done)
  rw [hremaining, hprobe]
  simp only
  cases hpresent : (s.load (slotOf (start + done) l f)).present with
  | false =>
    obtain ⟨hpos, hn, hle, hfit⟩ := chunk_ok (r := size - done) (c := levelCoverage l) hv (by omega)
      (by omega) (dvd_levelCoverage l) (levelCoverage_pos l)
    refine hpass hpos hn hle (hgone.skip fun w hw => ?_)
    apply view_none_of_page hL hr hpresent
    apply page_of_seg (hr.le.trans (Nat.le_succ _)) hfit
    rwa [hfeat]
  | true =>
    have hpresent' : (s.probe (start + done)).value.present = true := by rw [hprobe, hpresent]
    have hlevel : (s.probe (start + done)).level = l := by rw [hprobe]
    have hl3 : l ≤ 3 := hlevel ▸ probe_level_le_three hL hpresent'
    simp only [Bool.not_true, Bool.false_eq_true, if_false]
    by_cases hhuge : 1 < l
    · rw [if_pos hhuge]
      by_cases hwhole :
        (isAligned (start + done) (levelCoverage l) &&
          decide (levelCoverage l ≤ size - done)) = true
      · rw [if_pos hwhole]
        simp only [isAligned, Bool.and_eq_true, decide_eq_true_eq] at hwhole
        exact hpass (levelCoverage_pos l) (Nat.mod_eq_zero_of_dvd (dvd_levelCoverage l)) hwhole.2
          (hgone.clear hr hleaf hpresent hwhole.1)
      · rw [if_neg hwhole]
        obtain ⟨r, s', hwalk, hwalked, hsplit⟩ := walk_split hgone.wf hpresent' (by rwa [hlevel])
        rw [hlevel] at hwalk
        rw [hwalk]
        have hgone' := hgone.before hwalked.wf hwalked.changes
        cases r with
        | error e =>
          refine ⟨⟨done, cleared, hdone, hgone'⟩, fun hin hfits => hwhole ?_⟩
          have hfits' := hfits.of_changes hwf₀ hgone.wf hgone.changes fun w _ => by
            by_cases hw : w ∈ Seg s₀.feat.levels start done
            · exact .inr (hgone.gone w hw)
            · exact .inl hw
          have hfit := hgone.whole hfits' hin (by omega) hpresent'
          rw [hlevel] at hfit
          simpa [isAligned] using hfit
        | ok pte => exact ⟨⟨done, hdone, hmod, rfl, hgone'⟩, hsplit pte rfl⟩
    · rw [if_neg hhuge]
      obtain rfl : l = 1 := by omega
      obtain ⟨n, hchunk, hpos, hn, hle, hbytes, hbatch⟩ :=
        chunk_pages (r := size - done) hwf₀.levels_pos hv
        (by omega) (by omega)
      obtain ⟨s', cleared', htimes, hgone'⟩ := clearSlots_ok hgone hr hbatch
      rw [hchunk, htimes]
      rw [hbytes] at hgone'
      exact hpass hpos hn hle hgone'

/-- **`unmap_range`.**  If it succeeds the range is unmapped. What it clears it clears for good, and
it flushes the range, if that lies in one half. It fails only if a leaf crosses an end of the range,
and if it had not unmapped anything before, nothing changed. -/
theorem unmapRange_spec (hwf : WF s₀ held) :
    ∃ r s, s₀.unmapRange start size = some (r, s) ∧ WF s held ∧
      Changes s₀ s (Seg s₀.feat.levels start size) (Seg s₀.feat.levels start size) ∧
      (∀ w, s.view w = s₀.view w ∨ s.view w = none) ∧
      (r = .ok () → (∀ w ∈ Seg s₀.feat.levels start size, s.view w = none) ∧
        (InHalf s₀.feat.levels start size → Flushed s₀ s)) ∧
      (r ≠ .ok () → (InHalf s₀.feat.levels start size → ¬ Fits s₀ start size) ∧
        ((∀ w, s.view w = s₀.view w) → Changes s₀ s ∅ ∅)) := by
  have hround := unmapRound_ok hend hstart hsize hwf
  have hadd : add64 start size = start + size := Nat.mod_eq_of_lt hend
  have hinit : Unmapping s₀ held start size (s₀, start, false) :=
    ⟨0, Nat.zero_le _, rfl, rfl, Gone.init hwf start⟩
  obtain ⟨⟨r, s⟩, hrun, hres⟩ :=
    Loop.run_ok (Unmapping s₀ held start size) (Unmapped s₀ held start size)
    (fun st => work (start + size) st.1 st.2.1) hround hinit
      (work_lt_rounds hwf.levels_pos start size)
  simp only [unmapRange, not_isAligned hstart, not_isAligned hsize, Bool.or_self,
    Bool.false_eq_true, if_false, hadd, hrun]
  cases r with
  | error e =>
    obtain ⟨⟨done, cleared, hle, hgone⟩, hfits⟩ := hres
    refine ⟨_, s, rfl, hgone.wf, hgone.changes.mono (Seg.subset hle) (Seg.subset hle),
      hgone.view_or_none, nofun, fun _ => ⟨hfits, fun hsame => ?_⟩⟩
    cases cleared with
    | false => exact hgone.quiet rfl
    | true =>
      -- what was cleared is not mapped any more
      obtain ⟨w, hw, hne⟩ := hgone.some rfl
      exact absurd ((hsame w).symm.trans (hgone.gone w hw)) hne
  | ok cleared =>
    have hgone : Gone s₀ s held start size cleared := hres
    cases cleared with
    | false =>
      exact ⟨_, s, rfl, hgone.wf, hgone.changes, hgone.view_or_none,
        fun _ => ⟨hgone.gone, fun _ => (hgone.quiet rfl).flushed⟩, fun h => absurd rfl h⟩
    | true =>
      have hquiet := broadcast_changes hgone.wf start size .size4K
      have hwf' := broadcast_wf hgone.wf start size .size4K
      exact ⟨_, _, rfl, hwf', hgone.changes.trans_right hquiet,
        (hgone.before hwf' hquiet).view_or_none,
        fun _ => ⟨(hgone.before hwf' hquiet).gone, fun hin =>
        hgone.changes.flush hgone.wf hin hstart hsize⟩, fun h => absurd rfl h⟩

/-- A range in one half. -/
theorem unmapRange_ok (hin : InHalf s₀.feat.levels start size) (hwf : WF s₀ held) :
    ∃ r s, s₀.unmapRange start size = some (r, s) ∧ WF s held ∧
      Changes s₀ s (Seg s₀.feat.levels start size) (Seg s₀.feat.levels start size) ∧
      (r = .ok () → (∀ w ∈ Seg s₀.feat.levels start size, s.view w = none) ∧ Flushed s₀ s) ∧
      (r ≠ .ok () → ¬ Fits s₀ start size ∧ ((∀ w, s.view w = s₀.view w) → Changes s₀ s ∅ ∅)) := by
  obtain ⟨r, s, heq, hwf', hchanges, -, hok, hfail⟩ := unmapRange_spec hend hstart hsize hwf
  exact ⟨r, s, heq, hwf', hchanges, fun hr => ⟨(hok hr).1, (hok hr).2 hin⟩,
    fun hr => ⟨(hfail hr).1 hin, (hfail hr).2⟩⟩

end Range

omit [Callers] in
/-- A range that ends with the address space, or goes past its end, wraps around, and nothing is
done. -/
theorem unmapRange_wrap (s : PageMap) {start size : Nat} (hend : 2 ^ 64 ≤ start + size)
    (hstart64 : start < 2 ^ 64) (hsize64 : size < 2 ^ 64) (hstart : start % 4096 = 0)
    (hsize : size % 4096 = 0) : s.unmapRange start size = some (.ok (), s) := by
  have hadd : ¬ start < add64 start size := by
    rw [add64]
    omega
  simp [unmapRange, not_isAligned hstart, not_isAligned hsize, hadd, rounds, Loop.run, unmapRound]

end PageMap

end Erebus.Vmm
