import Erebus.Memory.Vmm.PageMap.Protect

/-!
# Runs of calls

The code asks no caller for canonical addresses or for ranges that stay in one half. Whatever it is
called with, the tables stay a tree of entries it builds.

* `unmap_wf`, `map_wf`, `remap_wf` and their range forms: one lemma for each operation.
* `Call`, `exec`, `run`: a call with any 64-bit arguments, and a sequence of them.
* `run_wf`: the tree after any sequence of calls.
-/

namespace Erebus.Vmm

open PTEntry

namespace PageMap

variable [Callers]

/-! ## Single pages -/

section

variable {s : PageMap} {held : List Nat} {v l f : Nat} {e : PTEntry}

omit [Callers] in
theorem directory_of_not_huge (hl : l ≠ 1) (hpresent : ¬ (!e.present) = true)
    (hhuge : ¬ e.huge = true) : IsDirectory l e := by
  refine ⟨by simpa using hpresent, ?_⟩
  rintro (h | ⟨-, h⟩)
  · exact hl h
  · exact hhuge h

variable (hwf : WF s held)
include hwf

/-- A slot is cleared, whatever it held. -/
theorem clear_wf (hr : Reaches s v l f) : WF (s.store (slotOf v l f) 0) held :=
  overwrite_wf hwf hr (not_isDirectory_zero l) (zero_entryOk _ _ _)

variable (hr : Reaches s v (l + 1) f) (hdir : s.DirAt v (l + 1) f)
include hr hdir

/-- The table of a cleared directory is no longer one. -/
theorem cleared_spare (w m : Nat) :
    ¬ Reaches (s.store (slotOf v (l + 1) f) 0) w m (nextTable (s.load (slotOf v (l + 1) f))) := by
  intro h
  have hbefore := overwrite_reaches hwf hr (not_isDirectory_zero (l + 1)) h
  obtain ⟨rfl, hpage⟩ := hwf.tree hbefore (.step hr hdir)
  -- the way there would go through the cleared slot
  have hw : Reaches s w (m + 1) f := hr.congr (page_eq_of_le (Nat.le_succ _) hpage.symm)
  have hslot := slotOf_congr (Nat.le_add_left 1 m) hr.le hpage f
  have habove := overwrite_keeps (e := 0) hwf hr hw fun _ => le_rfl
  have hstill := habove.directory h (Nat.lt_succ_self m)
  rw [DirAt, hslot, store_load, if_pos rfl] at hstill
  exact not_isDirectory_zero _ hstill

/-- Clearing a directory and giving its table back. -/
theorem release_wf :
    WF (s.store (slotOf v (l + 1) f) 0) (nextTable (s.load (slotOf v (l + 1) f)) :: held) := by
  have hcleared := clear_wf hwf hr
  have hreach := Reaches.step hr hdir
  have hnew : nextTable (s.load (slotOf v (l + 1) f)) ∉ s.free ++ held :=
    fun hmem => hwf.spare _ hmem v l hreach
  have hperm : (s.free ++ nextTable (s.load (slotOf v (l + 1) f)) :: held).Perm
      (nextTable (s.load (slotOf v (l + 1) f)) :: (s.free ++ held)) := List.perm_middle
  refine ⟨hcleared.levels, hcleared.tree, hcleared.entries, ?_, ?_, ?_⟩
  · show (s.free ++ _ :: held).Nodup
    rw [hperm.nodup_iff]
    exact List.nodup_cons.2 ⟨hnew, hwf.nodup⟩
  · intro g hg w m
    rcases List.mem_cons.1 (hperm.mem_iff.1 hg) with rfl | hg
    · exact cleared_spare hwf hr hdir w m
    · exact hcleared.spare g hg w m
  · intro g hg
    rcases List.mem_cons.1 (hperm.mem_iff.1 hg) with rfl | hg
    · exact BitField.get_lt _ _ _
    · exact hwf.frames g hg

omit hr hdir

theorem unmap1gbAs2mb_wf (v : Nat) : WF (s.unmap1gbAs2mb v).2 held := by
  unfold unmap1gbAs2mb
  split
  · exact hwf
  obtain ⟨r, s₁, hwalk, hwalked, hreach⟩ := walk_ok hwf v false .size1G
  rw [hwalk]
  cases r with
  | error e => exact hwalked.wf
  | ok pdpte =>
    obtain ⟨f, hr, rfl⟩ := hreach pdpte rfl
    simp only
    split
    · exact hwalked.wf
    split
    · exact hwalked.wf
    rename_i hpresent hhuge
    have hdir := directory_of_not_huge (l := 2 + 1) (by decide) hpresent hhuge
    exact freePages_wf (broadcast_wf (release_wf hwalked.wf hr hdir) _ _ _)

theorem unmap_wf (v : Nat) (size : PageSize) : WF (s.unmap v size).2 held := by
  unfold unmap
  split
  · exact hwf
  split
  · exact unmap1gbAs2mb_wf hwf v
  obtain ⟨r, s₁, hwalk, hwalked, hreach⟩ := walk_ok hwf v false size
  rw [hwalk]
  cases r with
  | error e => exact hwalked.wf
  | ok pte =>
    obtain ⟨f, hr, rfl⟩ := hreach pte rfl
    simp only
    split
    · exact hwalked.wf
    have hcleared := broadcast_wf (clear_wf hwalked.wf hr) v (sizeToBytes size) size
    split <;> exact hcleared

omit hwf

/-- Storing twice is storing once. -/
theorem store_store_wf {d : PTEntry} {p : Loc} (h : WF ((s.store p e).store p d) held) :
    WF (s.store p d) held := by
  refine h.of_eq rfl rfl ?_ (.refl _)
  obtain ⟨f, i⟩ := p
  simp [store, setMem]

/-- Where callers may use any address, a leaf that is built for one may stand for any. -/
theorem leaf_anywhere (hany : ¬ Callers.canonical) {L : Nat} {b : Bool} (w : Nat) :
    Callers.canonical → upperOf L w = b :=
  fun h => absurd h hany

variable (hany : ¬ Callers.canonical)

include hany

theorem remap1gbAs2mb_wf (hwf : WF s held) (v phys : Nat) (flags : AccessFlags) (cache : CacheMode)
    (pkey : Nat) : WF (s.remap1gbAs2mb v phys flags cache pkey).2 held := by
  unfold remap1gbAs2mb
  split
  · exact hwf
  rename_i haligned
  rw [aligned_iff] at haligned
  obtain ⟨r, s₁, hwalk, hwalked, hreach⟩ := walk_ok hwf v false .size1G
  rw [hwalk]
  cases r with
  | error e => exact hwalked.wf
  | ok pdpte =>
    obtain ⟨f, hr, rfl⟩ := hreach pdpte rfl
    obtain ⟨r, s₂, halloc, hwf₂, hquiet₂, hzero⟩ := allocPagesZeroed_ok hwalked.wf
    simp only [halloc]
    cases r with
    | none => exact hwf₂
    | some g =>
      simp only
      generalize hslots : (fun i => buildSchema s₂.feat (add64 phys (i * sizeToBytes .size2M))
        (leafFlags v flags) cache .size2M pkey) = slots
      have hwf₃ : WF (s₂.fillTable g slots) (g :: held) := fillTable_wf hwf₂
      have hr₃ : Reaches (s₂.fillTable g slots) v _ f :=
        (fillTable_changes hwf₂).tables (hquiet₂.tables hr)
      split
      · exact freePages_wf hwf₃
      split
      · exact freePages_wf hwf₃
      rename_i hpresent hhuge
      have hdir := directory_of_not_huge (l := 2 + 1) (by decide) hpresent hhuge
      have hne : f ≠ g := by
        rintro rfl
        exact hwf₃.spare_head v _ hr₃
      -- the old directory goes first, then the new one is linked in the hole
      have hreleased : WF _ (g :: _) := (release_wf hwf₃ hr₃ hdir).of_eq rfl rfl rfl
        (List.Perm.append_left _ (List.Perm.swap _ _ _))
      have hmapped :=
        Mapped.directory (MapRequest.mk v flags cache pkey) phys hreleased size1G_level
        (overwrite_keeps hwf₃ hr₃ hr₃ fun _ => le_rfl)
        (by rw [store_load]; exact congrArg present (if_pos rfl)) (hzero g rfl).1
        (fun i => by
          rw [store_load, if_neg (by simp [slotOf, hne.symm]), fillTable_load, if_pos rfl, ← hslots]
          rfl)
        (leaf_anywhere hany v) (!isUpperHalf v) haligned.1 haligned.2
      exact freePages_wf (broadcast_wf (store_store_wf hmapped.wf) _ _ _)

theorem remap_wf (hwf : WF s held) (v phys : Nat) (flags : AccessFlags)
    (cache : CacheMode) (pkey : Nat)
    (size : PageSize) : WF (s.remap v phys flags cache pkey size).2 held := by
  unfold remap
  split
  · exact hwf
  split
  · exact hwf
  split
  · exact remap1gbAs2mb_wf hany hwf v phys flags cache pkey
  rename_i hgib
  obtain ⟨r, s₁, hwalk, hwalked, hreach⟩ := walk_ok hwf v false size
  rw [hwalk]
  cases r with
  | error e => exact hwalked.wf
  | ok pte =>
    obtain ⟨f, hr, rfl⟩ := hreach pte rfl
    simp only
    split
    · exact hwalked.wf
    have hok : EntryOk s₁.feat (upperOf s₁.feat.levels v) size.level
        ((MapRequest.mk v flags cache pkey).leaf s₁.feat phys size) := by
      apply leaf_entryOk (leaf_anywhere hany v)
      rintro rfl
      rw [hwalked.changes.feat]
      simpa using hgib
    exact broadcast_wf
      (overwrite_wf hwalked.wf hr (buildSchema_not_directory _ _ _ _ _ _) hok) _ _ _

theorem map_any (hwf : WF s held) {v phys : Nat} {size : PageSize} (hlt : v < 2 ^ 64)
    (hv : v % sizeToBytes size = 0) (hphys : phys % sizeToBytes size = 0) (flags : AccessFlags)
    (cache : CacheMode) (pkey : Nat) (huser : userInKernelHalf v flags = false) :
    MapOutcome ⟨v, flags, cache, pkey⟩ s held v phys (sizeToBytes size)
      (s.feat.huge1g = true ∨ size ≠ .size1G) (s.map v phys flags cache pkey size).1
      (s.map v phys flags cache pkey size).2 := by
  obtain ⟨r, s', heq, houtcome⟩ :=
    @map_ok _ ⟨v, flags, cache, pkey⟩ s held v phys size hwf hv hlt hphys
    (fun h => absurd h hany) rfl huser
  simp only at heq
  rw [heq]
  exact houtcome

theorem map_wf (hwf : WF s held) {v : Nat} (hv : v < 2 ^ 64) (phys : Nat) (flags : AccessFlags)
    (cache : CacheMode) (pkey : Nat) (size : PageSize) :
    WF (s.map v phys flags cache pkey size).2 held := by
  cases huser : userInKernelHalf v flags with
  | true => simpa [map, huser] using hwf
  | false =>
    by_cases haligned : v % sizeToBytes size = 0 ∧ phys % sizeToBytes size = 0
    · obtain ⟨hok, hfail⟩ := map_any hany hwf hv haligned.1 haligned.2 flags cache pkey huser
      by_cases hr : (s.map v phys flags cache pkey size).1 = .ok ()
      · exact (hok hr).wf
      · exact (hfail hr).1
    · have hnot :
          (!isAligned v (sizeToBytes size) || !isAligned phys (sizeToBytes size)) = true := by
        simp only [isAligned, Bool.or_eq_true, Bool.not_eq_true', decide_eq_false_iff_not]
        tauto
      simpa [map, huser, hnot] using hwf

end

/-! ## Ranges -/

section

variable {s s' : PageMap} {held : List Nat} {start size : Nat} {r : Except Error Unit}

omit [Callers] in
theorem isAligned_page (n : Nat) : isAligned n pageSize = decide (n % 4096 = 0) := rfl

omit [Callers] in
theorem pages_iff {k m n : Nat} :
    ¬ (!isAligned k pageSize || !isAligned m pageSize || !isAligned n pageSize) = true ↔
    (k % 4096 = 0 ∧ m % 4096 = 0) ∧ n % 4096 = 0 := by
  simp [isAligned_page]

theorem unmapRange_wf (hwf : WF s held) (hstart64 : start < 2 ^ 64) (hsize64 : size < 2 ^ 64)
    (h : s.unmapRange start size = some (r, s')) : WF s' held := by
  by_cases haligned : start % 4096 = 0 ∧ size % 4096 = 0
  · by_cases hend : start + size < 2 ^ 64
    · obtain ⟨r', s'', heq, hwf', -⟩ := unmapRange_spec hend haligned.1 haligned.2 hwf
      rw [h] at heq
      cases heq
      exact hwf'
    · rw [unmapRange_wrap s (by omega) hstart64 hsize64 haligned.1 haligned.2] at h
      cases h
      exact hwf
  · have hnot : (!isAligned start pageSize || !isAligned size pageSize) = true := by
      simp only [isAligned_page, Bool.or_eq_true, Bool.not_eq_true', decide_eq_false_iff_not]
      tauto
    rw [unmapRange, if_pos hnot] at h
    cases h
    exact hwf

omit [Callers] in
theorem add64_lt (a b : Nat) : add64 a b < 2 ^ 64 := Nat.mod_lt _ (by decide)

omit [Callers] in
theorem add64_aligned {a b : Nat} (ha : a % 4096 = 0) (hb : b % 4096 = 0) :
    add64 a b % 4096 = 0 := by
  rw [add64]
  omega

variable (hany : ¬ Callers.canonical)

/-- What `map_range` keeps in every round, whatever it is called with. -/
structure MapAny (held : List Nat) (size : Nat) (st : PageMap × Nat × Nat × Nat) : Prop where
  wf : WF st.1 held
  lt : st.2.1 < 2 ^ 64
  virt : st.2.1 % 4096 = 0
  phys : st.2.2.1 % 4096 = 0
  left : st.2.2.2 % 4096 = 0
  le : st.2.2.2 ≤ size

include hany

theorem mapRound_any (req : MapRequest) {st : PageMap × Nat × Nat × Nat} (h : MapAny held size st) :
    Sum.elim (MapAny held size)
      (fun x => WF x.2 held ∧ ∀ e left, x.1 = .error (e, left) → left ≤ size)
      (mapRound req st) := by
  obtain ⟨s, virt, phys, left⟩ := st
  obtain ⟨hwf, hlt, hvirt, hphys, hleft, hle⟩ := h
  simp only at hwf hlt hvirt hphys hleft hle
  simp only [mapRound]
  split
  swap
  · exact ⟨hwf, (by simp)⟩
  rename_i hpos
  have hfail : ∀ {e : Error} {s' : PageMap} {n : Nat}, WF s' held → n ≤ size →
      WF s' held ∧ ∀ e' left, (.error (e, n) : Except (Error × Nat) Unit) = .error (e', left) →
      left ≤ size := by
    rintro e s' n hwf' hn
    refine ⟨hwf', fun e' left h => ?_⟩
    cases h
    exact hn
  split
  · rename_i hbest
    have hmap := map_wf hany hwf hlt phys req.flags req.cache req.pkey (bestSize virt phys left)
    split
    · rename_i heq
      rw [heq] at hmap
      exact hfail hmap hle
    · rename_i heq
      rw [heq] at hmap
      have hbytes : sizeToBytes (bestSize virt phys left) % 4096 = 0 :=
        Nat.mod_eq_zero_of_dvd (dvd_levelCoverage _)
      exact ⟨hmap, add64_lt _ _, add64_aligned hvirt hbytes, add64_aligned hphys hbytes,
        by show (left - _) % 4096 = 0; omega, by show left - _ ≤ size; omega⟩
  · obtain ⟨r, s₁, hwalk, hwalked, hreach⟩ := walk_ok hwf virt true .size4K
    rw [hwalk]
    cases r with
    | error e => exact hfail hwalked.wf hle
    | ok pte =>
      obtain ⟨f, hr, rfl⟩ := hreach pte rfl
      obtain ⟨n, hchunk, hnpos, hn, hnle, hbytes, hbatch⟩ :=
        chunk_pages hwalked.wf.levels_pos hvirt hleft hpos
      have hslots := mapSlots_ok req phys hwalked.wf hbatch hr hphys (leaf_anywhere hany virt)
      simp only [MapRequest.leaf] at hslots
      simp only [hchunk]
      split
      · rename_i heq
        rw [heq] at hslots
        exact hfail hslots.2.wf (by omega)
      · rename_i heq
        rw [heq] at hslots
        exact ⟨hslots.wf, add64_lt _ _, add64_aligned hvirt hn, add64_aligned hphys hn,
          by show (left - n) % 4096 = 0; omega, by show left - n ≤ size; omega⟩

theorem mapRange_wf (hwf : WF s held) (hstart64 : start < 2 ^ 64)
    (hsize64 : size < 2 ^ 64) {phys : Nat} {flags : AccessFlags} {cache : CacheMode} {pkey : Nat}
    (h : s.mapRange start phys size flags cache pkey = some (r, s')) : WF s' held := by
  unfold mapRange at h
  split at h
  · cases h
    exact hwf
  split at h
  · cases h
    exact hwf
  rename_i haligned
  rw [pages_iff] at haligned
  have hinit : MapAny held size (s, start, phys, size) :=
    ⟨hwf, hstart64, haligned.1.1, haligned.1.2, haligned.2, le_rfl⟩
  have hround := fun st (h : MapAny held size st) => mapRound_any hany ⟨start, flags, cache, pkey⟩ h
  cases hrun :
    Loop.run (mapRound ⟨start, flags, cache, pkey⟩) (rounds size) (s, start, phys, size) with
  | none =>
    rw [hrun] at h
    cases h
  | some x =>
    obtain ⟨r', s₁⟩ := x
    obtain ⟨hwf₁, hleft⟩ := Loop.run_of_some _ _ hround hinit hrun
    rw [hrun] at h
    cases r' with
    | ok _ =>
      cases h
      exact hwf₁
    | error x =>
      obtain ⟨e, left⟩ := x
      simp only at h
      split at h
      · cases h
      · rename_i heq
        cases h
        exact unmapRange_wf hwf₁ hstart64 (by omega) heq

end

/-! ## Logs -/

/-- The entries of the node are leaves or holes that fit its slots. -/
structure NodeFit (feat : PagingFeatures) (node : UndoLogNode) : Prop where
  batch : Batch feat.levels node.baseVirt node.pageSize.level node.originalPtes.length
  leaf : ∀ i < node.originalPtes.length, ¬ IsDirectory node.pageSize.level (node.entry i)
  ok : ∀ i < node.originalPtes.length,
    EntryOk feat (upperOf feat.levels node.baseVirt) node.pageSize.level (node.entry i)

section Logs

variable {s s' : PageMap} {held : List Nat} {f n : Nat} {node : UndoLogNode} {e : PTEntry}

theorem NodeFit.nil (feat : PagingFeatures) (page v : Nat) {size : PageSize}
    (hle : size.level ≤ feat.levels)
    (hv : v % sizeToBytes size = 0) : NodeFit feat ⟨page, v, size, []⟩ := by
  refine ⟨⟨PageSize.level_pos size, hle, hv, ?_⟩, ?_, ?_⟩
  · rw [List.length_nil, Nat.zero_mul, Nat.add_zero]
    exact (Nat.mod_lt _ (levelCoverage_pos _)).le
  all_goals exact fun i hi => absurd hi (Nat.not_lt_zero i)

/-- The next slot of a batch is logged. -/
theorem NodeFit.push (h : NodeFit s.feat node) (hwf : WF s held)
    (hbatch : Batch s.feat.levels node.baseVirt node.level n) (hlt : node.slots < n)
    (hr : Reaches s node.baseVirt node.level f)
    (hleaf : ¬ IsDirectory node.level
      (s.load ((slotOf node.baseVirt node.level f).at node.slots))) :
    NodeFit s.feat (node.push (s.load ((slotOf node.baseVirt node.level f).at node.slots))) := by
  have hentry := hwf.entries (hbatch.reaches hlt hr)
  rw [batch_upperOf hbatch hlt (level_succ_le hwf _), ← hbatch.slot_at hlt] at hentry
  refine ⟨?_, UndoLogNode.push_forall (P := fun _ e => ¬ IsDirectory _ e) h.leaf hleaf,
    UndoLogNode.push_forall (P := fun _ e => EntryOk _ _ _ e) h.ok hentry⟩
  rw [UndoLogNode.push_length]
  refine ⟨hbatch.pos, hbatch.le, hbatch.aligned, le_trans ?_ hbatch.fits⟩
  exact Nat.add_le_add_left (Nat.mul_le_mul_right _ hlt) _

/-- A slot of a batch is overwritten. -/
theorem batch_overwrite {v l i : Nat} (hwf : WF s held)
    (hbatch : Batch s.feat.levels v l n) (hi : i < n)
    (hl : l + 1 ≤ s.feat.levels) (hr : Reaches s v l f) (hnew : ¬ IsDirectory l e)
    (hok : EntryOk s.feat (upperOf s.feat.levels v) l e) :
    WF (s.store ((slotOf v l f).at i) e) held ∧
    Reaches (s.store ((slotOf v l f).at i) e) v l f := by
  have hri := hbatch.reaches hi hr
  rw [hbatch.slot_at hi]
  refine ⟨overwrite_wf hwf hri hnew ?_, overwrite_keeps hwf hri hr fun _ => le_rfl⟩
  rwa [batch_upperOf hbatch hi hl]

theorem restoreNode_wf (hwf : WF s held) (h : NodeFit s.feat node) :
    WF (s.restoreNode node) held ∧ (s.restoreNode node).feat = s.feat := by
  unfold restoreNode
  split
  · exact ⟨hwf, rfl⟩
  obtain ⟨r, s₁, hwalk, hwalked, hreach⟩ := walk_ok hwf node.baseVirt false node.pageSize
  have hfeat := hwalked.changes.feat
  rw [hwalk]
  cases r with
  | error e => exact ⟨hwalked.wf, hfeat⟩
  | ok pte =>
    obtain ⟨f, hr, rfl⟩ := hreach pte rfl
    have hstep : ∀ i (s' : PageMap), i < node.slots →
        (WF s' held ∧ Reaches s' node.baseVirt node.level f ∧ s'.feat = s.feat) →
        let s'' := s'.store ((slotOf node.baseVirt node.level f).at i) (node.originalPtes.getD i 0)
        WF s'' held ∧ Reaches s'' node.baseVirt node.level f ∧ s''.feat = s.feat := by
      rintro i s' hi ⟨hwf', hr', hfeat'⟩
      have h' := h
      rw [← hfeat'] at h'
      obtain ⟨hwf'', hr''⟩ :=
        batch_overwrite hwf' h'.batch hi (level_succ_le hwf' _) hr' (h'.leaf i hi) (h'.ok i hi)
      exact ⟨hwf'', hr'', hfeat'⟩
    obtain ⟨hwf', -, hfeat'⟩ := Loop.times_ok (fun _ s' => WF s' held ∧
      Reaches s' node.baseVirt node.level f ∧ s'.feat = s.feat) hstep ⟨hwalked.wf, hr, hfeat⟩
    exact ⟨hwf', hfeat'⟩

/-- A log is put back and given back. -/
theorem rollback_wf (guard : RollbackGuard) (hwf : WF s (guard.log.map UndoLogNode.page ++ held))
    (h : ∀ node ∈ guard.log, NodeFit s.feat node) : WF (s.rollback guard) held := by
  have hrestored : ∀ (log : List UndoLogNode) (s : PageMap) {held : List Nat}, WF s held →
      (∀ node ∈ log, NodeFit s.feat node) → WF (log.foldl restoreNode s) held := by
    intro log
    induction log with
    | nil => exact fun s _ hwf _ => hwf
    | cons node log ih =>
      intro s held hwf h
      obtain ⟨hwf', hfeat⟩ := restoreNode_wf hwf (h node List.mem_cons_self)
      apply ih _ hwf'
      rw [hfeat]
      exact fun other hother => h other (List.mem_cons_of_mem _ hother)
  have hback := hrestored guard.log s hwf h
  unfold rollback freeLog
  refine (freeLog_ok ?_).1
  split
  · exact hwf
  · simp only
    split
    · exact broadcast_wf hback _ _ _
    · exact hback

end Logs

/-! ## Updates of a range -/

/-- A map and a log that fits it. -/
structure LogAny (held : List Nat) (feat : PagingFeatures) (s : PageMap)
    (log : List UndoLogNode) : Prop where
  wf : WF s (log.map UndoLogNode.page ++ held)
  features : s.feat = feat
  nodes : ∀ node ∈ log, NodeFit feat node

section Updates

variable {s s' : PageMap} {held : List Nat} {feat : PagingFeatures}
  {log : List UndoLogNode} {v f n : Nat}
variable {guard : RollbackGuard} {r : Except Error Unit} {flags : AccessFlags}

theorem LogAny.walked {s' : PageMap} {t : Nat} (h : LogAny held feat s log)
    (hw : Walked s s' (log.map UndoLogNode.page ++ held) v t) : LogAny held feat s' log :=
  ⟨hw.wf, hw.changes.feat.trans h.features, h.nodes⟩

/-- `RollbackGuard::begin`. -/
theorem LogAny.begin (h : LogAny held feat s log) {size : PageSize} (hr : Reaches s v size.level f)
    (hv : v % sizeToBytes size = 0) :
    ∃ r s', s.allocPages = (r, s') ∧ Reaches s' v size.level f ∧ LogAny held feat s' (r.elim log
      fun page => ⟨page, v, size, []⟩ :: log) := by
  obtain ⟨r, s', halloc, hwf', hchanges, -⟩ := allocPages_ok h.wf
  have hfeat := hchanges.feat.trans h.features
  refine ⟨r, s', halloc, hchanges.tables hr, ?_⟩
  cases r with
  | none => exact ⟨hwf', hfeat, h.nodes⟩
  | some page =>
    refine ⟨hwf', hfeat, fun node hnode => ?_⟩
    rcases List.mem_cons.1 hnode with rfl | hnode
    · apply NodeFit.nil _ _ _ _ hv
      rw [← h.features]
      exact hr.le
    · exact h.nodes node hnode

/-- A slot of a batch holds an entry that fits the batch. -/
theorem batch_entryOk {l i : Nat} (hwf : WF s held)
    (hbatch : Batch s.feat.levels v l n) (hi : i < n)
    (hl : l + 1 ≤ s.feat.levels) (hr : Reaches s v l f) :
    EntryOk s.feat (upperOf s.feat.levels v) l (s.load ((slotOf v l f).at i)) := by
  rw [hbatch.slot_at hi, ← batch_upperOf hbatch hi hl]
  exact hwf.entries (hbatch.reaches hi hr)

/-- A slot of the newest node is logged and perhaps overwritten. -/
theorem LogAny.push {page : Nat} {lvl : PageSize} {ptes : List PTEntry}
    (h : LogAny held feat s (⟨page, v, lvl, ptes⟩ :: log))
    (hbatch : Batch feat.levels v lvl.level n)
    (hlt : ptes.length < n) (hr : Reaches s v lvl.level f)
    (hleaf : ¬ IsDirectory lvl.level (s.load ((slotOf v lvl.level f).at ptes.length)))
    (hs' : s' = s ∨ ∃ e, ¬ IsDirectory lvl.level e ∧
      EntryOk feat (upperOf feat.levels v) lvl.level e ∧
      s' = s.store ((slotOf v lvl.level f).at ptes.length) e) :
    LogAny held feat s'
      (⟨page, v, lvl, ptes ++ [s.load ((slotOf v lvl.level f).at ptes.length)]⟩ :: log) ∧
      Reaches s' v lvl.level f := by
  obtain ⟨hwf, rfl, hnodes⟩ := h
  obtain ⟨hnode, hlog⟩ := List.forall_mem_cons.1 hnodes
  have hrest := List.forall_mem_cons.2 ⟨hnode.push hwf hbatch hlt hr hleaf, hlog⟩
  rcases hs' with rfl | ⟨e, hnew, hok, rfl⟩
  · exact ⟨⟨hwf, rfl, hrest⟩, hr⟩
  · obtain ⟨hwf', hr'⟩ := batch_overwrite hwf hbatch hlt (level_succ_le hwf _) hr hnew hok
    exact ⟨⟨hwf', rfl, hrest⟩, hr'⟩

theorem LogAny.rollback (h : LogAny held feat s guard.log) : WF (s.rollback guard) held :=
  rollback_wf guard h.wf fun node hnode => h.features ▸ h.nodes node hnode

theorem LogAny.freeLog (h : LogAny held feat s guard.log) (start size : Nat) :
    WF ((s.broadcast start size .size4K).freeLog guard) held :=
  (freeLog_ok (broadcast_wf h.wf start size .size4K)).1

/-- What `remap_range` keeps in every round, whatever it is called with. -/
structure RemapAny (held : List Nat) (feat : PagingFeatures) (st : RemapState) : Prop
    extends LogAny held feat st.map st.guard.log where
  virt : st.currVirt % 4096 = 0
  phys : st.currPhys % 4096 = 0
  left : st.remaining % 4096 = 0

variable (hany : ¬ Callers.canonical)

include hany

/-- The slots of one round. -/
theorem remapSlots_any {page : Nat} {target : PageSize} (req : MapRequest) (phys : Nat)
    (h : LogAny held feat s (⟨page, v, target, []⟩ :: log))
    (hbatch : Batch feat.levels v target.level n)
    (hr : Reaches s v target.level f) (hgib : target = .size1G → feat.huge1g = true) :
    Sum.elim (fun x => LogAny held feat x.1 (⟨page, v, target, x.2⟩ :: log))
      (fun x => LogAny held feat x.2.1 (⟨page, v, target, x.2.2⟩ :: log))
      (Loop.upTo (remapSlot (slotOf v target.level f) target
        fun i => req.leaf feat (add64 phys (i * sizeToBytes target)) target) n (s, [])) := by
  refine Loop.elim_mono (fun x h => h.1) (fun x h => h) (Loop.upTo_ok
    (fun i (x : PageMap × List PTEntry) => LogAny held feat x.1 (⟨page, v, target, x.2⟩ :: log) ∧
      Reaches x.1 v target.level f ∧ x.2.length = i) _ ?_ ⟨h, hr, rfl⟩)
  rintro i ⟨s, logged⟩ hi ⟨h, hr, hlen⟩
  simp only at h hr hlen
  subst hlen
  simp only [remapSlot]
  split
  · exact h
  split
  · exact h
  rename_i hpresent htable
  rw [← isDirectory_ne (by simpa using hpresent)] at htable
  obtain ⟨hnext, hr'⟩ := h.push hbatch hi hr htable
    (.inr ⟨_, buildSchema_not_directory _ _ _ _ _ _,
      leaf_entryOk (leaf_anywhere hany v) hgib _, rfl⟩)
  exact ⟨hnext, hr', by simp⟩

theorem remapRound_any (req : MapRequest) {st : RemapState} (h : RemapAny held feat st) :
    Sum.elim (RemapAny held feat) (fun x => LogAny held feat x.2.1 x.2.2.log)
      (remapRound (leafFlags req.startVirt req.flags) req.cache req.pkey st) := by
  obtain ⟨s, guard, virt, phys, left⟩ := st
  obtain ⟨hlog, hvirt, hphys, hleft⟩ := h
  simp only at hlog hvirt hphys hleft
  simp only [remapRound]
  split
  swap
  · exact hlog
  rename_i hpos
  cases htranslate : s.translate virt with
  | none => exact hlog
  | some found =>
    obtain ⟨hpresent, hmapped⟩ := translate_some hlog.wf.levels_pos htranslate
    obtain ⟨hlevel, hbytes, hvirt', hphys'⟩ :=
      remapSize_ok found.mappedSize hvirt hphys (show 4096 ≤ left by omega)
    simp only
    generalize remapSize found.mappedSize virt phys left = target at hlevel hbytes hvirt' hphys' ⊢
    have hgib : target = .size1G → feat.huge1g = true := by
      rintro rfl
      rw [← hlog.features]
      apply gib_of_level hlog.wf hpresent
      have h3 := probe_level_le_three hlog.wf.levels_pos hpresent
      rw [← hmapped] at h3 ⊢
      exact le_antisymm h3 hlevel
    obtain ⟨r, s₁, hwalk, hwalked, hreach⟩ := walk_ok hlog.wf virt false target
    have hlog₁ := hlog.walked hwalked
    rw [hwalk]
    cases r with
    | error e => exact hlog₁
    | ok pte =>
      obtain ⟨f, hr, rfl⟩ := hreach pte rfl
      obtain ⟨r, s₂, halloc, hr₂, hlog₂⟩ := hlog₁.begin hr hvirt'
      simp only [halloc]
      cases r with
      | none => exact hlog₂
      | some page =>
        have hbatch : Batch feat.levels virt target.level (min (min left
            (levelCoverage (target.level + 1) - virt % levelCoverage (target.level + 1)))
            (maxLogPtes * sizeToBytes target) / sizeToBytes target) :=
          (batchPages_ok (PageSize.level_pos target) (hlog₂.features ▸ hr₂.le) hvirt' hbytes).2.2
        have hslots := remapSlots_any hany req phys hlog₂ hbatch hr₂ hgib
        have hround : ∀ {s₃ : PageMap} {logged : List PTEntry},
            LogAny held feat s₃ (⟨page, virt, target, logged⟩ :: guard.log) →
            RemapAny held feat ⟨s₃, { guard with
              log := ⟨page, virt, target, logged⟩ :: guard.log
              attemptedBytes := guard.attemptedBytes + logged.length * sizeToBytes target },
              add64 virt (logged.length * sizeToBytes target),
              add64 phys (logged.length * sizeToBytes target),
              left - logged.length * sizeToBytes target⟩ := by
          intro s₃ logged hlog₃
          have hdone : logged.length * sizeToBytes target % 4096 = 0 :=
            Nat.mod_eq_zero_of_dvd ((dvd_levelCoverage _).mul_left _)
          exact ⟨hlog₃, add64_aligned hvirt hdone,
            add64_aligned hphys hdone, by show (left - _) % 4096 = 0; omega⟩
        simp only [MapRequest.leaf, hlog₂.features] at hslots ⊢
        split
        · rename_i heq
          rw [heq] at hslots
          exact hslots
        · rename_i heq
          rw [heq] at hslots
          exact hround hslots
        · rename_i heq
          rw [heq] at hslots
          exact hround hslots

theorem remapRange_wf {start phys size : Nat} {cache : CacheMode} {pkey : Nat} (hwf : WF s held)
    (h : s.remapRange start phys size flags cache pkey = some (r, s')) : WF s' held := by
  unfold remapRange at h
  split at h
  · cases h
    exact hwf
  split at h
  · cases h
    exact hwf
  rename_i haligned
  rw [pages_iff] at haligned
  have hinit : RemapAny held s.feat ⟨s, ⟨start, [], 0⟩, start, phys, size⟩ :=
    ⟨⟨hwf, rfl, fun _ hnode => absurd hnode List.not_mem_nil⟩, haligned.1.1,
      haligned.1.2, haligned.2⟩
  have hround := fun st (h : RemapAny held s.feat st) =>
      remapRound_any hany ⟨start, flags, cache, pkey⟩ h
  cases hrun : s.remapLoop start phys size flags cache pkey with
  | none =>
    rw [hrun] at h
    cases h
  | some x =>
    obtain ⟨r', s₁, guard⟩ := x
    have hend := Loop.run_of_some _ _ hround hinit hrun
    rw [hrun] at h
    cases r' with
    | error e =>
      cases h
      exact hend.rollback
    | ok u =>
      cases h
      exact hend.freeLog start size

omit hany

/-- The slots of one round of `protect_virtual_range`. -/
theorem protectSlots_any {page : Nat} {lvl : PageSize} {prot : Protection}
    (h : LogAny held feat s (⟨page, v, lvl, []⟩ :: log)) (hnx : prot.noExec = true → feat.nx = true)
    (hbatch : Batch feat.levels v lvl.level n) (hr : Reaches s v lvl.level f) :
    let P := fun x : PageMap × List PTEntry => LogAny held feat x.1 (⟨page, v, lvl, x.2⟩ :: log)
    Sum.elim P P (Loop.upTo (protectSlot prot (slotOf v lvl.level f) lvl.level) n (s, [])) := by
  intro P
  refine Loop.elim_mono (fun x h => h.1) (fun x h => h) (Loop.upTo_ok
    (fun i (x : PageMap × List PTEntry) => LogAny held feat x.1 (⟨page, v, lvl, x.2⟩ :: log) ∧
      Reaches x.1 v lvl.level f ∧ x.2.length = i) _ ?_ ⟨h, hr, rfl⟩)
  rintro i ⟨s, logged⟩ hi ⟨h, hr, hlen⟩
  simp only at h hr hlen
  subst hlen
  simp only [protectSlot]
  split
  · exact h
  rename_i hleaf
  rw [← isDirectory_iff] at hleaf
  have hok : EntryOk feat (upperOf feat.levels v) lvl.level
      (s.load ((slotOf v lvl.level f).at logged.length)) := by
    obtain ⟨hwf, rfl, -⟩ := h
    exact batch_entryOk hwf hbatch hi (level_succ_le hwf _) hr
  refine and_assoc.1 ⟨h.push hbatch hi hr hleaf ?_, by simp⟩
  dsimp only
  split
  · exact .inr ⟨_, fun h => hleaf ((protectedEntry_directory _ _ _).1 h),
      protectedEntry_ok hnx hok, rfl⟩
  · exact .inl rfl

/-- What `protect_virtual_range` keeps in every round. -/
def ProtectAny (held : List Nat) (feat : PagingFeatures)
    (st : PageMap × RollbackGuard × Nat) : Prop :=
  LogAny held feat st.1 st.2.1.log ∧ st.2.2 % 4096 = 0

theorem protectRound_any (prot : Protection) {endVirt : Nat}
    (hnx : prot.noExec = true → feat.nx = true)
    (hend : endVirt % 4096 = 0) {st : PageMap × RollbackGuard × Nat} (h : ProtectAny held feat st) :
    Sum.elim (ProtectAny held feat) (fun x => LogAny held feat x.2.1 x.2.2.log)
      (protectRound prot endVirt st) := by
  obtain ⟨s, guard, curr⟩ := st
  obtain ⟨hlog, hcurr⟩ := h
  simp only at hlog hcurr
  simp only [protectRound]
  split
  swap
  · exact hlog
  have hL := hlog.wf.levels_pos
  obtain ⟨l, f, hl, hr, hleaf, hprobe⟩ := probe_reaches hL curr
  rw [hprobe]
  simp only
  split
  · refine ⟨hlog, add64_aligned hcurr ?_⟩
    have hcov := Nat.mod_eq_zero_of_dvd (dvd_levelCoverage l)
    have hrest : curr % levelCoverage l % 4096 = 0 := by
      rw [Nat.mod_mod_of_dvd _ (dvd_levelCoverage l), hcurr]
    omega
  rename_i hpresent
  split
  · obtain ⟨r, s₁, hwalk, hwalked, -⟩ := walk_ok hlog.wf curr false (PageSize.ofLevel (l - 1))
    rw [hwalk]
    cases r with
    | error e => exact hlog.walked hwalked
    | ok pte => exact ⟨hlog.walked hwalked, hcurr⟩
  rename_i hcross
  have hl3 : l ≤ 3 := by
    have hle := probe_level_le_three (v := curr) hL (by rw [hprobe]; simpa using hpresent)
    rwa [hprobe] at hle
  obtain ⟨lvl, hlvl, rfl, halign, hwhole⟩ := leaf_whole hl hl3 hcurr (by omega) hcross
  obtain ⟨r, s₁, halloc, hr₁, hlog₁⟩ := hlog.begin hr halign
  rw [halloc]
  cases r with
  | none => exact hlog₁
  | some page =>
    have hbatch : Batch feat.levels curr lvl.level (min (min (endVirt - curr)
        (levelCoverage (lvl.level + 1) - curr % levelCoverage (lvl.level + 1)))
        (maxLogPtes * levelCoverage lvl.level) / levelCoverage lvl.level) :=
      (batchPages_ok (PageSize.level_pos lvl) (hlog₁.features ▸ hr₁.le) halign hwhole).2.2
    have hslots := protectSlots_any hlog₁ hnx hbatch hr₁
    simp only [hlvl]
    have hround : ∀ {s₂ : PageMap} {logged : List PTEntry},
        LogAny held feat s₂ (⟨page, curr, lvl, logged⟩ :: guard.log) →
        ProtectAny held feat (s₂, { guard with
          log := ⟨page, curr, lvl, logged⟩ :: guard.log
          attemptedBytes :=
            add64 curr (logged.length * levelCoverage lvl.level) - guard.startVirt },
          add64 curr (logged.length * levelCoverage lvl.level)) := fun hlog₂ =>
      ⟨hlog₂, add64_aligned hcurr (Nat.mod_eq_zero_of_dvd ((dvd_levelCoverage _).mul_left _))⟩
    generalize Loop.upTo (protectSlot prot (slotOf curr lvl.level f) lvl.level) _ (s₁, []) =
      x at hslots ⊢
    rcases x with ⟨s₂, logged⟩ | ⟨s₂, logged⟩
    · exact hround hslots
    · exact hround hslots

theorem protectRange_wf {start size : Nat} (hwf : WF s held)
    (h : s.protectVirtualRange start size flags = some (r, s')) : WF s' held := by
  unfold protectVirtualRange at h
  split at h
  · cases h
    exact hwf
  split at h
  · cases h
    exact hwf
  rename_i haligned
  rw [aligned_iff] at haligned
  have hinit : ProtectAny held s.feat (s, ⟨start, [], 0⟩, start) :=
    ⟨⟨hwf, rfl, fun _ hnode => absurd hnode List.not_mem_nil⟩, haligned.1⟩
  have hnx : (s.feat.nx && !flags.has .execute) = true → s.feat.nx = true := by simp +contextual
  have hround := fun st (h : ProtectAny held s.feat st) => protectRound_any ⟨flags.has .write,
    s.feat.nx && !flags.has .execute, flags.has .user⟩ hnx (add64_aligned haligned.1 haligned.2) h
  simp only at h
  split at h
  · cases h
  · rename_i hrun
    cases h
    exact (Loop.run_of_some _ _ hround hinit hrun).rollback
  · rename_i hrun
    cases h
    exact (Loop.run_of_some _ _ hround hinit hrun).freeLog start size

end Updates

/-! ## Write protection and moves -/

section

variable {s s' : PageMap} {held : List Nat} {v l f : Nat}

omit [Callers] in
theorem setRw_directory {e : PTEntry} : IsDirectory l (setRw false e) ↔ IsDirectory l e := by
  have hpresent : (setRw false e).present = e.present := BitField.flag_setFlag_of_ne (by decide) ..
  have hhuge : (setRw false e).huge = e.huge := BitField.flag_setFlag_of_ne (by decide) ..
  rw [IsDirectory, IsDirectory, hpresent, hhuge]

theorem setRw_entryOk {feat : PagingFeatures} {upper : Bool} {e : PTEntry}
    (h : EntryOk feat upper l e) : EntryOk feat upper l (setRw false e) := by
  have hflag : ∀ i, i ≠ 1 → BitField.flag i (setRw false e) = BitField.flag i e := fun i hi =>
    BitField.flag_setFlag_of_ne hi ..
  have hpresent : (setRw false e).present = e.present := hflag 0 (by decide)
  refine ⟨?_, ?_, ?_⟩
  · rw [hpresent]
    exact fun hp hl => (hflag 7 (by decide)).trans (h.reserved hp hl)
  · rw [hpresent, setRw_directory]
    intro hp hleaf
    obtain ⟨hs, -, hn, hg⟩ := h.leaf hp hleaf
    exact ⟨(hflag 11 (by decide)).trans hs, fun _ => BitField.flag_setFlag (by decide),
      fun h => hn ((hflag 63 (by decide)).symm.trans h),
      fun hc => (hflag 8 (by decide)).trans (hg hc)⟩
  · rw [hpresent, setRw_directory]
    exact h.gib

/-- Write access to a leaf is taken away. -/
theorem clearRw_wf (changed : Bool) (hwf : WF s held) (hr : Reaches s v l f)
    (hleaf : ¬ s.DirAt v l f) : WF (clearRw (slotOf v l f) (s, changed)).1 held ∧
      (clearRw (slotOf v l f) (s, changed)).1.feat = s.feat ∧
      ∀ {w g}, Reaches s w l g → Reaches (clearRw (slotOf v l f) (s, changed)).1 w l g := by
  unfold clearRw
  simp only
  split
  · exact ⟨overwrite_wf hwf hr (fun h => hleaf (setRw_directory.1 h))
      (setRw_entryOk (hwf.entries hr)), rfl, fun hw => overwrite_keeps hwf hr hw fun _ => le_rfl⟩
  · exact ⟨hwf, rfl, id⟩

/-- The slots of one page table. -/
theorem clearRws_wf {n : Nat} {changed : Bool} (hwf : WF s held)
    (hbatch : Batch s.feat.levels v 1 n)
    (hr : Reaches s v 1 f) :
    WF (Loop.times (fun i => clearRw ((slotOf v 1 f).at i)) n (s, changed)).1 held := by
  refine (Loop.times_ok (fun _ (st : PageMap × Bool) => WF st.1 held ∧ st.1.feat = s.feat ∧
    Reaches st.1 v 1 f) ?_ ⟨hwf, rfl, hr⟩).1
  rintro i ⟨s₁, changed⟩ hi ⟨hwf₁, hfeat, hr₁⟩
  simp only at hwf₁ hfeat hr₁
  rw [← hfeat] at hbatch
  rw [hbatch.slot_at hi]
  obtain ⟨hwf₂, hfeat₂, hkeeps⟩ :=
    clearRw_wf changed hwf₁ (hbatch.reaches hi hr₁) fun hdir => hdir.2 (.inl rfl)
  exact ⟨hwf₂, hfeat₂.trans hfeat, hkeeps hr₁⟩

theorem writeProtectRound_wf {endVirt : Nat} {st : PageMap × Nat × Bool} (hwf : WF st.1 held) :
    Sum.elim (fun st' => WF st'.1 held) (fun x => WF x.1 held) (writeProtectRound endVirt st) := by
  obtain ⟨s, curr, changed⟩ := st
  simp only at hwf
  have hL := hwf.levels_pos
  obtain ⟨l, f, hl, hr, hleaf, hprobe⟩ := probe_reaches hL curr
  simp only [writeProtectRound, hprobe]
  split
  swap
  · exact hwf
  split
  · show WF _ held
    simp only
    split
    · exact (clearRw_wf _ hwf hr hleaf).1
    · exact hwf
  · rename_i hhole
    obtain rfl : l = 1 := by
      simp only [Bool.or_eq_true, decide_eq_true_eq, not_or] at hhole
      omega
    -- the range may start inside a page: its first slot is that of the page
    have hpage : s.SamePage 1 (curr - curr % 4096) curr := by
      apply page_of_seg (n := 4096) (Nat.le_add_left 1 _)
      · rw [levelCoverage_one]
        omega
      · have hmem :=
          add_mem_seg s.feat.levels (curr - curr % 4096) (Nat.mod_lt curr (show 0 < 4096 by decide))
        rwa [Nat.sub_add_cancel (Nat.mod_le _ _)] at hmem
    have hslot := slotOf_congr le_rfl hL hpage f
    rw [hslot]
    refine clearRws_wf hwf ⟨le_rfl, hL, ?_, ?_⟩ (hr.congr (page_eq_of_le (by decide) hpage))
    · rw [levelCoverage_one]
      omega
    · show (curr - curr % 4096) % 2097152 + min _ (2097152 - curr % 2097152) / 4096 * 4096 ≤ 2097152
      omega

theorem writeProtectRange_wf {start size : Nat} (hwf : WF s held)
    (h : s.writeProtectRange start size = some s') : WF s' held := by
  unfold writeProtectRange at h
  have hrun : ∀ {r}, Loop.run (writeProtectRound (add64 start size)) (rounds size)
      (s, start, false) = some r → WF r.1 held :=
    Loop.run_of_some (fun st : PageMap × Nat × Bool => WF st.1 held)
      (fun x : PageMap × Bool => WF x.1 held) (fun _ => writeProtectRound_wf) hwf
  split at h
  · cases h
  · rename_i heq
    cases h
    exact broadcast_wf (hrun heq) ..
  · rename_i heq
    cases h
    exact hrun heq

variable (hany : ¬ Callers.canonical)

include hany

/-- What `alias_virtual_range` keeps in every round. -/
structure AliasAny (held : List Nat) (size : Nat) (st : PageMap × Nat × Nat × Nat) : Prop where
  wf : WF st.1 held
  dest : st.2.2.1 < 2 ^ 64
  left : st.2.2.2 ≤ size

theorem aliasRound_any {size : Nat} (hsize64 : size < 2 ^ 64) {st : PageMap × Nat × Nat × Nat}
    (h : AliasAny held size st) : Sum.elim (AliasAny held size)
      (fun x => ∀ r s, x = some (r, s) → WF s held ∧ ∀ e left, r = .error (e, left) → left ≤ size)
        (aliasRound st) := by
  obtain ⟨s, src, dest, left⟩ := st
  obtain ⟨hwf, hdest, hleft⟩ := h
  simp only at hwf hdest hleft
  simp only [aliasRound]
  split
  swap
  · rintro r s' ⟨⟩
    exact ⟨hwf, nofun⟩
  split
  · rintro r s' ⟨⟩
    refine ⟨hwf, ?_⟩
    rintro e left ⟨⟩
    exact hleft
  split
  · rintro r s' ⟨⟩
  · rename_i heq
    rintro r s' ⟨⟩
    refine ⟨mapRange_wf hany hwf hdest (by omega) heq, ?_⟩
    rintro e left ⟨⟩
    exact hleft
  · rename_i heq
    exact ⟨mapRange_wf hany hwf hdest (by omega) heq, add64_lt .., (Nat.sub_le _ _).trans hleft⟩

theorem aliasVirtualRange_wf {src dest size : Nat} {r : Except Error Unit} (hwf : WF s held)
    (hdest : dest < 2 ^ 64) (hsize : size < 2 ^ 64)
    (h : s.aliasVirtualRange src dest size = some (r, s')) : WF s' held := by
  unfold aliasVirtualRange at h
  have hrun : ∀ {x}, Loop.run aliasRound (rounds size) (s, src, dest, size) = some x →
      ∀ r s, x = some (r, s) → WF s held ∧ ∀ e left, r = .error (e, left) → left ≤ size :=
    Loop.run_of_some (AliasAny held size) _ (fun _ => aliasRound_any hany hsize)
      ⟨hwf, hdest, le_rfl⟩
  split at h
  · cases h
    exact hwf
  split at h
  · cases h
    exact hwf
  split at h
  · cases h
  · cases h
  · rename_i heq
    cases h
    exact (hrun heq _ _ rfl).1
  · rename_i heq
    obtain ⟨hwf₁, hleft⟩ := hrun heq _ _ rfl
    have hle := hleft _ _ rfl
    split at h
    · cases h
    · rename_i hunmap
      cases h
      exact unmapRange_wf hwf₁ hdest (by omega) hunmap

theorem moveVirtualRange_wf {src dest size : Nat} {r : Except Error Unit} (hwf : WF s held)
    (hsrc : src < 2 ^ 64) (hdest : dest < 2 ^ 64) (hsize : size < 2 ^ 64)
    (h : s.moveVirtualRange src dest size = some (r, s')) : WF s' held := by
  unfold moveVirtualRange at h
  split at h
  · cases h
    exact hwf
  split at h
  · cases h
  · rename_i halias
    cases h
    exact aliasVirtualRange_wf hany hwf hdest hsize halias
  · rename_i halias
    have hwf₁ := aliasVirtualRange_wf hany hwf hdest hsize halias
    split at h
    · cases h
    · rename_i hunmap
      cases h
      exact unmapRange_wf hwf₁ hsrc hsize hunmap
    · rename_i hunmap
      have hwf₂ := unmapRange_wf hwf₁ hsrc hsize hunmap
      split at h
      · cases h
      · rename_i hback
        cases h
        exact unmapRange_wf hwf₂ hdest hsize hback

end

end PageMap

/-! ## Runs -/

/-- Callers that may use any address. -/
@[reducible] def Callers.any : Callers := ⟨False⟩

/-- A call of the public interface, with any 64-bit addresses and sizes. -/
inductive Call
  | map (virt phys : BitVec 64) (flags : AccessFlags) (cache : CacheMode) (pkey : Nat)
      (size : PageSize)
  | mapRange (virt phys size : BitVec 64) (flags : AccessFlags) (cache : CacheMode) (pkey : Nat)
  | unmap (virt : BitVec 64) (size : PageSize)
  | unmapRange (virt size : BitVec 64)
  | remap (virt phys : BitVec 64) (flags : AccessFlags) (cache : CacheMode) (pkey : Nat)
      (size : PageSize)
  | remapRange (virt phys size : BitVec 64) (flags : AccessFlags) (cache : CacheMode) (pkey : Nat)
  | protectVirtualRange (virt size : BitVec 64) (flags : AccessFlags)
  | writeProtectRange (virt size : BitVec 64)
  | aliasVirtualRange (src dest size : BitVec 64)
  | moveVirtualRange (src dest size : BitVec 64)

namespace PageMap

/-- The map after a call. -/
def exec (s : PageMap) : Call → Option PageMap
  | .map virt phys flags cache pkey size =>
    some (s.map virt.toNat phys.toNat flags cache pkey size).2
  | .mapRange virt phys size flags cache pkey =>
    (s.mapRange virt.toNat phys.toNat size.toNat flags cache pkey).map Prod.snd
  | .unmap virt size => some (s.unmap virt.toNat size).2
  | .unmapRange virt size => (s.unmapRange virt.toNat size.toNat).map Prod.snd
  | .remap virt phys flags cache pkey size =>
    some (s.remap virt.toNat phys.toNat flags cache pkey size).2
  | .remapRange virt phys size flags cache pkey =>
    (s.remapRange virt.toNat phys.toNat size.toNat flags cache pkey).map Prod.snd
  | .protectVirtualRange virt size flags =>
    (s.protectVirtualRange virt.toNat size.toNat flags).map Prod.snd
  | .writeProtectRange virt size => s.writeProtectRange virt.toNat size.toNat
  | .aliasVirtualRange src dest size =>
    (s.aliasVirtualRange src.toNat dest.toNat size.toNat).map Prod.snd
  | .moveVirtualRange src dest size =>
    (s.moveVirtualRange src.toNat dest.toNat size.toNat).map Prod.snd

/-- The map after a sequence of calls. -/
def run (s : PageMap) (calls : List Call) : Option PageMap := calls.foldlM exec s

attribute [local instance] Callers.any

variable {s s' : PageMap} {held : List Nat}

/-- One call keeps the tree. -/
theorem exec_wf (call : Call) (hwf : WF s held) (h : s.exec call = some s') : WF s' held := by
  have hany : ¬ Callers.canonical := id
  cases call with
  | map virt phys flags cache pkey size =>
    cases h
    exact map_wf hany hwf virt.isLt _ flags cache pkey size
  | mapRange virt phys size flags cache pkey =>
    obtain ⟨⟨r, s''⟩, heq, rfl⟩ := Option.map_eq_some_iff.1 h
    exact mapRange_wf hany hwf virt.isLt size.isLt heq
  | unmap virt size =>
    cases h
    exact unmap_wf hwf _ size
  | unmapRange virt size =>
    obtain ⟨⟨r, s''⟩, heq, rfl⟩ := Option.map_eq_some_iff.1 h
    exact unmapRange_wf hwf virt.isLt size.isLt heq
  | remap virt phys flags cache pkey size =>
    cases h
    exact remap_wf hany hwf _ _ flags cache pkey size
  | remapRange virt phys size flags cache pkey =>
    obtain ⟨⟨r, s''⟩, heq, rfl⟩ := Option.map_eq_some_iff.1 h
    exact remapRange_wf hany hwf heq
  | protectVirtualRange virt size flags =>
    obtain ⟨⟨r, s''⟩, heq, rfl⟩ := Option.map_eq_some_iff.1 h
    exact protectRange_wf hwf heq
  | writeProtectRange virt size => exact writeProtectRange_wf hwf h
  | aliasVirtualRange src dest size =>
    obtain ⟨⟨r, s''⟩, heq, rfl⟩ := Option.map_eq_some_iff.1 h
    exact aliasVirtualRange_wf hany hwf dest.isLt size.isLt heq
  | moveVirtualRange src dest size =>
    obtain ⟨⟨r, s''⟩, heq, rfl⟩ := Option.map_eq_some_iff.1 h
    exact moveVirtualRange_wf hany hwf src.isLt dest.isLt size.isLt heq

/-- **Every sequence of calls keeps the tree.** -/
theorem run_wf {calls : List Call} (hwf : WF s held) (h : s.run calls = some s') : WF s' held := by
  induction calls generalizing s with
  | nil =>
    cases h
    exact hwf
  | cons call calls ih =>
    obtain ⟨s₁, hcall, hrest⟩ := Option.bind_eq_some_iff.1 h
    exact ih (exec_wf call hwf hcall) hrest

end PageMap

end Erebus.Vmm
