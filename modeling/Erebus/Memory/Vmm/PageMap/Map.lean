import Erebus.Memory.Vmm.PageMap.Unmap

/-!
# Mapping a range

* `Requested`: a mapping has the frame and the attributes that were asked for.
* `Filled`, `Mapped`: what has been mapped when an operation comes to an address: there was nothing
  before, it is mapped as requested, nothing else changed, and no TLB got stale.
* `map_ok`, `mapRange_ok`: both end with the whole range mapped, or with every mapping as it was
  before.
-/

namespace Erebus.Vmm

open PTEntry

/-! ## Requests -/

/-- The mapping is of the frame address `phys` and has the attributes of the request. -/
structure Requested (feat : PagingFeatures) (req : PageMap.MapRequest) (phys : Nat)
    (m : Mapping) : Prop where
  physAddress : m.physAddress = phys
  write : m.flags.has .write = (req.flags.has .write && !req.flags.has .copyOnWrite)
  execute : m.flags.has .execute = (!feat.nx || req.flags.has .execute)
  user : m.flags.has .user = req.flags.has .user
  cache : m.cache = req.cache
  pkey : m.pkey = req.pkey % 16

/-- The leaf of a request. -/
def PageMap.MapRequest.leaf (req : PageMap.MapRequest) (feat : PagingFeatures) (phys : Nat)
    (size : PageSize) :
    PTEntry :=
  buildSchema feat phys (leafFlags req.startVirt req.flags) req.cache size req.pkey

namespace PageMap

/-- A leaf that is not marked as evicted gives what was asked for. -/
theorem leaf_requested (feat : PagingFeatures) (req : MapRequest) {phys : Nat} (size : PageSize)
    (hswapped : req.flags.has .swapped = false) (haligned : phys % sizeToBytes size = 0)
    (hphys : phys + sizeToBytes size ≤ 2 ^ 52) (v : Nat) :
    ∃ m, leafView size.level (req.leaf feat phys size) v = some m ∧
      Requested feat req (phys + v % sizeToBytes size) m := by
  obtain ⟨-, hwrite, hexec, huser, -, hcow, hswap, -⟩ := leafFlags_has req.startVirt req.flags
  refine ⟨_, leafView_build feat req.pkey req.cache size (hswap.trans hswapped)
    haligned hphys v, ?_⟩
  obtain ⟨-, brw, buser, -, bnx, -⟩ := buildSchema_fields feat phys req.pkey
    (leafFlags req.startVirt req.flags) req.cache size
  obtain ⟨ewrite, euser, -, eexec, -⟩ := extractFlags_has
    (buildSchema feat phys (leafFlags req.startVirt req.flags) req.cache size req.pkey)
  refine ⟨rfl, ?_, ?_, ?_, rfl, rfl⟩
  · rw [ewrite, brw, hwrite, hcow]
  · rw [eexec, bnx, hexec]
    cases feat.nx <;> simp
  · rw [euser, buser, huser]

theorem leaf_entryOk [Callers] {feat : PagingFeatures} {req : MapRequest} {upper : Bool}
    {size : PageSize}
    (hupper : Callers.canonical → upper = isUpperHalf req.startVirt)
    (hgib : size = .size1G → feat.huge1g = true)
    (phys : Nat) : EntryOk feat upper size.level (req.leaf feat phys size) := by
  apply buildSchema_entryOk _ _ _ _ _ _ hgib
  intro hcallers
  rw [(leafFlags_has _ _).1, ← hupper hcallers]

/-- The address is in the half that the request starts in. -/
abbrev MapRequest.OwnHalf [Callers] (req : MapRequest) (L v : Nat) : Prop :=
  Callers.canonical → upperOf L v = isUpperHalf req.startVirt

/-! ## The state of a mapping -/

section

variable [Callers]

/-- The `n` bytes from `start` on are mapped to the frames from `phys` on, with the attributes of
the request, if a leaf has room for them. -/
def Shows (req : MapRequest) (s : PageMap) (start phys n : Nat) : Prop :=
  req.flags.has .swapped = false → phys + n ≤ 2 ^ 52 →
    ∀ w ∈ Seg s.feat.levels start n, ∃ m, s.view w = some m ∧
      Requested s.feat req (phys + (lin s.feat.levels w - lin s.feat.levels start)) m

/-- The `n` bytes from `start` on were holes, and their leaves, if they have some now, lie in the
range. -/
structure Filled (s₀ s : PageMap) (held : List Nat) (start n : Nat) : Prop where
  wf : WF s held
  changes : Changes s₀ s (Seg s₀.feat.levels start n) ∅
  hole : ∀ w ∈ Seg s₀.feat.levels start n, s₀.view w = none
  fits : Fits s start n

/-- The range was filled as requested. -/
structure Mapped (req : MapRequest) (s₀ s : PageMap) (held : List Nat) (start phys n : Nat) : Prop
    extends Filled s₀ s held start n where
  shows : Shows req s start phys n

section Mapping

variable {req : MapRequest} {s₀ s s' : PageMap} {held held' : List Nat} {start phys a b v l f : Nat}

omit [Callers] in
theorem Shows.init (req : MapRequest) (s : PageMap) (start phys : Nat) :
    Shows req s start phys 0 := by
  intro _ _ w hw
  rw [seg_zero] at hw
  exact hw.elim

omit [Callers] in
/-- Two adjacent ranges. -/
theorem Shows.add (h : Shows req s start phys a) (hfeat : s'.feat = s.feat)
    (hview : ∀ w ∈ Seg s.feat.levels start a, s'.view w = s.view w)
    (hspan : lin s.feat.levels start + (a + b) ≤ span s.feat.levels)
    (h' : Shows req s' (start + a) (add64 phys a) b) : Shows req s' start phys (a + b) := by
  intro hswapped hphys w hw
  rw [hfeat, seg_add] at hw
  rcases hw with hw | hw
  · rw [hview w hw, hfeat]
    exact h hswapped (by omega) w hw
  · have hadd : add64 phys a = phys + a := Nat.mod_eq_of_lt (by omega)
    obtain ⟨m, hm, hreq⟩ := h' hswapped (by rw [hadd]; omega) w (by rwa [hfeat])
    refine ⟨m, hm, ?_⟩
    obtain ⟨k, hk, hw⟩ := hw
    have hlin : lin s.feat.levels (start + a) = lin s.feat.levels start + a :=
      lin_add_of_span (by omega)
    have hlow : lin s.feat.levels w = lin s.feat.levels start + (a + k) := by
      rw [hw, Nat.add_assoc, lin_add_of_span (by omega)]
    rw [hfeat, hadd, hlin] at hreq
    rw [hfeat]
    have hoff : phys + a + (lin s.feat.levels w - (lin s.feat.levels start + a)) =
        phys + (lin s.feat.levels w - lin s.feat.levels start) := by omega
    rwa [hoff] at hreq

omit [Callers] in
theorem Shows.congr (h : Shows req s start phys a) (hfeat : s'.feat = s.feat)
    (hview : ∀ w ∈ Seg s.feat.levels start a, s'.view w = s.view w) :
    Shows req s' start phys a := by
  intro hswapped hphys w hw
  rw [hfeat] at hw ⊢
  rw [hview w hw]
  exact h hswapped hphys w hw

theorem Filled.init (hwf : WF s held) (start : Nat) : Filled s s held start 0 where
  wf := hwf
  changes := (Changes.refl s).mono (Set.empty_subset _) le_rfl
  hole w hw := by
    rw [seg_zero] at hw
    exact hw.elim
  fits w hw := by
    rw [seg_zero] at hw
    exact hw.elim

/-- A step that changes no mapping may come before. -/
theorem Filled.after (hc : Changes s₀ s ∅ ∅) (h : Filled s s' held start a) :
    Filled s₀ s' held start a where
  wf := h.wf
  changes := hc.trans_left (hc.feat ▸ h.changes)
  hole w hw := by
    rw [← hc.quiet w]
    exact h.hole w (by rwa [hc.feat])
  fits := h.fits

theorem Filled.trans (h : Filled s₀ s held start a)
    (hspan : lin s₀.feat.levels start + (a + b) ≤ span s₀.feat.levels)
    (h' : Filled s s' held' (start + a) b) : Filled s₀ s' held' start (a + b) ∧
      ∀ w ∈ Seg s.feat.levels start a, s'.view w = s.view w := by
  have hfeat := h.changes.feat
  have hseg : Seg s.feat.levels (start + a) b = Seg s₀.feat.levels (start + a) b := by rw [hfeat]
  have hapart : ∀ w ∈ Seg s.feat.levels start a, w ∉ Seg s.feat.levels (start + a) b := by
    intro w hw
    rw [hfeat] at hw ⊢
    exact seg_apart hspan hw
  refine ⟨⟨h'.wf, ?_, ?_, ?_⟩, fun w hw => h'.changes.view w (hapart w hw)⟩
  · rw [seg_add]
    exact (h.changes.trans (hseg ▸ h'.changes)).mono le_rfl (by simp)
  · intro w hw
    rw [seg_add] at hw
    by_cases hfirst : w ∈ Seg s₀.feat.levels start a
    · exact h.hole w hfirst
    · rw [← h.changes.view w hfirst]
      exact h'.hole w (hseg ▸ hw.resolve_left hfirst)
  · have hfits := h.fits.of_changes h.wf h'.wf h'.changes fun w hw => .inl (hapart w hw)
    intro w hw hpresent u hu
    have hfeat' : s'.feat = s₀.feat := h'.changes.feat.trans hfeat
    have hsub : Seg s'.feat.levels start (a + b) = Seg s'.feat.levels start a ∪
        Seg s'.feat.levels (start + a) b := by
      exact seg_add a b
    rw [hsub] at hw ⊢
    exact hw.imp (fun hw => hfits w hw hpresent u hu) (fun hw => h'.fits w hw hpresent u hu)

theorem Mapped.init (hwf : WF s held) (req : MapRequest) (start phys : Nat) :
    Mapped req s s held start phys 0 where
  toFilled := Filled.init hwf start
  shows := Shows.init req s start phys

theorem Mapped.after (hc : Changes s₀ s ∅ ∅) (h : Mapped req s s' held start phys a) :
    Mapped req s₀ s' held start phys a where
  toFilled := h.toFilled.after hc
  shows := h.shows

/-- Two mappings of adjacent ranges. -/
theorem Mapped.trans (h : Mapped req s₀ s held start phys a)
    (hspan : lin s₀.feat.levels start + (a + b) ≤ span s₀.feat.levels)
    (h' : Mapped req s s' held' (start + a) (add64 phys a) b) :
    Mapped req s₀ s' held' start phys (a + b) := by
  obtain ⟨hfilled, hview⟩ := h.toFilled.trans hspan h'.toFilled
  refine ⟨hfilled, h.shows.add h'.changes.feat hview ?_ h'.shows⟩
  rwa [h.changes.feat]

omit [Callers] in
/-- The offset in an aligned page. -/
theorem offset_of_page {L w : Nat} (hl : l ≤ L + 1) (hv : v % levelCoverage l = 0)
    (hw : page L l w = page L l v) : w % levelCoverage l = lin L w - lin L v := by
  obtain ⟨i, hi, hlin⟩ := (page_eq_iff_seg hl hv).1 hw
  rw [lin_add_of_lt hl (by omega)] at hlin
  have hmodw : lin L w % levelCoverage l = w % levelCoverage l :=
    Nat.mod_mod_of_dvd _ (levelCoverage_dvd_span hl)
  have hmodv : lin L v % levelCoverage l = 0 := by
    rw [lin, Nat.mod_mod_of_dvd _ (levelCoverage_dvd_span hl), hv]
  obtain ⟨k, hk⟩ := Nat.dvd_of_mod_eq_zero hmodv
  have hsplit : lin L w = levelCoverage l * k + (lin L w - lin L v) := by omega
  rw [← hmodw, hsplit, Nat.mul_add_mod, Nat.mod_eq_of_lt (by omega)]
  omega

omit [Callers] in
/-- An aligned page with a leaf of the request. -/
theorem Shows.leaf {size : PageSize} (hle : size.level ≤ s.feat.levels + 1)
    (hv : v % sizeToBytes size = 0) (hphys : phys % sizeToBytes size = 0)
    (hview : ∀ w, s.SamePage size.level v w →
      s.view w = leafView size.level (req.leaf s.feat phys size) w) :
      Shows req s v phys (sizeToBytes size) := by
  intro hswapped hbound w hw
  have hpage := (page_eq_iff_seg hle hv).2 hw
  obtain ⟨m, hm, hreq⟩ := leaf_requested s.feat req size hswapped hphys hbound w
  refine ⟨m, (hview w hpage).trans hm, ?_⟩
  rwa [show w % sizeToBytes size = _ from offset_of_page hle hv hpage] at hreq

/-- One hole gets a leaf. -/
theorem Mapped.leaf {size : PageSize} (hwf : WF s held) (hr : Reaches s v size.level f)
    (hhole : (s.load (slotOf v size.level f)).present = false) (hv : v % sizeToBytes size = 0)
    (hphys : phys % sizeToBytes size = 0) (hupper : req.OwnHalf s.feat.levels v)
    (hgib : size = .size1G → s.feat.huge1g = true) :
    Mapped req s (s.store (slotOf v size.level f) (req.leaf s.feat phys size)) held v phys
      (sizeToBytes size) := by
  have hle : size.level ≤ s.feat.levels + 1 := hr.le.trans (Nat.le_succ _)
  have hold : ¬ s.DirAt v size.level f := not_isDirectory_of_hole hhole
  have hnew : ¬ IsDirectory size.level (req.leaf s.feat phys size) :=
    buildSchema_not_directory _ _ _ _ _ _
  have hok := leaf_entryOk hupper hgib phys
  have hpage : ∀ w, s.SamePage size.level v w ↔
      w ∈ Seg s.feat.levels v (sizeToBytes size) := fun w => page_eq_iff_seg hle hv
  have hnone : ∀ w ∈ Seg s.feat.levels v (sizeToBytes size), s.view w = none := fun w hw =>
    view_none_of_page hwf.levels_pos hr hhole ((hpage w).2 hw)
  have hwf' := overwrite_wf hwf hr hnew hok
  refine ⟨⟨hwf', ?_, hnone, ?_⟩, Shows.leaf hle hv hphys fun w hw => store_view hwf hr hold hnew hw⟩
  · apply (store_changes hwf hr hold hnew hok).mono
    · exact fun w hw => (hpage w).1 hw
    · rintro w ⟨hw, hne⟩
      exact absurd (hnone w ((hpage w).1 hw)) hne
  · intro w hw _ u hu
    have hsame := store_probe_same hwf hr hold hnew ((hpage w).2 hw)
    rw [hsame] at hu
    exact (hpage u).1 (hu.trans ((hpage w).2 hw))

omit [Callers] in
theorem add64_mod (size : PageSize) (hphys : phys % sizeToBytes size = 0) (i : Nat) :
    add64 phys (i * sizeToBytes size) % sizeToBytes size = 0 := by
  have hdvd : sizeToBytes size ∣ 2 ^ 64 := by cases size <;> decide
  rw [add64, Nat.mod_mod_of_dvd _ hdvd, Nat.add_mul_mod_self_right, hphys]

/-- The next slot of a table gets its leaf. -/
theorem Mapped.slot (size : PageSize) {n i : Nat}
    (h : Mapped req s₀ s held v phys (i * sizeToBytes size))
    (hbatch : Batch s₀.feat.levels v size.level n) (hi : i < n) (hr : Reaches s v size.level f)
    (hhole : (s.load ((slotOf v size.level f).at i)).present = false)
    (hphys : phys % sizeToBytes size = 0)
    (hupper : req.OwnHalf s₀.feat.levels v)
    (hgib : size = .size1G → s₀.feat.huge1g = true) :
    let s' := s.store ((slotOf v size.level f).at i)
      (req.leaf s₀.feat (add64 phys (i * sizeToBytes size)) size)
    Mapped req s₀ s' held v phys ((i + 1) * sizeToBytes size) ∧ Reaches s' v size.level f := by
  have hfeat := h.changes.feat
  rw [hbatch.slot_at hi] at hhole ⊢
  have hreach := (hfeat ▸ hbatch : Batch s.feat.levels v size.level n).reaches hi hr
  have hupper' : req.OwnHalf s.feat.levels (v + i * levelCoverage size.level) := by
    intro hcallers
    rw [hfeat, ← hupper hcallers]
    exact batch_upperOf hbatch hi (hfeat ▸ level_succ_le h.wf size)
  have hleaf :=
    Mapped.leaf h.wf hreach hhole (hbatch.aligned_add i) (add64_mod size hphys i) hupper'
    (by rwa [hfeat])
  rw [hfeat] at hleaf
  refine ⟨?_, hleaf.changes.tables hr⟩
  rw [Nat.succ_mul]
  refine h.trans (le_trans ?_ hbatch.lin_le) hleaf
  rw [← Nat.succ_mul]
  exact Nat.add_le_add_left (Nat.mul_le_mul_right _ hi) _

end Mapping

/-! ## `map_1gb_as_2mb` and `map` -/

section

variable {req : MapRequest} {s : PageMap} {held : List Nat} {v phys f g : Nat}

section

variable (req phys) {small big : PageSize} (hwf : WF s (g :: held))
  (hsplit : big.level = small.level + 1)
  (hr : Reaches s v big.level f) (hhole : (s.load (slotOf v big.level f)).present = false)
  (hg : g < 2 ^ 40)
  (hentries : ∀ i, s.load ⟨g, i⟩ = req.leaf s.feat (add64 phys (i * sizeToBytes small)) small)
  (hupper : req.OwnHalf s.feat.levels v) (user : Bool)
include hwf hsplit hr hhole hg hentries hupper

/-- A complete directory can be linked in an empty slot. -/
theorem linkable_directory :
    Linkable s held v small.level f g (buildDirectory (g <<< 12) user) := by
  have hpos := PageSize.level_pos small
  obtain ⟨hdir, hnext, hreserved⟩ := buildDirectory_ok (show big.level ≠ 1 by omega) hg user
  have hnot1g : small ≠ .size1G := by
    rintro rfl
    cases big <;> cases hsplit
  rw [hsplit] at hr hhole hdir
  exact
    { wf := hwf
      pos := hpos
      reach := hr
      old := not_isDirectory_of_hole hhole
      new := hdir
      next := hnext
      reserved := hreserved
      flat := fun i _ => by
        rw [hentries]
        exact buildSchema_not_directory _ _ _ _ _ _
      ok := fun i _ => by
        rw [hentries]
        exact leaf_entryOk hupper (fun h => absurd h hnot1g) _ }

/-- A complete directory is linked in one go. -/
theorem Mapped.directory (hv : v % sizeToBytes big = 0) (hphys : phys % sizeToBytes big = 0) :
    Mapped req s (s.store (slotOf v big.level f) (buildDirectory (g <<< 12) user)) held v phys
      (sizeToBytes big) := by
  have hlink := linkable_directory req phys hwf hsplit hr hhole hg hentries hupper user
  have hle : big.level ≤ s.feat.levels + 1 := hr.le.trans (Nat.le_succ _)
  have hpage : ∀ w, s.SamePage big.level v w ↔
      w ∈ Seg s.feat.levels v (sizeToBytes big) := fun w => page_eq_iff_seg hle hv
  have hnone : ∀ w ∈ Seg s.feat.levels v (sizeToBytes big), s.view w = none := fun w hw =>
    view_none_of_page hwf.levels_pos hr hhole ((hpage w).2 hw)
  rw [hsplit] at hpage ⊢
  refine ⟨⟨hlink.store_wf, ?_, hnone, ?_⟩, ?_⟩
  · apply (hlink.changes (P := Seg s.feat.levels v (sizeToBytes big)) ?_).mono le_rfl
    · rintro w ⟨hw, hne⟩
      exact absurd (hnone w hw) hne
    · intro w hw hout
      exact absurd ((hpage w).1 hw) hout
  · intro w hw _ u hu
    rw [hlink.probe_same ((hpage w).2 hw)] at hu
    exact (hpage u).1 ((page_eq_of_le (Nat.le_succ _) hu).trans ((hpage w).2 hw))
  · intro hswapped hbound w hw
    obtain ⟨hoffset, hmul⟩ := offset_split hsplit w
    have hadd : add64 phys (tableIndex w small.level * sizeToBytes small) =
        phys + tableIndex w small.level * sizeToBytes small := Nat.mod_eq_of_lt (by omega)
    have haligned := add64_mod small (Nat.mod_eq_zero_of_dvd
      ((sizeToBytes_dvd hsplit).trans (Nat.dvd_of_mod_eq_zero hphys))) (tableIndex w small.level)
    rw [hadd] at haligned
    obtain ⟨m, hm, hreq⟩ := leaf_requested s.feat req small hswapped haligned (by omega) w
    refine ⟨m, ?_, ?_⟩
    · rw [view_eq, hlink.probe_same ((hpage w).2 hw), slotOf, hentries, hadd]
      exact hm
    · have hoff : w % sizeToBytes big = _ :=
        offset_of_page hle hv (by rw [hsplit]; exact (hpage w).2 hw)
      rwa [Nat.add_assoc, ← hoffset, hoff] at hreq

end

/-- `unmap` of a 2 MiB page whose slot is there. -/
theorem unmap2m_eq (hwf : WF s held) (hv : v % sizeToBytes .size2M = 0) (hr : Reaches s v 2 f) :
    (s.unmap v .size2M).2 = if (s.load (slotOf v 2 f)).present then
      (s.store (slotOf v 2 f) 0).broadcast v (sizeToBytes .size2M) .size2M else s := by
  have haligned : isAligned v (sizeToBytes .size2M) = true := decide_eq_true hv
  have hwalk : s.walk v false .size2M = (.ok (slotOf v 2 f), s) := walk_of_reaches hwf false hr
  simp only [unmap, haligned, hwalk, Bool.not_true, Bool.false_eq_true, if_false,
    reduceCtorEq, false_and]
  cases (s.load (slotOf v 2 f)).present with
  | false => rfl
  | true =>
    simp only [Bool.not_true, Bool.false_eq_true, if_false, if_true]
    split <;> rfl

/-- One 2 MiB page of an undo: the slot is cleared if it is in use. -/
theorem Gone.unmap2m {s₀ : PageMap} {cleared : Bool} {n j : Nat}
    (h : Gone s₀ s held v (j * levelCoverage 2) cleared) (hbatch : Batch s₀.feat.levels v 2 n)
    (hj : j < n) (hr : Reaches s v 2 f) (hleaf : ¬ IsDirectory 2 (s.load ((slotOf v 2 f).at j))) :
    ∃ cleared', Gone s₀ (s.unmap (v + j * levelCoverage 2) .size2M).2 held v
      ((j + 1) * levelCoverage 2) cleared' ∧
      ∀ p, p ≠ (slotOf v 2 f).at j →
      (s.unmap (v + j * levelCoverage 2) .size2M).2.load p = s.load p := by
  have hfeat := h.changes.feat
  have halign := hbatch.aligned_add j
  have hreach := (hfeat ▸ hbatch : Batch s.feat.levels v 2 n).reaches hj hr
  rw [hbatch.slot_at hj] at hleaf ⊢
  rw [unmap2m_eq h.wf halign hreach, Nat.succ_mul]
  cases hpresent : (s.load (slotOf (v + j * levelCoverage 2) 2 f)).present with
  | false =>
    refine ⟨cleared, h.skip fun w hw => ?_, fun p _ => rfl⟩
    apply view_none_of_page h.wf.levels_pos hreach hpresent
    rwa [SamePage, page_eq_iff_seg (hreach.le.trans (Nat.le_succ _)) halign, hfeat]
  | true =>
    have hgone := h.clear hreach hleaf hpresent halign
    rw [if_pos rfl]
    refine ⟨true, hgone.before (broadcast_wf hgone.wf _ _ _) (broadcast_changes hgone.wf _ _ _),
      fun p hp => ?_⟩
    rw [load, broadcast_mem, ← load, store_load, if_neg hp]

/-- All of an undo: the slots before `i` are cleared again. -/
theorem unfill_ok {n i : Nat} (hwf : WF s held) (hbatch : Batch s.feat.levels v 2 n) (hi : i ≤ n)
    (hbound : v + n * levelCoverage 2 ≤ 2 ^ 64) (hr : Reaches s v 2 f)
    (hleaf : ∀ k < i, ¬ IsDirectory 2 (s.load ((slotOf v 2 f).at k))) :
    ∃ cleared, Gone s (Loop.times
        (fun j s => (s.unmap (add64 v (j * sizeToBytes .size2M)) .size2M).2) i s) held v
      (i * levelCoverage 2) cleared := by
  refine (Loop.times_ok (fun j s' => (∃ cleared, Gone s s' held v (j * levelCoverage 2) cleared) ∧
    ∀ k < i, j ≤ k → ¬ IsDirectory 2 (s'.load ((slotOf v 2 f).at k))) ?_ ?_).1
  · rintro j s' hj ⟨⟨cleared, hgone⟩, hleaf'⟩
    have hadd : add64 v (j * sizeToBytes .size2M) = v + j * levelCoverage 2 := by
      have hlt : j * levelCoverage 2 < n * levelCoverage 2 :=
        Nat.mul_lt_mul_of_pos_right (by omega) (levelCoverage_pos 2)
      exact Nat.mod_eq_of_lt (show v + j * levelCoverage 2 < 2 ^ 64 by omega)
    obtain ⟨cleared', hgone', hother⟩ :=
      hgone.unmap2m hbatch (by omega) (hgone.changes.tables hr) (hleaf' j hj le_rfl)
    rw [hadd]
    refine ⟨⟨cleared', hgone'⟩, fun k hk hjk => ?_⟩
    rw [hother]
    · exact hleaf' k hk (by omega)
    · simp only [Loc.at, ne_eq, Loc.mk.injEq, true_and]
      omega
  · refine ⟨⟨false, ?_⟩, fun k hk _ => hleaf k hk⟩
    rw [Nat.zero_mul]
    exact Gone.init hwf v

/-- A directory that is there already gets all its 2 MiB leaves, or none of them. -/
theorem fillSlots_ok (req : MapRequest) (phys : Nat) {n : Nat} (hwf : WF s held)
    (hbatch : Batch s.feat.levels v 2 n)
    (hbound : v + n * levelCoverage 2 ≤ 2 ^ 64) (hfirst : tableIndex v 2 = 0) (hr : Reaches s v 2 f)
    (hphys : phys % sizeToBytes .size2M = 0) (hupper : req.OwnHalf s.feat.levels v) :
    Sum.elim (fun s' => Mapped req s s' held v phys (n * sizeToBytes .size2M))
      (fun s' => WF s' held ∧ ∃ Q, Changes s s' ∅ Q)
      (Loop.upTo (fillSlot v f fun i =>
        req.leaf s.feat (add64 phys (i * sizeToBytes .size2M)) .size2M) n s) := by
  have hloc : ∀ i, (⟨f, i⟩ : Loc) = (slotOf v 2 f).at i := by
    intro i
    rw [slotOf, Loc.at, hfirst, Nat.zero_add]
  refine Loop.elim_mono (fun s' h => h.1) (fun s' h => h) (Loop.upTo_ok
    (fun i s' => Mapped req s s' held v phys (i * sizeToBytes .size2M) ∧ Reaches s' v 2 f ∧
      ∀ k < i, ¬ IsDirectory 2 (s'.load ((slotOf v 2 f).at k))) _ ?_ ?_)
  · rintro i s' hi ⟨hmapped, hr', hleaf⟩
    have hfeat := hmapped.changes.feat
    rw [fillSlot, hloc]
    cases hpresent : (s'.load ((slotOf v 2 f).at i)).present with
    | true =>
      obtain ⟨cleared, hgone⟩ := unfill_ok hmapped.wf (hfeat ▸ hbatch) hi.le hbound hr' hleaf
      rw [if_pos rfl]
      refine ⟨hgone.wf, _, (hmapped.changes.trans hgone.changes).restrict fun w hw _ => ?_⟩
      have hin : w ∈ Seg s.feat.levels v (i * levelCoverage 2) := by
        rw [hfeat] at hw
        exact hw.elim id id
      rw [hgone.gone w (hfeat ▸ hin), hmapped.hole w hin]
    | false =>
      rw [if_neg Bool.false_ne_true]
      obtain ⟨hmapped', hr''⟩ := hmapped.slot .size2M hbatch hi hr' hpresent hphys hupper (by simp)
      refine ⟨hmapped', hr'', fun k hk => ?_⟩
      rw [store_load]
      split
      · exact buildSchema_not_directory _ _ _ _ _ .size2M
      · rename_i hne
        apply hleaf k
        by_contra hle
        exact hne (by rw [show k = i by omega])
  · refine ⟨?_, hr, fun k hk => absurd hk (Nat.not_lt_zero k)⟩
    rw [Nat.zero_mul]
    exact Mapped.init hwf req v phys

/-- What a mapping function leaves behind: the range mapped, or every mapping as it was. `flushes`
is a condition under which a failure leaves no stale translation either. -/
def MapOutcome (req : MapRequest) (s : PageMap) (held : List Nat) (start phys n : Nat)
    (flushes : Prop) (r : Except Error Unit) (s' : PageMap) : Prop :=
  (r = .ok () → Mapped req s s' held start phys n) ∧
    (r ≠ .ok () → WF s' held ∧ ∃ Q, Changes s s' ∅ Q ∧ (flushes → Q = ∅))

theorem MapOutcome.failed {n : Nat} {flushes : Prop} {r : Except Error Unit} {s' : PageMap}
    (hr : r ≠ .ok ()) (hwf : WF s' held) (h : Changes s s' ∅ ∅) :
    MapOutcome req s held v phys n flushes r s' :=
  ⟨fun hok => absurd hok hr, fun _ => ⟨hwf, ∅, h, fun _ => rfl⟩⟩

omit [Callers] in
theorem size1G_level : PageSize.size1G.level = PageSize.size2M.level + 1 := rfl

omit [Callers] in
/-- The slots of the directory below a 1 GiB page. -/
theorem gib_batch {L : Nat} (hL : L = 4 ∨ L = 5) (hv : v % sizeToBytes .size1G = 0)
    (hlt : v < 2 ^ 64) :
    Batch L v 2 512 ∧ tableIndex v 2 = 0 ∧ v + 512 * levelCoverage 2 ≤ 2 ^ 64 := by
  have hbytes : sizeToBytes .size1G = 1073741824 := rfl
  have hcov2 : levelCoverage 2 = 2097152 := rfl
  have hcov3 : levelCoverage (2 + 1) = 1073741824 := rfl
  rw [hbytes] at hv
  refine ⟨⟨by decide, by omega, ?_, ?_⟩, ?_, ?_⟩
  · rw [hcov2]
    omega
  · rw [hcov2, hcov3]
    omega
  · rw [tableIndex_eq, hcov2]
    omega
  · omega

/-- `map_1gb_as_2mb`. -/
theorem map1gbAs2mb_ok (hwf : WF s held) (hv : v % sizeToBytes .size1G = 0) (hlt : v < 2 ^ 64)
    (hphys : phys % sizeToBytes .size1G = 0)
    (hflags : leafFlags v req.flags = leafFlags req.startVirt req.flags)
    (hupper : req.OwnHalf s.feat.levels v) :
    ∃ r s', s.map1gbAs2mb v phys req.flags req.cache req.pkey = (r, s') ∧
      MapOutcome req s held v phys (sizeToBytes .size1G) False r s' := by
  have halign :
      (!isAligned v (sizeToBytes .size1G) || !isAligned phys (sizeToBytes .size1G)) = false := by
    simp [isAligned, hv, hphys]
  obtain ⟨r, s₁, hwalk, hwalked, hreach⟩ := walk_ok hwf v true .size1G
  simp only [map1gbAs2mb, halign, Bool.false_eq_true, if_false, hwalk]
  cases r with
  | error e => exact ⟨_, s₁, rfl, .failed (by simp) hwalked.wf hwalked.changes⟩
  | ok pte =>
    obtain ⟨f, hr, rfl⟩ := hreach pte rfl
    have hfeat₁ := hwalked.changes.feat
    rw [← hfeat₁] at hupper
    simp only [hflags]
    cases hpresent : (s₁.load (slotOf v PageSize.size1G.level f)).present with
    | false =>
      obtain ⟨r, s₂, halloc, hwf₂, hquiet₂, hframe⟩ := allocPagesZeroed_ok hwalked.wf
      simp only [Bool.not_false, if_true, halloc]
      have hchanges₂ := hwalked.changes.trans_left hquiet₂.toChanges
      cases r with
      | none => exact ⟨_, s₂, rfl, .failed (by simp) hwf₂ hchanges₂⟩
      | some g =>
        let s₃ := s₂.fillTable g fun i =>
          req.leaf s₁.feat (add64 phys (i * sizeToBytes .size2M)) .size2M
        have hquiet₃ : Quiet s₁ s₃ := hquiet₂.trans (fillTable_quiet hwf₂)
        have hfeat₃ : s₃.feat = s₁.feat := hquiet₃.feat
        have hhole : (s₃.load (slotOf v PageSize.size1G.level f)).present = false := by
          rw [hquiet₃.load hr, hpresent]
        have hentries : ∀ i, s₃.load ⟨g, i⟩ =
            req.leaf s₃.feat (add64 phys (i * sizeToBytes .size2M)) .size2M := by
          intro i
          rw [fillTable_load, if_pos rfl, hfeat₃]
        have hmapped := Mapped.directory req phys (fillTable_wf hwf₂) size1G_level
          (hquiet₃.tables hr) hhole (hframe g rfl).1 hentries (by rwa [hfeat₃])
            (!isUpperHalf v) hv hphys
        exact ⟨_, _, rfl, fun _ => hmapped.after (hwalked.changes.trans_left hquiet₃.toChanges),
          fun h => absurd rfl h⟩
    | true =>
      cases hhuge : (s₁.load (slotOf v PageSize.size1G.level f)).huge with
      | true =>
        simp only [Bool.not_true, Bool.false_eq_true, if_false, if_true]
        exact ⟨_, s₁, rfl, .failed (by simp) hwalked.wf hwalked.changes⟩
      | false =>
        simp only [Bool.not_true, Bool.false_eq_true, if_false]
        have hdir : s₁.DirAt v 3 f := by
          refine ⟨hpresent, ?_⟩
          rintro (h | ⟨-, h⟩)
          · cases h
          · exact absurd (hhuge.symm.trans h) Bool.false_ne_true
        obtain ⟨hbatch, hfirst, hbound⟩ := gib_batch hwalked.wf.levels hv hlt
        have hphys' : phys % sizeToBytes .size2M = 0 := Nat.mod_eq_zero_of_dvd
          ((sizeToBytes_dvd size1G_level).trans (Nat.dvd_of_mod_eq_zero hphys))
        have hnext : Reaches s₁ v 2 (nextTable (s₁.load (slotOf v PageSize.size1G.level f))) :=
          .step hr hdir
        have hfill := fillSlots_ok req phys hwalked.wf hbatch hbound hfirst hnext hphys' hupper
        simp only [MapRequest.leaf] at hfill
        unfold maxPageEntries
        split
        · rename_i s' heq
          rw [heq] at hfill
          exact ⟨_, s', rfl, fun _ => hfill.after hwalked.changes, fun h => absurd rfl h⟩
        · rename_i s' heq
          rw [heq] at hfill
          obtain ⟨hwf', Q, hchanges⟩ := hfill
          exact ⟨_, s', rfl, (by simp), fun _ =>
            ⟨hwf', Q, hwalked.changes.trans_left hchanges, False.elim⟩⟩

/-- **`map`.** -/
theorem map_ok {size : PageSize} (hwf : WF s held) (hv : v % sizeToBytes size = 0)
    (hlt : v < 2 ^ 64)
    (hphys : phys % sizeToBytes size = 0) (hcanon : Callers.canonical → Canonical s.feat.levels v)
    (hhalf : isUpperHalf v = isUpperHalf req.startVirt)
    (huser : userInKernelHalf req.startVirt req.flags = false) :
    ∃ r s', s.map v phys req.flags req.cache req.pkey size = (r, s') ∧
      MapOutcome req s held v phys (sizeToBytes size)
        (s.feat.huge1g = true ∨ size ≠ .size1G) r s' := by
  have huser' : userInKernelHalf v req.flags = false := by
    rw [userInKernelHalf, hhalf, ← huser]; rfl
  have halign :
      (!isAligned v (sizeToBytes size) || !isAligned phys (sizeToBytes size)) = false := by
    simp [isAligned, hv, hphys]
  have hflags : leafFlags v req.flags = leafFlags req.startVirt req.flags := by
    rw [leafFlags, leafFlags, hhalf]
  have hupper : req.OwnHalf s.feat.levels v :=
    fun hcallers => (upperOf_eq hwf.levels (hcanon hcallers)).trans hhalf
  simp only [map, huser', halign, Bool.false_eq_true, if_false]
  by_cases hsplit : size = .size1G ∧ (!s.feat.huge1g) = true
  · rw [if_pos hsplit]
    obtain ⟨rfl, hno⟩ := hsplit
    obtain ⟨r, s', heq, hok, hfail⟩ := map1gbAs2mb_ok hwf hv hlt hphys hflags hupper
    refine ⟨r, s', heq, hok, fun hr => ?_⟩
    obtain ⟨hwf', Q, hchanges, -⟩ := hfail hr
    refine ⟨hwf', Q, hchanges, ?_⟩
    rintro (h | h)
    · rw [h] at hno
      cases hno
    · exact absurd rfl h
  · rw [if_neg hsplit]
    obtain ⟨r, s₁, hwalk, hwalked, hreach⟩ := walk_ok hwf v true size
    have hfeat₁ := hwalked.changes.feat
    rw [hwalk]
    cases r with
    | error e => exact ⟨_, s₁, rfl, .failed (by simp) hwalked.wf hwalked.changes⟩
    | ok pte =>
      obtain ⟨f, hr, rfl⟩ := hreach pte rfl
      simp only [hflags]
      cases hpresent : (s₁.load (slotOf v size.level f)).present with
      | true =>
        rw [if_pos rfl]
        exact ⟨_, s₁, rfl, .failed (by simp) hwalked.wf hwalked.changes⟩
      | false =>
        rw [if_neg Bool.false_ne_true]
        have hgib : size = .size1G → s₁.feat.huge1g = true := by
          intro h
          rw [hfeat₁]
          by_contra hno
          exact hsplit ⟨h, by simpa using hno⟩
        have hleaf := Mapped.leaf hwalked.wf hr hpresent hv hphys (by rwa [hfeat₁]) hgib
        exact ⟨_, _, rfl, fun _ => hleaf.after hwalked.changes, fun h => absurd rfl h⟩

end

/-! ## `map_range` -/

section

variable {req : MapRequest} {s₀ s : PageMap} {held : List Nat} {start phys size v f : Nat}

/-- The 4 KiB slots of one page table. -/
theorem mapSlots_ok (req : MapRequest) (phys : Nat) {n : Nat} (hwf : WF s held)
    (hbatch : Batch s.feat.levels v 1 n) (hr : Reaches s v 1 f) (hphys : phys % 4096 = 0)
    (hupper : req.OwnHalf s.feat.levels v) :
    Sum.elim (fun s' => Mapped req s s' held v phys (n * pageSize))
      (fun x => x.1 < n ∧ Mapped req s x.2 held v phys (x.1 * pageSize))
      (Loop.upTo (mapSlot (slotOf v PageSize.size4K.level f)
        fun i => req.leaf s.feat (add64 phys (i * pageSize)) .size4K) n s) := by
  refine Loop.elim_mono (fun s' h => h.1) (fun x h => h) (Loop.upTo_ok
    (fun i s' => Mapped req s s' held v phys (i * pageSize) ∧ Reaches s' v 1 f) _ ?_ ?_)
  · rintro i s' hi ⟨hmapped, hr'⟩
    rw [mapSlot]
    cases hpresent : (s'.load ((slotOf v PageSize.size4K.level f).at i)).present with
    | true =>
      rw [if_pos rfl]
      exact ⟨hi, hmapped⟩
    | false =>
      rw [if_neg Bool.false_ne_true]
      exact hmapped.slot .size4K hbatch hi hr' hpresent hphys hupper nofun
  · refine ⟨?_, hr⟩
    rw [Nat.zero_mul]
    exact Mapped.init hwf req v phys

omit [Callers] in
theorem bestSize_ok {currVirt currPhys remaining : Nat} {size : PageSize}
    (h : bestSize currVirt currPhys remaining = size) (hne : size ≠ .size4K) :
    sizeToBytes size ≤ remaining ∧ currVirt % sizeToBytes size = 0 ∧
    currPhys % sizeToBytes size = 0 := by
  unfold bestSize at h
  split at h
  · rename_i hcond
    subst h
    simpa [isAligned] using hcond
  · split at h
    · rename_i hcond
      subst h
      simpa [isAligned] using hcond
    · exact absurd h.symm hne

omit [Callers] in
theorem add64_add64 (x y z : Nat) : add64 (add64 x y) z = add64 x (y + z) := by
  rw [add64, add64, add64, Nat.mod_add_mod, Nat.add_assoc]

/-- What `map_range` knows when it comes to an address. -/
def MappingUpTo (req : MapRequest) (s₀ : PageMap) (held : List Nat) (start phys size : Nat)
    (st : PageMap × Nat × Nat × Nat) : Prop :=
  ∃ done, done ≤ size ∧ done % 4096 = 0 ∧ st.2 = (add64 start done, add64 phys done, size - done) ∧
    Mapped req s₀ st.1 held start phys done

/-- What it knows when it leaves its loop: a failure comes after some part that is mapped. -/
def MappingEnd (req : MapRequest) (s₀ : PageMap) (held : List Nat) (start phys size : Nat) :
    Except (Error × Nat) Unit × PageMap → Prop
  | (.ok _, s) => Mapped req s₀ s held start phys size
  | (.error (_, remaining), s) =>
    ∃ done s₁, done < size ∧ done % 4096 = 0 ∧ remaining = size - done ∧
      Mapped req s₀ s₁ held start phys done ∧ WF s held ∧
      ∃ Q, Changes s₁ s ∅ Q ∧ (s₀.feat.huge1g = true ∨ size < sizeToBytes .size1G → Q = ∅)

variable (hin : InHalf s₀.feat.levels start size) (hstart : start % 4096 = 0)
  (hsize : size % 4096 = 0)
  (hphys : phys % 4096 = 0) (hreq : req.startVirt = start)
  (huser : userInKernelHalf req.startVirt req.flags = false)

include hin hstart hsize hphys hreq huser

/-- One round: a huge page, or the 4 KiB pages of one page table. -/
theorem mapRound_ok (hwf₀ : WF s₀ held) (st : PageMap × Nat × Nat × Nat)
    (hinv : MappingUpTo req s₀ held start phys size st) :
    Sum.elim (fun st' => MappingUpTo req s₀ held start phys size st' ∧
      st'.2.2.2 / 4096 < st.2.2.2 / 4096)
      (MappingEnd req s₀ held start phys size) (mapRound req st) := by
  obtain ⟨s, curr⟩ := st
  obtain ⟨done, hdone, hmod, hcurr, hmapped⟩ := hinv
  simp only at hcurr hmapped
  subst hcurr
  simp only [mapRound]
  by_cases hlt : 0 < size - done
  swap
  · rw [if_neg hlt]
    have heq : done = size := by omega
    subst heq
    exact hmapped
  rw [if_pos hlt]
  have hL := hwf₀.levels
  have hfeat := hmapped.changes.feat
  have hless : done < size := by omega
  have hspan := hin.lin_le hL (by omega)
  have hv64 := hin.lt hL hless
  have hcanon := hin.canonical hL hless
  have hhalf := hin.isUpperHalf_add hL hless
  have hadd : add64 start done = start + done := Nat.mod_eq_of_lt hv64
  -- the rest of a round that maps `n` bytes
  have hpass : ∀ {s' n}, 0 < n → n % 4096 = 0 → n ≤ size - done →
      Mapped req s s' held (start + done) (add64 phys done) n →
      MappingUpTo req s₀ held start phys size
        (s', add64 (start + done) n, add64 (add64 phys done) n, size - done - n) := by
    intro s' n hpos hn hle hmapped'
    refine ⟨done + n, by omega, by omega, ?_, hmapped.trans (by omega) hmapped'⟩
    rw [← hadd, add64_add64, add64_add64, Nat.sub_sub]
  rw [hadd]
  by_cases hbest : bestSize (start + done) (add64 phys done) (size - done) ≠ .size4K
  · rw [if_pos hbest]
    obtain ⟨hbytes, hvirt, hframe⟩ := bestSize_ok rfl hbest
    generalize bestSize (start + done) (add64 phys done) (size - done) =
      big at hbest hbytes hvirt hframe
    obtain ⟨r, s', hmap, hok, hfail⟩ :=
      map_ok hmapped.wf hvirt hv64 hframe (fun _ => hfeat ▸ hcanon)
      (hhalf.trans (by rw [hreq])) huser
    rw [hmap]
    cases r with
    | error e =>
      obtain ⟨hwf', Q, hchanges, hQ⟩ := hfail nofun
      refine ⟨done, s, hless, hmod, rfl, hmapped, hwf', Q, hchanges, fun hflush => hQ ?_⟩
      refine hflush.imp (fun h => by rwa [hfeat]) fun hsmall h => ?_
      rw [h] at hbytes
      omega
    | ok _ =>
      have hpos : 0 < sizeToBytes big := levelCoverage_pos _
      have hpages : sizeToBytes big % 4096 = 0 := Nat.mod_eq_zero_of_dvd (dvd_levelCoverage _)
      refine ⟨hpass hpos hpages hbytes (hok rfl), ?_⟩
      show (size - done - sizeToBytes big) / 4096 < (size - done) / 4096
      omega
  · rw [if_neg hbest]
    obtain ⟨r, s₁, hwalk, hwalked, hreach⟩ := walk_ok hmapped.wf (start + done) true .size4K
    rw [hwalk]
    cases r with
    | error e =>
      exact ⟨done, s, hless, hmod, rfl, hmapped, hwalked.wf, ∅, hwalked.changes, fun _ => rfl⟩
    | ok pte =>
      obtain ⟨f, hr, rfl⟩ := hreach pte rfl
      have hfeat₁ : s₁.feat = s₀.feat := hwalked.changes.feat.trans hfeat
      obtain ⟨n, hchunk, hpos, hn, hle, hbytes, hbatch⟩ :=
        chunk_pages (v := start + done) (r := size - done)
        hwalked.wf.levels_pos (by omega) (by omega) (by omega)
      have hphys' : add64 phys done % 4096 = 0 := by
        rw [add64]
        omega
      have hupper : req.OwnHalf s₁.feat.levels (start + done) := by
        intro _
        rw [hfeat₁, upperOf_eq hL hcanon, hhalf, hreq]
      have hslots := mapSlots_ok req (add64 phys done) hwalked.wf hbatch hr hphys' hupper
      simp only [MapRequest.leaf] at hslots
      simp only [hchunk]
      split
      · rename_i i s' heq
        rw [heq] at hslots
        obtain ⟨hi, hmapped'⟩ := hslots
        rw [pageSize_eq] at hi hmapped' ⊢
        refine ⟨done + i * 4096, s', by omega, by omega, by omega, ?_, hmapped'.wf, ∅,
          (.refl s'), fun _ => rfl⟩
        exact hmapped.trans (by omega) (hmapped'.after hwalked.changes)
      · rename_i s' heq
        rw [heq] at hslots
        have hmapped' : Mapped req s₁ s' held (start + done) (add64 phys done) n := by
          rw [← hbytes]
          exact hslots
        refine ⟨hpass hpos hn hle (hmapped'.after hwalked.changes), ?_⟩
        show (size - done - n) / 4096 < (size - done) / 4096
        omega

/-- **`map_range`.**  The range is mapped as requested, or every mapping is as it was. No TLB gets
stale, except perhaps where 512 pages of 2 MiB stand for one of 1 GiB. -/
theorem mapRange_ok (hwf : WF s₀ held) (hstart64 : start < 2 ^ 64) (hphys64 : phys < 2 ^ 64) :
    ∃ r s, s₀.mapRange start phys size req.flags req.cache req.pkey = some (r, s) ∧ WF s held ∧
      (r = .ok () → Mapped req s₀ s held start phys size) ∧ (r ≠ .ok () → ∃ Q, Changes s₀ s ∅ Q) ∧
      (s₀.feat.huge1g = true ∨ size < sizeToBytes .size1G → Flushed s₀ s) := by
  have hround := mapRound_ok hin hstart hsize hphys hreq huser hwf
  have hinit : MappingUpTo req s₀ held start phys size (s₀, start, phys, size) := by
    refine ⟨0, Nat.zero_le _, rfl, ?_, Mapped.init hwf req start phys⟩
    rw [add64, add64, Nat.add_zero, Nat.add_zero, Nat.mod_eq_of_lt hstart64,
      Nat.mod_eq_of_lt hphys64, Nat.sub_zero]
  subst hreq
  have hfuel : size / 4096 < rounds size := by
    rw [rounds, pageSize_eq]
    omega
  obtain ⟨⟨r, s⟩, hrun, hend⟩ := Loop.run_ok (MappingUpTo req s₀ held req.startVirt phys size)
    (MappingEnd req s₀ held req.startVirt phys size) (fun st => st.2.2.2 / 4096) hround hinit hfuel
  have hrun' : Loop.run (mapRound ⟨req.startVirt, req.flags, req.cache, req.pkey⟩) (rounds size)
      (s₀, req.startVirt, phys, size) = some (r, s) := hrun
  simp only [mapRange, huser, not_isAligned hstart, not_isAligned hphys,
    not_isAligned hsize, Bool.or_self, Bool.false_eq_true, if_false, hrun']
  cases r with
  | ok _ =>
    have hmapped : Mapped req s₀ s held req.startVirt phys size := hend
    exact ⟨_, s, rfl, hmapped.wf, fun _ => hmapped, fun h => absurd rfl h,
      fun _ => hmapped.changes.flushed⟩
  | error err =>
    obtain ⟨e, remaining⟩ := err
    obtain ⟨done, s₁, hdone, hmod, rfl, hmapped, hwf', Q, hchanges, hQ⟩ := hend
    have hfeat : s.feat = s₀.feat := hchanges.feat.trans hmapped.changes.feat
    have hpart : InHalf s.feat.levels req.startVirt done := by
      rw [hfeat]
      exact hin.mono le_rfl (by omega)
    have hfits : Fits s req.startVirt done :=
      hmapped.fits.of_changes hmapped.wf hwf' hchanges fun w _ => .inl (Set.notMem_empty w)
    obtain ⟨r, s₂, hunmap, hwf₂, hchanges₂, hok, hfail⟩ :=
      unmapRange_ok (hin.lt hwf.levels hdone) hstart hmod hpart hwf'
    -- the part that was mapped cuts no leaf, so it can be unmapped
    have hr : r = .ok () := by
      by_contra hne
      exact (hfail hne).1 hfits
    obtain ⟨hgone, hflushed⟩ := hok hr
    have hleft : size - (size - done) = done := by omega
    simp only [hleft, hunmap]
    refine ⟨_, s₂, rfl, hwf₂, (by simp), fun _ => ?_, fun hflush => ?_⟩
    · refine ⟨_, ((hmapped.changes.trans hchanges).trans hchanges₂).restrict fun w hw _ => ?_⟩
      have hin' : w ∈ Seg s₀.feat.levels req.startVirt done := by
        rw [hfeat] at hw
        simpa using hw
      rw [hgone w (by rwa [hfeat]), hmapped.hole w hin']
    · have hbefore : Changes s₀ s (Seg s₀.feat.levels req.startVirt done) ∅ := by
        rw [hQ hflush] at hchanges
        exact hmapped.changes.trans_right hchanges
      exact hbefore.flushed.trans hbefore hflushed

end

end

/-! ## Whole calls -/

/-- A map whose root table is empty. -/
def fresh (feat : PagingFeatures) (root : Nat) (free : List Nat)
    (outcomes : List (Option Nat)) : PageMap :=
  { feat := feat, root := root, free := free, outcomes := outcomes }

theorem fresh_wf [Callers] {feat : PagingFeatures} {root : Nat} {free : List Nat}
    (outcomes : List (Option Nat))
    (hL : feat.levels = 4 ∨ feat.levels = 5) (hnodup : (root :: free).Nodup)
    (hframes : ∀ f ∈ free, f < 2 ^ 40) : WF (fresh feat root free outcomes) [] := by
  have hload : ∀ p, (fresh feat root free outcomes).load p = 0 := fun _ => rfl
  -- without directories only the root is reached
  have hroot : ∀ {v l f}, Reaches (fresh feat root free outcomes) v l f →
      l = feat.levels ∧ f = root := by
    intro v l f h
    cases h with
    | root => exact ⟨rfl, rfl⟩
    | step h hdir =>
      rw [hload] at hdir
      exact absurd hdir (not_isDirectory_zero _)
  obtain ⟨hfresh, hnodup⟩ := List.nodup_cons.1 hnodup
  refine ⟨hL, ?_, ?_, by simpa [fresh] using hnodup, ?_, by simpa [fresh] using hframes⟩
  · intro v l w m f hv hw
    refine ⟨(hroot hv).1.trans (hroot hw).1.symm, ?_⟩
    rw [(hroot hv).1]
    exact (page_top _ v).trans (page_top _ w).symm
  · intro v l f _
    rw [hload]
    exact ⟨fun h => by simp [present] at h, fun h => by simp [present] at h,
      fun h => by simp [present] at h⟩
  · intro f hf v l hv
    rw [(hroot hv).2] at hf
    exact hfresh (by simpa [fresh] using hf)

/-- **`map_range` maps all of a range or nothing.**  Leaves may be split, so what a call leaves
alone is the frame and the attributes `translate` gives, not the size of the leaf; and a frame
address from 2^52 on, a protection key from 16 on or the Swapped flag have no room in a leaf. -/
theorem mapRange_all_or_nothing {s : PageMap} {held : List Nat} (hwf : WF s held)
    {start phys size : Nat} (hin : InHalf s.feat.levels start size) (hstart64 : start < 2 ^ 64)
    (hphys64 : phys < 2 ^ 64) (hstart : start % pageSize = 0) (hphys : phys % pageSize = 0)
    (hsize : size % pageSize = 0) (flags : AccessFlags) (cache : CacheMode) (pkey : Nat) :
    ∃ r s', s.mapRange start phys size flags cache pkey = some (r, s') ∧
      (∀ w, Canonical s.feat.levels w → (r = .ok () → ¬ (start ≤ w ∧ w < start + size)) →
        s'.view w = s.view w) ∧
      (r = .ok () → flags.has .swapped = false → phys + size ≤ 2 ^ 52 → pkey < 16 →
        ∀ k < size, ∃ t, s'.translate (start + k) = some t ∧ t.physAddress = phys + k ∧
          t.flags.has .user = flags.has .user ∧
          (s.feat.nx = true → t.flags.has .execute = flags.has .execute) ∧
          t.flags.has .write = (flags.has .write && !flags.has .copyOnWrite) ∧ t.pkey = pkey ∧
          t.cache = cache) := by
  cases huser : userInKernelHalf start flags with
  | true =>
    refine ⟨.error .securityViolation, s, by simp [mapRange, huser], fun _ _ _ => rfl, nofun⟩
  | false =>
    have hreq : (MapRequest.mk start flags cache pkey).startVirt = start := rfl
    obtain ⟨r, s', heq, -, hok, hfail, -⟩ :=
      mapRange_ok hin hstart hsize hphys hreq huser hwf hstart64 hphys64
    refine ⟨r, s', heq, fun w hcanon hout => ?_, fun hr hswapped hbound hkey k hk => ?_⟩
    · by_cases hr : r = .ok ()
      · apply (hok hr).changes.view w
        exact fun hw => hout hr ((hin.mem_iff_seg hwf.levels hcanon).2 hw)
      · obtain ⟨Q, hchanges⟩ := hfail hr
        exact hchanges.quiet w
    · have hlin := hin.lin_add hwf.levels hk
      have hfeat := (hok hr).changes.feat
      obtain ⟨m, hm, hrequested⟩ :=
        (hok hr).shows hswapped hbound (start + k) (add_mem_seg _ start hk)
      obtain ⟨t, ht, rfl⟩ := Option.map_eq_some_iff.1 hm
      rw [hfeat, hlin, Nat.add_sub_cancel_left] at hrequested
      refine ⟨t, ht, hrequested.physAddress, hrequested.user, fun hnx => ?_, hrequested.write, ?_,
        hrequested.cache⟩
      · have hexec := hrequested.execute
        rw [hnx] at hexec
        exact hexec.trans (by simp)
      · exact hrequested.pkey.trans (Nat.mod_eq_of_lt hkey)

/-- Three pages in the lower half. -/
theorem mapRange_all_or_nothing_three :
    ∃ s', (fresh ⟨true, true, 4⟩ 1 [2, 3, 4, 5] [some 2, some 3, some 4]).mapRange
      0x400000000000 0x5000 0x3000 .write .writeBack 0 = some (.ok (), s') ∧
      ∃ t, s'.translate (0x400000000000 + 0x2008) = some t ∧ t.physAddress = 0x5000 + 0x2008 := by
  have hwf : WF (fresh ⟨true, true, 4⟩ 1 [2, 3, 4, 5] [some 2, some 3, some 4]) [] :=
    fresh_wf _ (.inl rfl) (by decide) (by decide)
  have hin : InHalf 4 0x400000000000 0x3000 := .inl (by decide)
  have hphys : 0x5000 < 2 ^ 64 := by decide
  have hsucceeds :
      ((fresh ⟨true, true, 4⟩ 1 [2, 3, 4, 5] [some 2, some 3, some 4]).mapRange 0x400000000000
      0x5000 0x3000 .write .writeBack 0).map (·.1) = some (.ok ()) := by decide +kernel
  obtain ⟨r, s', heq, -, hok⟩ :=
    mapRange_all_or_nothing hwf hin (by decide) hphys (by decide) (by decide)
    (by decide) .write .writeBack 0
  rw [heq] at hsucceeds
  obtain rfl : r = .ok () := Option.some.inj hsucceeds
  obtain ⟨t, ht, hframe, -⟩ := hok rfl (by decide) (by decide) (by decide) 0x2008 (by decide)
  exact ⟨s', heq, t, ht, hframe⟩

/-- A call that succeeds may map another frame, none at all or another key, and one that fails may
divide a 2 MiB leaf it does not map over. -/
theorem mapRange_truncates_and_splits :
    let s := fresh ⟨true, true, 4⟩ 1 [2, 3, 4, 5] [some 2, some 3, some 4]
    WF s [] ∧
      (s.mapRange 0 (2 ^ 52) 0x1000 .write .writeBack 0).map
        (fun x => (x.1, (x.2.translate 0).map (·.physAddress))) = some (.ok (), some 0) ∧
      (s.mapRange 0 0 0x1000 .swapped .writeBack 0).map (fun x => (x.1, x.2.translate 0)) =
        some (.ok (), none) ∧
      (s.mapRange 0 0 0x1000 .write .writeBack 16).map
        (fun x => (x.1, (x.2.translate 0).map (·.pkey))) = some (.ok (), some 0) ∧
      ((s.mapRange 0 0 0x200000 .write .writeBack 0).bind fun x =>
        (x.2.mapRange 0x1000 0 0x1000 .write .writeBack 0).map fun y =>
          (x.1, y.1, (x.2.translate 0).map (·.mappedSize), (y.2.translate 0).map (·.mappedSize))) =
        some (.ok (), .error .alreadyMapped, some .size2M, some .size4K) := by
  refine ⟨fresh_wf _ (.inl rfl) (by decide) (by decide), ?_, ?_, ?_, ?_⟩ <;> decide +kernel

end PageMap

end Erebus.Vmm
