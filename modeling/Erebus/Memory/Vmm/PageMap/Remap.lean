import Erebus.Memory.Vmm.PageMap.Undo

/-!
# Remapping a range

* `Remapped`: what `remap_range` has done when it comes to an address: the new mappings are there,
  and the log knows the old ones.
* `remapRange_ok`: the range is remapped and flushed, or every mapping is as it was.
-/

namespace Erebus.Vmm

open PTEntry

namespace PageMap

variable [Callers]

/-! ## Batches -/

omit [Callers] in
/-- The bytes of some of the slots. -/
theorem slots_bytes {c k n : Nat} (hc : 4096 ∣ c) (hcpos : 0 < c) (hpos : 0 < k) (hle : k ≤ n) :
    k * c % 4096 = 0 ∧ 0 < k * c ∧ k * c ≤ n * c :=
  ⟨Nat.mod_eq_zero_of_dvd (hc.mul_left k), Nat.mul_pos hpos hcpos, Nat.mul_le_mul_right c hle⟩

omit [Callers] in
/-- The slots a round takes: at least one, and no more than are left in the range and in the
table. -/
theorem batchPages_ok {L v l r : Nat} (hl : 1 ≤ l) (hL : l ≤ L) (hv : v % levelCoverage l = 0)
    (hr : levelCoverage l ≤ r) :
    let n := min (min r (levelCoverage (l + 1) - v % levelCoverage (l + 1)))
      (maxLogPtes * levelCoverage l) / levelCoverage l
    1 ≤ n ∧ n * levelCoverage l ≤ r ∧ Batch L v l n := by
  intro n
  have hpos := levelCoverage_pos l
  have hcov := levelCoverage_succ hl
  have hlt : v % levelCoverage (l + 1) < levelCoverage (l + 1) := Nat.mod_lt _ (levelCoverage_pos _)
  have hmod : v % levelCoverage (l + 1) % levelCoverage l = 0 := by
    rw [Nat.mod_mod_of_dvd _ (levelCoverage_dvd (Nat.le_succ l)), hv]
  -- the rest of the table is a whole number of slots
  have hstep : levelCoverage l ≤ levelCoverage (l + 1) - v % levelCoverage (l + 1) := by
    obtain ⟨k, hk⟩ := Nat.dvd_of_mod_eq_zero hmod
    rw [hk] at hlt ⊢
    rw [hcov] at hlt ⊢
    have hk512 : k < 512 := Nat.lt_of_mul_lt_mul_left hlt
    calc levelCoverage l = levelCoverage l * (k + 1) - levelCoverage l * k := by
          rw [Nat.mul_succ, Nat.add_sub_cancel_left]
      _ ≤ levelCoverage l * 512 - levelCoverage l * k :=
          Nat.sub_le_sub_right (Nat.mul_le_mul_left _ hk512) _
  have hlog : levelCoverage l ≤ maxLogPtes * levelCoverage l := Nat.le_mul_of_pos_left _ (by decide)
  have hle : n * levelCoverage l ≤
      min (min r (levelCoverage (l + 1) - v % levelCoverage (l + 1)))
        (maxLogPtes * levelCoverage l) :=
    Nat.div_mul_le_self _ _
  refine ⟨(Nat.one_le_div_iff hpos).2 (by omega), by omega, hl, hL, hv, by omega⟩

/-! ## The loop -/

/-- What `remap_range` has done when it comes to an address. -/
structure Remapped (req : MapRequest) (s₀ s : PageMap) (held : List Nat) (start phys n : Nat)
    (log : List UndoLogNode) :
    Prop extends Undoable s₀ s (log.map UndoLogNode.page ++ held) start n log where
  shows : Shows req s start phys n
  bytes : n = (RollbackGuard.mk start log 0).loggedBytes

section Loop

variable {req : MapRequest} {s₀ s : PageMap} {held : List Nat} {start phys size : Nat}

omit [Callers] in
theorem remapSize_ok (mapped : PageSize) {currVirt currPhys remaining : Nat}
    (hvirt : currVirt % 4096 = 0) (hphys : currPhys % 4096 = 0) (hleft : 4096 ≤ remaining) :
    let target := remapSize mapped currVirt currPhys remaining
    target.level ≤ mapped.level ∧ sizeToBytes target ≤ remaining ∧
    currVirt % sizeToBytes target = 0 ∧ currPhys % sizeToBytes target = 0 := by
  simp only [remapSize]
  split
  · rename_i h
    simp only [isAligned, decide_eq_true_eq] at h
    exact ⟨h.1, h.2.1, h.2.2.1, h.2.2.2⟩
  · split
    · rename_i h
      simp only [isAligned, decide_eq_true_eq] at h
      exact ⟨h.1, h.2.1, h.2.2.1, h.2.2.2⟩
    · exact ⟨PageSize.level_pos mapped, hleft, hvirt, hphys⟩

/-- What the loop knows before a round. -/
def RemapInv (req : MapRequest) (s₀ : PageMap) (held : List Nat) (start phys size : Nat)
    (st : RemapState) : Prop :=
  ∃ done, done ≤ size ∧ done % 4096 = 0 ∧ st.guard.startVirt = start ∧
    st.guard.attemptedBytes = done ∧
    st.currVirt = add64 start done ∧ st.currPhys = add64 phys done ∧ st.remaining = size - done ∧
    Remapped req s₀ st.map held start phys done st.guard.log

/-- What it knows when it ends. -/
def RemapEnd (req : MapRequest) (s₀ : PageMap) (held : List Nat) (start phys size : Nat) :
    Except Error Unit × PageMap × RollbackGuard → Prop
  | (r, s, guard) =>
    guard.startVirt = start ∧ guard.attemptedBytes ≤ size ∧ guard.attemptedBytes % 4096 = 0 ∧
      ∃ n ≤ size, Remapped req s₀ s held start phys n guard.log ∧ (r = .ok () → n = size)

variable (hin : InHalf s₀.feat.levels start size)

section Batches

variable {done n f : Nat} {log : List UndoLogNode}

omit [Callers] in
/-- The same, as `remap_range` asks it. -/
theorem isDirectory_ne {target : PageSize} {e : PTEntry} (hpresent : e.present = true) :
    IsDirectory target.level e ↔ target ≠ .size4K ∧ (!e.huge) = true := by
  rw [isDirectory_iff]
  cases target <;> simp [PageSize.level, hpresent]

variable {page : Nat} {target : PageSize} (hn : done + n * sizeToBytes target ≤ size)
  (hbatch : Batch s₀.feat.levels (start + done) target.level n)
  (hupper : req.OwnHalf s₀.feat.levels (start + done))
  (hphys : add64 phys done % sizeToBytes target = 0)
  (hgib : target = .size1G → s₀.feat.huge1g = true)
include hin hn hbatch hupper hphys hgib

/-- One slot: the old leaf goes to the log, and the new one in its place. -/
theorem Remapped.slot {ptes : List PTEntry} (h : Remapped req s₀ s held start phys
      (done + ptes.length * sizeToBytes target) (⟨page, start + done, target, ptes⟩ :: log))
    (hi : ptes.length < n) (hr : Reaches s (start + done) target.level f)
    (hleaf : ¬ IsDirectory target.level
      (s.load ((slotOf (start + done) target.level f).at ptes.length))) :
    let pte := (slotOf (start + done) target.level f).at ptes.length
    let s' :=
      s.store pte
        (req.leaf s₀.feat (add64 (add64 phys done) (ptes.length * sizeToBytes target)) target)
    Remapped req s₀ s' held start phys (done + (ptes ++ [s.load pte]).length * sizeToBytes target)
        (⟨page, start + done, target, ptes ++ [s.load pte]⟩ :: log) ∧
        Reaches s' (start + done) target.level f := by
  have hfeat := h.changes.feat
  obtain ⟨hnext, hspan, haddr, hslot, halign, hsub⟩ :=
    UndoLogNode.next_ok page (hfeat ▸ h.wf.levels) hin hn hbatch hi
  rw [hslot] at hleaf
  obtain ⟨s', hs', hundo, hrnext, hsame, hother⟩ := h.toUndoable.replace (e := req.leaf s₀.feat
      (add64 (add64 phys done) (ptes.length * sizeToBytes target)) target)
    hsub hspan le_rfl haddr hr hleaf (buildSchema_not_directory _ _ _ _ _ _)
      (leaf_entryOk hupper hgib _)
  have hfeat' : s'.feat = s.feat := by rw [← hs']; rfl
  have hfeat₀ : s'.feat = s₀.feat := hfeat'.trans hfeat
  simp only [List.length_append, List.length_singleton, hslot, hs', hnext]
  refine ⟨⟨hundo, h.shows.add hfeat' (fun w hw => hother w ?_) (by rwa [hfeat]) ?_, ?_⟩, hrnext⟩
  · rw [hfeat] at hw
    exact seg_apart hspan hw
  · have hle : target.level ≤ s'.feat.levels + 1 := by
      rw [hfeat₀]
      exact hbatch.le.trans (Nat.le_succ _)
    rw [← add64_add64]
    refine Shows.leaf hle halign (add64_mod _ hphys _) fun w hw => ?_
    rw [SamePage, page_eq_iff_seg hle halign, hfeat₀] at hw
    rw [hfeat₀]
    exact hsame w hw
  · exact (congrArg (· + sizeToBytes target) h.bytes).trans (loggedBytes_push ..).symm

/-- All slots of a batch, up to the first that holds no leaf. -/
theorem remapSlots_ok
    (h : Remapped req s₀ s held start phys done (⟨page, start + done, target, []⟩ :: log))
    (hr : Reaches s (start + done) target.level f)
    (hlevel : (s.probe (start + done)).level = target.level) : Sum.elim
      (fun x => x.2.length = n ∧
        Remapped req s₀ x.1 held start phys (done + x.2.length * sizeToBytes target)
        (⟨page, start + done, target, x.2⟩ :: log))
          (fun x => x.2.2.length < n ∧ (x.1 = none → x.2.2 ≠ []) ∧
        Remapped req s₀ x.2.1 held start phys (done + x.2.2.length * sizeToBytes target)
          (⟨page, start + done, target, x.2.2⟩ :: log))
      (Loop.upTo (remapSlot (slotOf (start + done) target.level f) target fun i =>
        req.leaf s₀.feat (add64 (add64 phys done) (i * sizeToBytes target)) target) n (s, [])) := by
  refine Loop.elim_mono (fun x hx => ⟨hx.1, hx.2.1⟩) (fun x hx => hx) (Loop.upTo_ok
    (fun i x => x.2.length = i ∧ Remapped req s₀ x.1 held start phys
        (done + x.2.length * sizeToBytes target) (⟨page, start + done, target, x.2⟩ :: log) ∧
      Reaches x.1 (start + done) target.level f ∧ (i = 0 → x.1 = s)) _ ?_ ?_)
  · rintro i ⟨s', ptes⟩ hi ⟨rfl, hremapped, hr', hfirst⟩
    simp only at hremapped hr' hfirst hi
    simp only [remapSlot]
    cases hpresent : (s'.load ((slotOf (start + done) target.level f).at ptes.length)).present with
    | false => exact ⟨hi, nofun, hremapped⟩
    | true =>
      simp only [Bool.not_true, Bool.false_eq_true, if_false]
      simp only [← isDirectory_ne hpresent]
      by_cases hdir :
        IsDirectory target.level (s'.load ((slotOf (start + done) target.level f).at ptes.length))
      · rw [if_pos hdir]
        refine ⟨hi, fun _ => ?_, hremapped⟩
        rintro rfl
        -- the first slot is the leaf of the address the round started with
        obtain rfl := hfirst rfl
        exact not_directory_of_level hr' (PageSize.level_pos target) hlevel hdir
      · rw [if_neg hdir]
        obtain ⟨hnext, hrnext⟩ := hremapped.slot hin hn hbatch hupper hphys hgib hi hr' hdir
        exact ⟨List.length_append, hnext, hrnext, fun h => absurd h (Nat.succ_ne_zero _)⟩
  · refine ⟨rfl, ?_, hr, fun _ => rfl⟩
    simpa using h

end Batches

omit [Callers] in
theorem translate_some {v : Nat} {found : TranslationResult} (hL : 1 ≤ s.feat.levels)
    (h : s.translate v = some found) :
    (s.probe v).value.present = true ∧ found.mappedSize.level = (s.probe v).level := by
  simp only [translate] at h
  split at h
  swap
  · cases h
  rename_i hpresent
  refine ⟨hpresent, ?_⟩
  have h3 := probe_level_le_three hL hpresent
  obtain ⟨l, f, hl, -, -, hprobe⟩ := probe_reaches hL v
  rw [hprobe] at h h3 ⊢
  simp only at h h3 ⊢
  simp only [interpret] at h
  split at h
  · cases h
  · simp only [Option.some.injEq] at h
    subst h
    obtain rfl | rfl | rfl : l = 1 ∨ l = 2 ∨ l = 3 := by omega
    all_goals rfl

theorem Remapped.before {s' : PageMap} {n : Nat} {log : List UndoLogNode}
    (h : Remapped req s₀ s held start phys n log) (hc : Changes s s' ∅ ∅)
    (hundo : Undoable s₀ s' (log.map UndoLogNode.page ++ held) start n log) :
    Remapped req s₀ s' held start phys n log where
  toUndoable := hundo
  shows := h.shows.congr hc.feat fun w _ => hc.quiet w
  bytes := h.bytes

/-- Leaves at level 3 are only on CPUs that know them. -/
theorem gib_of_level {v : Nat} (hwf : WF s held) (hpresent : (s.probe v).value.present = true)
    (h3 : (s.probe v).level = 3) : s.feat.huge1g = true := by
  obtain ⟨l, f, hl, hr, hleaf, hprobe⟩ := probe_reaches hwf.levels_pos v
  rw [hprobe] at hpresent h3
  exact (hwf.entries hr).gib hpresent hleaf h3

variable (hstart : start % 4096 = 0) (hsize : size % 4096 = 0)
  (hphys : phys % 4096 = 0) (hreq : req.startVirt = start)

include hin hstart hsize hphys hreq

/-- One round: the leaves of one table from the current address on. -/
theorem remapRound_ok (hwf₀ : WF s₀ held) (st : RemapState)
    (hinv : RemapInv req s₀ held start phys size st) :
    Sum.elim (fun st' => RemapInv req s₀ held start phys size st' ∧
        st'.remaining / 4096 < st.remaining / 4096)
      (RemapEnd req s₀ held start phys size)
      (remapRound (leafFlags req.startVirt req.flags) req.cache req.pkey st) := by
  obtain ⟨s, ⟨gstart, log, attempted⟩, curr, currPhys, remaining⟩ := st
  obtain ⟨done, hdone, hmod, hgstart, hattempted, hcurr, hcurrPhys, hremaining, h⟩ := hinv
  simp only at hgstart hattempted hcurr hcurrPhys hremaining h
  subst hgstart hattempted hcurr hcurrPhys hremaining
  simp only [remapRound]
  by_cases hlt : 0 < size - attempted
  swap
  · rw [if_neg hlt]
    exact ⟨rfl, hdone, hmod, attempted, hdone, h, fun _ => by omega⟩
  rw [if_pos hlt]
  have hL := hwf₀.levels
  have hfeat := h.changes.feat
  have hless : attempted < size := by omega
  have hspan := hin.lin_le hL (by omega)
  have hv64 := hin.lt hL hless
  have hcanon := hin.canonical hL hless
  have hhalf := hin.isUpperHalf_add hL hless
  have hadd : add64 gstart attempted = gstart + attempted := Nat.mod_eq_of_lt hv64
  have hout : gstart + attempted ∉ Seg s₀.feat.levels gstart attempted :=
    add_notMem_seg (by omega) le_rfl
  -- a failure before the first slot of the round
  have hfail : ∀ {s'} e, Remapped req s₀ s' held gstart phys attempted log →
      RemapEnd req s₀ held gstart phys size (.error e, s', ⟨gstart, log, attempted⟩) :=
    fun e h' => ⟨rfl, hdone, hmod, attempted, hdone, h', nofun⟩
  rw [hadd]
  cases htranslate : s.translate (gstart + attempted) with
  | none => exact hfail _ h
  | some found =>
    obtain ⟨hpresent, hmapped⟩ := translate_some h.wf.levels_pos htranslate
    have hphys' : add64 phys attempted % 4096 = 0 := by
      rw [add64]
      omega
    obtain ⟨hlevel, hbytes, hvirt, hframe⟩ := remapSize_ok found.mappedSize
      (show (gstart + attempted) % 4096 = 0 by omega) hphys' (show 4096 ≤ size - attempted by omega)
    simp only
    generalize remapSize found.mappedSize (gstart + attempted) (add64 phys attempted)
      (size - attempted) = target at hlevel hbytes hvirt hframe
    rw [hmapped] at hlevel
    have hgib : target = .size1G → s₀.feat.huge1g = true := by
      rintro rfl
      rw [← hfeat]
      exact gib_of_level h.wf hpresent
        (le_antisymm (probe_level_le_three h.wf.levels_pos hpresent) hlevel)
    have hupper : req.OwnHalf s₀.feat.levels (gstart + attempted) := by
      intro _
      rw [upperOf_eq hL hcanon, hhalf, hreq]
    obtain ⟨r, s₁, hwalk, hwalked, hreach⟩ := walk_ok h.wf (gstart + attempted) false target
    have h₁ := h.before hwalked.changes (h.toUndoable.walked hwalked hout)
    rw [hwalk]
    cases r with
    | error e => exact hfail e h₁
    | ok pte =>
      obtain ⟨f, hr, rfl⟩ := hreach pte rfl
      obtain ⟨r, s₂, halloc, hwf₂, hchanges₂, hmem₂⟩ := allocPages_ok hwalked.wf
      have hquiet₂ := Quiet.of_mem hchanges₂ hmem₂
      simp only [halloc]
      cases r with
      | none => exact hfail _ (h₁.before hquiet₂.toChanges (h₁.toUndoable.quiet hwf₂ hquiet₂))
      | some page =>
        have hr₂ := hquiet₂.tables hr
        have hlevel₂ : (s₂.probe (gstart + attempted)).level = target.level :=
          le_antisymm hr₂.probe_level_le (by rw [hquiet₂.probe]; exact hwalked.level _ hlevel)
        have h₂ : Remapped req s₀ s₂ held gstart phys attempted
            (⟨page, gstart + attempted, target, []⟩ :: log) := by
          refine ⟨(h₁.toUndoable.quiet hwf₂ hquiet₂).begin page hr₂ hvirt,
            (h₁.shows.congr hquiet₂.feat fun w _ => hquiet₂.quiet w), ?_⟩
          have hb := h.bytes
          simpa [RollbackGuard.loggedBytes] using hb
        have hfeat₂ : s₂.feat = s₀.feat := (hquiet₂.feat.trans hwalked.changes.feat).trans hfeat
        obtain ⟨hn, hnle, hbatch⟩ :
            let n := min (min (size - attempted) (levelCoverage (target.level + 1) -
                (gstart + attempted) % levelCoverage (target.level + 1)))
              (maxLogPtes * sizeToBytes target) / sizeToBytes target
            1 ≤ n ∧ n * sizeToBytes target ≤ size - attempted ∧
              Batch s₀.feat.levels (gstart + attempted) target.level n :=
          batchPages_ok (PageSize.level_pos target) (hfeat₂ ▸ hr₂.le) hvirt hbytes
        generalize min (min (size - attempted) (levelCoverage (target.level + 1) -
            (gstart + attempted) % levelCoverage (target.level + 1)))
          (maxLogPtes * sizeToBytes target) / sizeToBytes target = n at hn hnle hbatch ⊢
        have hslots := remapSlots_ok hin (by omega) hbatch hupper hframe hgib h₂ hr₂ hlevel₂
        simp only [MapRequest.leaf, ← hfeat₂] at hslots
        -- the rest of a round that remapped some slots
        have hpass : ∀ {s' : PageMap} {logged : List PTEntry} {k : Nat},
            k = logged.length * sizeToBytes target → 0 < logged.length → logged.length ≤ n →
            Remapped req s₀ s' held gstart phys (attempted + k)
              (⟨page, gstart + attempted, target, logged⟩ :: log) →
            RemapInv req s₀ held gstart phys size
              ⟨s', ⟨gstart, ⟨page, gstart + attempted, target, logged⟩ :: log,
              attempted + k⟩, add64 (gstart + attempted) k, add64 (add64 phys attempted) k,
            size - attempted - k⟩ ∧ (size - attempted - k) / 4096 < (size - attempted) / 4096 := by
          intro s' logged k hk hpos hle h'
          obtain ⟨hmul, hmulPos, hmulLe⟩ :=
            slots_bytes (c := sizeToBytes target) (dvd_levelCoverage _)
              (levelCoverage_pos _) hpos hle
          rw [← hk] at hmul hmulPos hmulLe
          refine ⟨⟨attempted + k, by omega, by omega, rfl, rfl, ?_, ?_, Nat.sub_sub ..,
            h'⟩, by omega⟩
          · rw [← hadd, add64_add64]
          · rw [add64_add64]
        simp only
        split
        · rename_i e s' logged heq
          rw [heq] at hslots
          obtain ⟨hlen, -, h'⟩ := hslots
          have hmulLe : logged.length * sizeToBytes target ≤ n * sizeToBytes target :=
            Nat.mul_le_mul_right _ hlen.le
          exact ⟨rfl, hdone, hmod, attempted + logged.length * sizeToBytes target, by omega,
            h', nofun⟩
        · rename_i s' logged heq
          rw [heq] at hslots
          obtain ⟨hlen, hne, h'⟩ := hslots
          exact hpass rfl (List.length_pos_of_ne_nil (hne rfl)) hlen.le h'
        · rename_i s' logged heq
          rw [heq] at hslots
          obtain ⟨hlen, h'⟩ := hslots
          simp only at hlen
          exact hpass rfl (by omega) hlen.le h'

/-- The guard of a `remap_range` that failed had counted every slot it logged. -/
def RemapCounted (s : PageMap) (start phys size : Nat) (flags : AccessFlags) (cache : CacheMode)
    (pkey : Nat) : Prop :=
  ∀ e s' guard, s.remapLoop start phys size flags cache pkey = some (.error e, s', guard) →
    guard.loggedBytes = guard.attemptedBytes

/-- **`remap_range`.**  The range is remapped and flushed, or every mapping is as it was. -/
theorem remapRange_ok (hwf : WF s₀ held) (hstart64 : start < 2 ^ 64) (hphys64 : phys < 2 ^ 64)
    (huser : (isUpperHalf start && req.flags.has .user) = false) :
    ∃ r s, s₀.remapRange start phys size req.flags req.cache req.pkey = some (r, s) ∧ WF s held ∧
      (r = .ok () → (∃ Q, Changes s₀ s (Seg s₀.feat.levels start size) Q) ∧
        Shows req s start phys size ∧ Flushed s₀ s) ∧ (r ≠ .ok () → (∃ Q, Changes s₀ s ∅ Q) ∧
        (RemapCounted s₀ start phys size req.flags req.cache req.pkey → Flushed s₀ s)) := by
  have hround := remapRound_ok hin hstart hsize hphys hreq hwf
  have hinit : RemapInv req s₀ held start phys size ⟨s₀, ⟨start, [], 0⟩, start, phys, size⟩ := by
    refine ⟨0, Nat.zero_le _, rfl, rfl, rfl, ?_, ?_, rfl, Undoable.init hwf start,
      Shows.init req s₀ start phys, rfl⟩
    · exact (Nat.mod_eq_of_lt hstart64).symm
    · exact (Nat.mod_eq_of_lt hphys64).symm
  have hfuel : size / 4096 < rounds size := by
    rw [rounds, pageSize_eq]
    omega
  obtain ⟨⟨r, s, guard⟩, hrun, hend⟩ := Loop.run_ok (RemapInv req s₀ held start phys size)
    (RemapEnd req s₀ held start phys size) (fun st => st.remaining / 4096) hround hinit hfuel
  subst hreq
  have hloop : s₀.remapLoop req.startVirt phys size req.flags req.cache req.pkey =
      some (r, s, guard) := hrun
  obtain ⟨hgstart, hattempted, hmod, n, hn, hremapped, hall⟩ := hend
  simp only [remapRange, huser, not_isAligned hstart, not_isAligned hphys,
    not_isAligned hsize, Bool.or_self, Bool.false_eq_true, if_false, hloop]
  cases r with
  | error e =>
    obtain ⟨gstart, log, attempted⟩ := guard
    simp only at hgstart hattempted hmod hremapped
    subst hgstart
    have hempty : log = [] → n = 0 := by
      rintro rfl
      exact hremapped.bytes
    obtain ⟨hwf', hchanges, hflushed⟩ :=
      rollback_ok ⟨req.startVirt, log, attempted⟩ hremapped.toUndoable hempty
    refine ⟨_, _, rfl, hwf', (by simp), fun _ => ⟨⟨_, hchanges⟩, fun hcounted => ?_⟩⟩
    have hsame : n = attempted := hremapped.bytes.trans (hcounted e s _ hloop)
    exact hflushed (hin.mono le_rfl (Nat.add_le_add_left hattempted _)) hstart hmod hsame.le
  | ok _ =>
    obtain rfl := hall rfl
    obtain ⟨hwf', hchanges'⟩ := freeLog_ok (broadcast_wf hremapped.wf req.startVirt n .size4K)
    have hquiet := (broadcast_changes hremapped.wf req.startVirt n .size4K)
    have hchanges := hremapped.changes.trans_right hquiet
    refine ⟨_, _, rfl, hwf', fun _ => ⟨⟨_, hchanges.trans_right hchanges'⟩, ?_, ?_⟩,
      fun h => absurd rfl h⟩
    · apply hremapped.shows.congr (hquiet.trans_left hchanges').feat
      exact fun w _ => (hquiet.trans_left hchanges').quiet w
    · exact (hremapped.changes.flush hremapped.wf hin hstart hsize).trans hchanges hchanges'.flushed

end Loop

end PageMap

end Erebus.Vmm
