import Erebus.Lib.System
import Erebus.Memory.Vmm.PageMap.Remap

/-!
# Changing the protection of a range

* `Protects`: a mapping has the new permissions and is otherwise the old one.
* `protectRange_ok`: the loop of `protect_virtual_range` ends; every mapped page of the range has
  the new permissions, or every mapping is as it was.
* `range_updates_all_or_nothing`: both range updates with an undo log.
* `run_coherent`: the TLBs after any run of calls on ranges.
-/

namespace Erebus.Vmm

open PTEntry PageMap BitField

/-! ## Entries -/

/-- The mapping has the permissions, except that write access to a copy-on-write page is withheld,
and is otherwise the old one. -/
structure Protects (prot : Protection) (old new : Mapping) : Prop where
  physAddress : new.physAddress = old.physAddress
  cache : new.cache = old.cache
  pkey : new.pkey = old.pkey
  write : new.flags.has .write = (prot.writable && !old.flags.has .copyOnWrite)
  execute : new.flags.has .execute = !prot.noExec
  user : new.flags.has .user = prot.user

/-- Holes stay holes. -/
def ProtectedView (prot : Protection) : Option Mapping → Option Mapping → Prop
  | none, new => new = none
  | some old, new => ∃ m, new = some m ∧ Protects prot old m

/-- The fields `protect_virtual_range` leaves alone, and those it sets. -/
theorem protectedEntry_fields (prot : Protection) (e : PTEntry) (size : PageSize) (isHuge : Bool) :
    let e' := protectedEntry prot e
    e'.present = e.present ∧ e'.huge = e.huge ∧ e'.swapped = e.swapped ∧ e'.cow = e.cow ∧
      e'.global = e.global ∧ e'.pkey = e.pkey ∧ extractCache e' isHuge = extractCache e isHuge ∧
      extractAddress e' size = extractAddress e size ∧ e'.rw = (prot.writable && !e.cow) ∧
      e'.nx = prot.noExec ∧ e'.user = prot.user := by
  intro e'
  have hflag : ∀ i, i ≠ 1 ∧ i ≠ 2 ∧ i ≠ 63 → flag i e' = flag i e := by
    rintro i ⟨h1, h2, h63⟩
    simp only [e', protectedEntry, setUser, setNx, setRw, flag_setFlag_of_ne h1,
      flag_setFlag_of_ne h2, flag_setFlag_of_ne h63]
  have hget : ∀ off width, 3 ≤ off → off + width ≤ 63 →
      get off width e' = get off width e := by
    intro off width hlow hhigh
    simp only [e', protectedEntry, setUser, setNx, setRw]
    rw [get_setFlag (by omega), get_setFlag (by omega), get_setFlag (by omega)]
  refine ⟨hflag 0 (by decide), hflag 7 (by decide),
    hflag 11 (by decide), hflag 9 (by decide),
    hflag 8 (by decide), hget 59 4 (by decide) (by decide), ?_, ?_, ?_, ?_, ?_⟩
  · simp only [extractCache, patLarge, pat4k, pcd, pwt, hflag 12 (by decide),
      hflag 7 (by decide), hflag 4 (by decide),
      hflag 3 (by decide)]
  · have hswapped := hflag 11 (by decide)
    cases hb : flag 11 e <;> cases size <;>
      simp [extractAddress, swapped, pfn4k, pfn2m, pfn1g, hswapped, hb, hget]
  · simp [e', protectedEntry, setUser, setNx, setRw, rw, flag_setFlag, flag_setFlag_of_ne]
  · simp [e', protectedEntry, setUser, setNx, setRw, nx, flag_setFlag, flag_setFlag_of_ne]
  · simp [e', protectedEntry, setUser, user, flag_setFlag]

theorem protectedEntry_directory (prot : Protection) (e : PTEntry) (lvl : Nat) :
    IsDirectory lvl (protectedEntry prot e) ↔ IsDirectory lvl e := by
  obtain ⟨hpresent, hhuge, -⟩ := protectedEntry_fields prot e .size4K true
  rw [IsDirectory, IsDirectory, hpresent, hhuge]

theorem protectedEntry_ok [Callers] {feat : PagingFeatures} {upper : Bool} {lvl : Nat}
    {prot : Protection}
    {e : PTEntry} (hnx : prot.noExec = true → feat.nx = true) (h : EntryOk feat upper lvl e) :
    EntryOk feat upper lvl (protectedEntry prot e) := by
  obtain ⟨hpresent, hhuge, hswapped, hcow, hglobal, -, -, -, hrw, henx, -⟩ :=
    protectedEntry_fields prot e .size4K true
  refine ⟨?_, ?_, ?_⟩
  · rw [hpresent, hhuge]
    exact h.reserved
  · rw [hpresent, protectedEntry_directory]
    intro hp hleaf
    obtain ⟨hs, -, -, hg⟩ := h.leaf hp hleaf
    refine ⟨hswapped.trans hs, fun hc => ?_, fun hn => hnx (henx.symm.trans hn), fun hc => ?_⟩
    · rw [hrw, ← hcow, hc, Bool.not_true, Bool.and_false]
    · exact hglobal.trans (hg hc)
  · rw [hpresent, protectedEntry_directory]
    exact h.gib

/-- A leaf with new permissions. -/
theorem leafView_protected (prot : Protection) (l : Nat) (e : PTEntry) (w : Nat) :
    ProtectedView prot (leafView l e w) (leafView l (protectedEntry prot e) w) := by
  obtain ⟨hpresent, -, -, hcow, -, hpkey, hcache, haddr, hrw, hnx, huser⟩ :=
    protectedEntry_fields prot e (PageSize.ofLevel l) (decide (1 < l))
  obtain ⟨ewrite, euser, -, eexec, -⟩ := extractFlags_has (protectedEntry prot e)
  have eold := (extractFlags_has e).2.2.2.2.1
  simp only [leafView, hpresent, interpret, haddr, hcache, hpkey]
  cases e.present with
  | false => rfl
  | true =>
    cases extractAddress e (PageSize.ofLevel l) with
    | none => rfl
    | some base =>
      refine ⟨_, rfl, rfl, rfl, rfl, ?_, ?_, ?_⟩
      · exact ewrite.trans (hrw.trans (congrArg (fun b => prot.writable && !b) eold.symm))
      · exact eexec.trans (congrArg _ hnx)
      · exact euser.trans huser

namespace PageMap

section

variable [Callers]

/-! ## The loop -/

/-- What `protect_virtual_range` has done when it comes to an address: the log knows all that it
changed, up to `n`, and everything before the address is protected. -/
structure Protected (prot : Protection) (s₀ s : PageMap) (held : List Nat) (start n done : Nat)
    (log : List UndoLogNode) :
    Prop extends Undoable s₀ s (log.map UndoLogNode.page ++ held) start n log where
  le : n ≤ done
  empty : log = [] → n = 0
  shown : ∀ w ∈ Seg s₀.feat.levels start done, ProtectedView prot (s₀.view w) (s.view w)

section Loop

variable {prot : Protection} {s₀ s : PageMap} {held : List Nat} {start size n done : Nat}
  {log : List UndoLogNode}

theorem Protected.before {s' : PageMap} (h : Protected prot s₀ s held start n done log)
    (hc : Changes s s' ∅ ∅)
    (hundo : Undoable s₀ s' (log.map UndoLogNode.page ++ held) start n log) :
    Protected prot s₀ s' held start n done log where
  toUndoable := hundo
  le := h.le
  empty := h.empty
  shown w hw := by
    rw [hc.quiet w]
    exact h.shown w hw

/-- A stretch without mappings is passed. -/
theorem Protected.skip {k : Nat} (h : Protected prot s₀ s held start n done log)
    (hspan : lin s₀.feat.levels start + (done + k) ≤ span s₀.feat.levels)
    (hnone : ∀ w ∈ Seg s₀.feat.levels (start + done) k, s.view w = none) :
    Protected prot s₀ s held start n (done + k) log where
  toUndoable := h.toUndoable
  le := h.le.trans (Nat.le_add_right _ _)
  empty := h.empty
  shown w hw := by
    rw [seg_add] at hw
    rcases hw with hw | hw
    · exact h.shown w hw
    · have hout : w ∉ Seg s₀.feat.levels start n :=
        fun hmem => seg_apart hspan (Seg.subset h.le hmem) hw
      rw [← h.changes.view w hout, hnone w hw]
      rfl

/-- The slots logged so far, and what they show. -/
structure Protecting (prot : Protection) (s₀ s : PageMap) (held : List Nat) (start done : Nat)
    (log : List UndoLogNode) :
    Prop extends Undoable s₀ s (log.map UndoLogNode.page ++ held) start done log where
  shown : ∀ w ∈ Seg s₀.feat.levels start done, ProtectedView prot (s₀.view w) (s.view w)

variable (hnx : prot.noExec = true → s₀.feat.nx = true) (hin : InHalf s₀.feat.levels start size)

section Slots

variable {page f : Nat} {lvl : PageSize} (hn : done + n * sizeToBytes lvl ≤ size)
  (hbatch : Batch s₀.feat.levels (start + done) lvl.level n)
include hnx hin hn hbatch

/-- One slot: it is logged, and a leaf in it gets the new permissions. -/
theorem Protecting.slot {ptes : List PTEntry}
    (h : Protecting prot s₀ s held start (done + ptes.length * sizeToBytes lvl)
      (⟨page, start + done, lvl, ptes⟩ :: log))
    (hi : ptes.length < n) (hr : Reaches s (start + done) lvl.level f)
    (hleaf : ¬ IsDirectory lvl.level
      (s.load ((slotOf (start + done) lvl.level f).at ptes.length))) :
    let pte := (slotOf (start + done) lvl.level f).at ptes.length
    let desired := protectedEntry prot (s.load pte)
    let s' := if (s.load pte).present && desired ≠ s.load pte then s.store pte desired else s
    Protecting prot s₀ s' held start (done + (ptes ++ [s.load pte]).length * sizeToBytes lvl)
        (⟨page, start + done, lvl, ptes ++ [s.load pte]⟩ :: log) ∧
        Reaches s' (start + done) lvl.level f := by
  have hfeat := h.changes.feat
  obtain ⟨hnext, hspan, haddr, hslot, halign, hsub⟩ :=
    UndoLogNode.next_ok page (hfeat ▸ h.wf.levels) hin hn hbatch hi
  simp only [List.length_append, List.length_singleton, hslot, hnext] at hleaf ⊢
  generalize hpart : done + ptes.length * sizeToBytes lvl = a at *
  have hrs : Reaches s (start + a) lvl.level f := by
    rw [← haddr]
    exact (hfeat ▸ hsub : Batch s.feat.levels _ _ _).reaches (Nat.lt_succ_self _) hr
  have hprobe := hrs.probe_of_leaf (PageSize.level_pos lvl) hleaf
  have hentry := h.wf.entries hrs
  have hview : ∀ w ∈ Seg s₀.feat.levels (start + a) (sizeToBytes lvl), s.view w =
      leafView lvl.level (s.load (slotOf (start + a) lvl.level f)) w := by
    intro w hw
    refine view_of_page h.wf.levels_pos hrs hleaf ?_
    rw [SamePage, hfeat]
    exact (page_eq_iff_seg (hbatch.le.trans (Nat.le_succ _)) halign).2 hw
  have hreplace :=
    h.toUndoable.replace (e := protectedEntry prot (s.load (slotOf (start + a) lvl.level f)))
    hsub hspan le_rfl haddr hr hleaf (mt (protectedEntry_directory prot _ _).1 hleaf)
  generalize hload : s.load (slotOf (start + a) lvl.level f) = e at *
  -- what the slot shows is what the address had in the beginning
  have hshown : ∀ {s' : PageMap}, (∀ w ∈ Seg s₀.feat.levels start a, s'.view w = s.view w) →
      (∀ w ∈ Seg s₀.feat.levels (start + a) (sizeToBytes lvl),
        ProtectedView prot (leafView lvl.level e w) (s'.view w)) →
      ∀ w ∈ Seg s₀.feat.levels start (a + sizeToBytes lvl),
      ProtectedView prot (s₀.view w) (s'.view w) := by
    intro s' hbefore hhere w hw
    rw [seg_add] at hw
    rcases hw with hw | hw
    · rw [hbefore w hw]
      exact h.shown w hw
    · rw [← h.changes.view w fun hw' => seg_apart hspan hw' hw, hview w hw]
      exact hhere w hw
  by_cases hstore : (e.present && decide (protectedEntry prot e ≠ e)) = true
  · rw [if_pos hstore]
    have hupper : upperOf s.feat.levels (start + a) = upperOf s₀.feat.levels (start + done) := by
      rw [hfeat, ← haddr]
      exact batch_upperOf hsub (Nat.lt_succ_self _) (hfeat ▸ level_succ_le h.wf _)
    rw [hupper, hfeat] at hentry
    obtain ⟨s', hs', hundo, hrnext, hsame, hother⟩ := hreplace (protectedEntry_ok hnx hentry)
    rw [hs']
    refine ⟨⟨hundo, hshown (fun w hw => hother w fun hw' => seg_apart hspan hw hw') fun w hw => ?_⟩,
      hrnext⟩
    rw [hsame w hw]
    exact leafView_protected prot _ _ w
  · rw [if_neg hstore]
    have hrecord := h.toUndoable.record hsub hspan le_rfl haddr (by rw [hprobe])
    rw [hprobe] at hrecord
    refine ⟨⟨hrecord, hshown (fun _ _ => rfl) fun w hw => ?_⟩, hr⟩
    rw [hview w hw]
    cases hpresent : e.present with
    | false =>
      rw [leafView, hpresent]
      rfl
    | true =>
      have hsame : protectedEntry prot e = e := by simpa [hpresent] using hstore
      have hprotected := leafView_protected prot lvl.level e w
      rwa [hsame] at hprotected

/-- All slots of a batch, up to the first that refers to a table. -/
theorem protectSlots_ok
    (h : Protecting prot s₀ s held start done (⟨page, start + done, lvl, []⟩ :: log))
    (hpos : 0 < n) (hr : Reaches s (start + done) lvl.level f)
    (hlevel : (s.probe (start + done)).level = lvl.level) :
    let P := fun x : PageMap × List PTEntry => 0 < x.2.length ∧ x.2.length ≤ n ∧
      Protecting prot s₀ x.1 held start (done + x.2.length * sizeToBytes lvl)
        (⟨page, start + done, lvl, x.2⟩ :: log)
    Sum.elim P P
      (Loop.upTo (protectSlot prot (slotOf (start + done) lvl.level f) lvl.level) n (s, [])) := by
  refine Loop.elim_mono (fun x hx => ⟨by rw [hx.1]; exact hpos, hx.1.le, hx.2.1⟩) (fun x hx => hx)
    (Loop.upTo_ok (fun i x => x.2.length = i ∧ Protecting prot s₀ x.1 held start
        (done + x.2.length * sizeToBytes lvl) (⟨page, start + done, lvl, x.2⟩ :: log) ∧
      Reaches x.1 (start + done) lvl.level f ∧ (i = 0 → x.1 = s)) _ ?_ ?_)
  · rintro i ⟨s', ptes⟩ hi ⟨rfl, hprotecting, hr', hfirst⟩
    simp only at hprotecting hr' hfirst hi
    simp only [protectSlot]
    simp only [← isDirectory_iff]
    by_cases hdir :
      IsDirectory lvl.level (s'.load ((slotOf (start + done) lvl.level f).at ptes.length))
    · rw [if_pos hdir]
      refine ⟨?_, hi.le, hprotecting⟩
      apply List.length_pos_of_ne_nil
      rintro rfl
      -- the first slot is the leaf of the address the round started with
      obtain rfl := hfirst rfl
      exact not_directory_of_level hr' (PageSize.level_pos lvl) hlevel hdir
    · rw [if_neg hdir]
      obtain ⟨hnext, hrnext⟩ := hprotecting.slot hnx hin hn hbatch hi hr' hdir
      exact ⟨List.length_append, hnext, hrnext, fun h => absurd h (Nat.succ_ne_zero _)⟩
  · refine ⟨rfl, ?_, hr, fun _ => rfl⟩
    simpa using h

end Slots

/-- What the loop knows before a round. -/
def ProtectInv (prot : Protection) (s₀ : PageMap) (held : List Nat) (start size : Nat)
    (st : PageMap × RollbackGuard × Nat) : Prop :=
  ∃ done, done ≤ size ∧ done % 4096 = 0 ∧ st.2.2 = start + done ∧ st.2.1.startVirt = start ∧
    st.2.1.attemptedBytes % 4096 = 0 ∧
    Protected prot s₀ st.1 held start st.2.1.attemptedBytes done st.2.1.log

/-- What it knows when it ends. -/
def ProtectEnd (prot : Protection) (s₀ : PageMap) (held : List Nat) (start size : Nat) :
    Except Error Unit × PageMap × RollbackGuard → Prop
  | (r, s, guard) => guard.startVirt = start ∧ guard.attemptedBytes % 4096 = 0 ∧
      ∃ done ≤ size, Protected prot s₀ s held start guard.attemptedBytes done guard.log ∧
      (r = .ok () → done = size)

variable (hend : start + size < 2 ^ 64) (hstart : start % 4096 = 0) (hsize : size % 4096 = 0)

omit [Callers] in
/-- A leaf that does not cross an end of what is left. -/
theorem leaf_whole {v l r : Nat} (hl : 1 ≤ l) (hl3 : l ≤ 3) (hv : v % 4096 = 0) (hr : 4096 ≤ r)
    (hcross : ¬ (1 < l ∧ ((!isAligned v (levelCoverage l)) = true ∨ r < levelCoverage l))) :
    ∃ lvl : PageSize, PageSize.ofLevel l = lvl ∧ lvl.level = l ∧ v % levelCoverage l = 0 ∧
    levelCoverage l ≤ r := by
  have hwhole : v % levelCoverage l = 0 ∧ levelCoverage l ≤ r := by
    by_cases h1 : l = 1
    · subst h1
      exact ⟨hv, by rwa [levelCoverage_one]⟩
    · have hnot := not_and.1 hcross (by omega)
      push Not at hnot
      exact ⟨by simpa [isAligned] using hnot.1, hnot.2⟩
  obtain rfl | rfl | rfl : l = 1 ∨ l = 2 ∨ l = 3 := by omega
  exacts [⟨_, rfl, rfl, hwhole⟩, ⟨_, rfl, rfl, hwhole⟩, ⟨_, rfl, rfl, hwhole⟩]

include hnx hin hend hstart hsize

/-- One round: a hole, a huge leaf that crosses the end of the range, or the leaves of one table. -/
theorem protectRound_ok (hwf₀ : WF s₀ held) (st : PageMap × RollbackGuard × Nat)
    (hinv : ProtectInv prot s₀ held start size st) :
    Sum.elim (fun st' => ProtectInv prot s₀ held start size st' ∧
        work (start + size) st'.1 st'.2.2 < work (start + size) st.1 st.2.2)
      (ProtectEnd prot s₀ held start size) (protectRound prot (start + size) st) := by
  obtain ⟨s, ⟨gstart, log, attempted⟩, curr⟩ := st
  obtain ⟨done, hdone, hmod, hcurr, hgstart, hattempted, h⟩ := hinv
  simp only at hcurr hgstart hattempted h
  subst hcurr hgstart
  simp only [protectRound]
  by_cases hlt : gstart + done < gstart + size
  swap
  · rw [if_neg hlt]
    exact ⟨rfl, hattempted, done, hdone, h, fun _ => by omega⟩
  rw [if_pos hlt]
  have hfeat := h.changes.feat
  have hL := h.wf.levels_pos
  have hless : done < size := by omega
  have hspan := hin.lin_le hwf₀.levels (by omega)
  have hv : (gstart + done) % 4096 = 0 := by omega
  have hremaining : gstart + size - (gstart + done) = size - done := by omega
  have hout : gstart + done ∉ Seg s₀.feat.levels gstart attempted := add_notMem_seg (by omega) h.le
  have hadd : ∀ {k}, k ≤ size - done → add64 (gstart + done) k = gstart + (done + k) := by
    intro k hk
    rw [add64, Nat.mod_eq_of_lt (by omega), Nat.add_assoc]
  obtain ⟨l, f, hl, hr, hleaf, hprobe⟩ := probe_reaches hL (gstart + done)
  rw [hremaining, hprobe]
  simp only
  cases hpresent : (s.load (slotOf (gstart + done) l f)).present with
  | false =>
    obtain ⟨hpos, hn, hle, hfit⟩ := chunk_ok (r := size - done) (c := levelCoverage l) hv (by omega)
      (by omega) (dvd_levelCoverage l) (levelCoverage_pos l)
    rw [if_pos (by rfl), hadd hle]
    refine ⟨⟨_, by omega, by omega, rfl, rfl, hattempted, h.skip (by omega) fun w hw => ?_⟩, ?_⟩
    · apply view_none_of_page hL hr hpresent
      apply page_of_seg (hr.le.trans (Nat.le_succ _)) hfit
      rwa [hfeat]
    · show work _ _ (gstart + (done + _)) < work _ _ (gstart + done)
      rw [← Nat.add_assoc]
      exact work_advance hL hpos hn (by omega)
  | true =>
    have hpresent' : (s.probe (gstart + done)).value.present = true := by rw [hprobe, hpresent]
    have hlevel : (s.probe (gstart + done)).level = l := by rw [hprobe]
    have hl3 : l ≤ 3 := hlevel ▸ probe_level_le_three hL hpresent'
    simp only [Bool.not_true, Bool.false_eq_true, if_false]
    by_cases hcross : 1 < l ∧
      ((!isAligned (gstart + done) (levelCoverage l)) = true ∨ size - done < levelCoverage l)
    · rw [if_pos hcross]
      obtain ⟨r, s', hwalk, hwalked, hsplit⟩ :=
        walk_split h.wf hpresent' (by rw [hlevel]; exact hcross.1)
      rw [hlevel] at hwalk
      have h' := h.before hwalked.changes (h.toUndoable.walked hwalked hout)
      rw [hwalk]
      cases r with
      | error e => exact ⟨rfl, hattempted, done, hdone, h', (by simp)⟩
      | ok pte => exact ⟨⟨done, hdone, hmod, rfl, rfl, hattempted, h'⟩, hsplit pte rfl⟩
    · rw [if_neg hcross]
      obtain ⟨lvl, hlvl, rfl, halign, hwhole⟩ := leaf_whole hl hl3 hv (by omega) hcross
      obtain ⟨hn, hnle, hbatch⟩ :=
        batchPages_ok (PageSize.level_pos lvl) (hfeat ▸ hr.le) halign hwhole
      generalize min (min (size - done) (levelCoverage (lvl.level + 1) -
          (gstart + done) % levelCoverage (lvl.level + 1))) (maxLogPtes * levelCoverage lvl.level) /
        levelCoverage lvl.level = n at hn hnle hbatch ⊢
      obtain ⟨r, s₁, halloc, hwf₁, hchanges₁, hmem₁⟩ := allocPages_ok h.wf
      have hquiet₁ := Quiet.of_mem hchanges₁ hmem₁
      have h₁ := h.toUndoable.quiet hwf₁ hquiet₁
      rw [halloc]
      cases r with
      | none => exact ⟨rfl, hattempted, done, hdone, h.before hchanges₁ h₁, (by simp)⟩
      | some page =>
        have hr₁ := hquiet₁.tables hr
        have hopen :
            Protecting prot s₀ s₁ held gstart done (⟨page, gstart + done, lvl, []⟩ :: log) := by
          refine ⟨(h₁.begin page hr₁ halign).mono h.le, fun w hw => ?_⟩
          rw [hchanges₁.quiet w]
          exact h.shown w hw
        have hfit : done + n * sizeToBytes lvl ≤ size := by
          change n * sizeToBytes lvl ≤ size - done at hnle
          omega
        have hslots :=
          protectSlots_ok hnx hin hfit hbatch hopen hn hr₁ (by rw [hquiet₁.probe, hlevel])
        -- the rest of a round that logged some slots
        have hpass : ∀ {s' : PageMap} {logged : List PTEntry} {k : Nat},
            k = logged.length * levelCoverage lvl.level → 0 < logged.length → logged.length ≤ n →
            Protecting prot s₀ s' held gstart (done + k)
              (⟨page, gstart + done, lvl, logged⟩ :: log) →
            ProtectInv prot s₀ held gstart size
              (s', ⟨gstart, ⟨page, gstart + done, lvl, logged⟩ :: log,
                add64 (gstart + done) k - gstart⟩, add64 (gstart + done) k) ∧
              work (gstart + size) s' (add64 (gstart + done) k) <
                work (gstart + size) s (gstart + done) := by
          intro s' logged k hk hpos hle h'
          obtain ⟨hmul, hmulPos, hmulLe⟩ :=
            slots_bytes (dvd_levelCoverage lvl.level) (levelCoverage_pos _) hpos hle
          rw [← hk] at hmul hmulPos hmulLe
          rw [hadd (by omega), Nat.add_sub_cancel_left]
          refine ⟨⟨done + k, by omega, by omega, rfl, rfl,
            show (done + k) % 4096 = 0 by omega, ?_⟩, ?_⟩
          · exact ⟨h'.toUndoable, le_rfl, fun hnil => absurd hnil (List.cons_ne_nil _ _), h'.shown⟩
          · rw [← Nat.add_assoc]
            exact work_advance h'.wf.levels_pos hmulPos hmul (by omega)
        simp only [hlvl]
        generalize Loop.upTo (protectSlot prot (slotOf (gstart + done) lvl.level f) lvl.level) n
          (s₁, []) = x at hslots ⊢
        rcases x with ⟨s', logged⟩ | ⟨s', logged⟩
        · exact hpass rfl hslots.1 hslots.2.1 hslots.2.2
        · exact hpass rfl hslots.1 hslots.2.1 hslots.2.2

/-- **`protect_virtual_range`**: every page has the new permissions and the range is flushed, or
every mapping is as it was and nothing got stale. -/
theorem protectRange_ok (hwf : WF s₀ held) {flags : AccessFlags}
    (hprot : prot = ⟨flags.has .write, s₀.feat.nx && !flags.has .execute, flags.has .user⟩)
    (huser : (isUpperHalf start && flags.has .user) = false) :
    ∃ r s, s₀.protectVirtualRange start size flags = some (r, s) ∧ WF s held ∧ Flushed s₀ s ∧
      (r = .ok () → (∃ Q, Changes s₀ s (Seg s₀.feat.levels start size) Q) ∧
        ∀ w ∈ Seg s₀.feat.levels start size, ProtectedView prot (s₀.view w) (s.view w)) ∧
      (r ≠ .ok () → ∃ Q, Changes s₀ s ∅ Q) := by
  have hround := protectRound_ok hnx hin hend hstart hsize hwf
  have hadd : add64 start size = start + size := Nat.mod_eq_of_lt hend
  have hinit : ProtectInv prot s₀ held start size (s₀, ⟨start, [], 0⟩, start) := by
    refine ⟨0, Nat.zero_le _, rfl, rfl, rfl, rfl, Undoable.init hwf start, le_rfl, fun _ => rfl, ?_⟩
    intro w hw
    rw [seg_zero] at hw
    exact hw.elim
  obtain ⟨⟨r, s, guard⟩, hrun, hres⟩ := Loop.run_ok (ProtectInv prot s₀ held start size)
    (ProtectEnd prot s₀ held start size) (fun st => work (start + size) st.1 st.2.2) hround hinit
    (work_lt_rounds hwf.levels_pos start size)
  obtain ⟨gstart, log, attempted⟩ := guard
  obtain ⟨hgstart, hmod, done, hdone, hprotected, hall⟩ := hres
  simp only at hgstart hmod hprotected
  subst hgstart
  rw [hprot] at hrun
  simp only [protectVirtualRange, huser, not_isAligned hstart, not_isAligned hsize, Bool.or_self,
    Bool.false_eq_true, if_false, hadd, hrun]
  cases r with
  | error e =>
    obtain ⟨hwf', hchanges, hflushed⟩ :=
      rollback_ok ⟨gstart, log, attempted⟩ hprotected.toUndoable hprotected.empty
    have hle : attempted ≤ size := hprotected.le.trans hdone
    exact ⟨_, _, rfl, hwf',
      hflushed (hin.mono le_rfl (Nat.add_le_add_left hle _)) hstart hmod le_rfl,
      nofun, fun _ => ⟨_, hchanges⟩⟩
  | ok _ =>
    obtain rfl := hall rfl
    have hchanges := hprotected.changes.mono (Seg.subset hprotected.le) (Seg.subset hprotected.le)
    obtain ⟨hwf', hchanges'⟩ := freeLog_ok (broadcast_wf hprotected.wf gstart done .size4K)
    have hquiet := (broadcast_changes hprotected.wf gstart done .size4K).trans_left hchanges'
    refine ⟨_, _, rfl, hwf', ?_, fun _ => ⟨⟨_, hchanges.trans_right hquiet⟩, fun w hw => ?_⟩,
      fun h => absurd rfl h⟩
    · exact (hchanges.flush hprotected.wf hin hstart hsize).trans
        (hchanges.trans_right (broadcast_changes hprotected.wf _ _ _)) hchanges'.flushed
    · have hview := hquiet.quiet w
      rw [freeLog, hview]
      exact hprotected.shown w hw

end Loop

end

/-! ## Whole calls -/

section

variable {s : PageMap} {held : List Nat} {start size : Nat}

/-- **Both updates of a range change all of it or nothing.**  A failure leaves the frame and the
attributes of every address as they were, whatever was split on the way. The Swapped flag, frame
addresses from 2^52 on and protection keys from 16 on have no room in a leaf. -/
theorem range_updates_all_or_nothing (hwf : WF s held) (hin : InHalf s.feat.levels start size)
    (hend : start + size < 2 ^ 64) (hstart : start % pageSize = 0) (hsize : size % pageSize = 0) :
    (∀ flags, ∃ r s', s.protectVirtualRange start size flags = some (r, s') ∧
      (∀ w, Canonical s.feat.levels w → (r = .ok () → ¬ (start ≤ w ∧ w < start + size)) →
        s'.view w = s.view w) ∧
      (r = .ok () → ∀ k < size, (s.view (start + k) = none → s'.view (start + k) = none) ∧
        ∀ m, s.view (start + k) = some m → ∃ m', s'.view (start + k) = some m' ∧
          m'.flags.has .write = (flags.has .write && !m.flags.has .copyOnWrite) ∧
          (s.feat.nx = true → m'.flags.has .execute = flags.has .execute) ∧
          m'.flags.has .user = flags.has .user ∧ m'.physAddress = m.physAddress ∧
          m'.cache = m.cache ∧
          m'.pkey = m.pkey)) ∧ (∀ phys flags cache pkey, phys % pageSize = 0 → phys < 2 ^ 64 →
      ∃ r s', s.remapRange start phys size flags cache pkey = some (r, s') ∧
        (∀ w, Canonical s.feat.levels w → (r = .ok () → ¬ (start ≤ w ∧ w < start + size)) →
          s'.view w = s.view w) ∧
        (r = .ok () → flags.has .swapped = false → phys + size ≤ 2 ^ 52 → pkey < 16 →
          ∀ k < size, ∃ m, s'.view (start + k) = some m ∧ m.physAddress = phys + k ∧
            m.flags.has .write = (flags.has .write && !flags.has .copyOnWrite) ∧
            (s.feat.nx = true → m.flags.has .execute = flags.has .execute) ∧
            m.flags.has .user = flags.has .user ∧ m.cache = cache ∧ m.pkey = pkey)) := by
  have hmem : ∀ {k}, k < size → start + k ∈ Seg s.feat.levels start size := add_mem_seg _ start
  -- what lies outside is not changed, and after a failure nothing is
  have houtside : ∀ {r : Except Error Unit} {s'}, (r = .ok () → ∃ Q,
      Changes s s' (Seg s.feat.levels start size) Q) → (r ≠ .ok () → ∃ Q, Changes s s' ∅ Q) →
      ∀ w, Canonical s.feat.levels w → (r = .ok () → ¬ (start ≤ w ∧ w < start + size)) →
      s'.view w = s.view w := by
    intro r s' hok hfail w hcanon hout
    by_cases hr : r = .ok ()
    · obtain ⟨Q, hchanges⟩ := hok hr
      exact hchanges.view w fun hw => hout hr ((hin.mem_iff_seg hwf.levels hcanon).2 hw)
    · obtain ⟨Q, hchanges⟩ := hfail hr
      exact hchanges.quiet w
  refine ⟨fun flags => ?_, fun phys flags cache pkey hphys hphys64 => ?_⟩
  · cases huser : isUpperHalf start && flags.has .user with
    | true =>
      exact ⟨.error .securityViolation, s, by simp [protectVirtualRange, huser],
        fun _ _ _ => rfl, nofun⟩
    | false =>
      have hnx : (Protection.mk (flags.has .write) (s.feat.nx && !flags.has .execute)
          (flags.has .user)).noExec = true → s.feat.nx = true := by
        intro h
        simp only [Bool.and_eq_true] at h
        exact h.1
      obtain ⟨r, s', heq, -, -, hok, hfail⟩ :=
        protectRange_ok hnx hin hend hstart hsize hwf rfl huser
      refine ⟨r, s', heq, houtside (fun hr => (hok hr).1) hfail, fun hr k hk => ?_⟩
      have hview := (hok hr).2 _ (hmem hk)
      refine ⟨fun hnone => ?_, fun m hm => ?_⟩
      · rwa [hnone] at hview
      · rw [hm] at hview
        obtain ⟨m', hm', hprotects⟩ := hview
        refine ⟨m', hm', hprotects.write, fun hnx => ?_, hprotects.user, hprotects.physAddress,
          hprotects.cache, hprotects.pkey⟩
        exact hprotects.execute.trans (by simp [hnx])
  · cases huser : isUpperHalf start && flags.has .user with
    | true =>
      exact ⟨.error .securityViolation, s, by simp [remapRange, huser], fun _ _ _ => rfl, nofun⟩
    | false =>
      have hreq : (MapRequest.mk start flags cache pkey).startVirt = start := rfl
      obtain ⟨r, s', heq, -, hok, hfail⟩ :=
        remapRange_ok hin hstart hsize hphys hreq hwf (by omega) hphys64 huser
      refine ⟨r, s', heq, houtside (fun hr => (hok hr).1) (fun hr => (hfail hr).1),
        fun hr hswapped hbound hkey k hk => ?_⟩
      obtain ⟨⟨Q, hchanges⟩, hshows, -⟩ := hok hr
      obtain ⟨m, hm, hrequested⟩ := hshows hswapped hbound _ (by rw [hchanges.feat]; exact hmem hk)
      rw [hchanges.feat, hin.lin_add hwf.levels hk, Nat.add_sub_cancel_left] at hrequested
      refine ⟨m, hm, hrequested.physAddress, hrequested.write, fun hnx => ?_, hrequested.user,
        hrequested.cache, hrequested.pkey.trans (Nat.mod_eq_of_lt hkey)⟩
      exact hrequested.execute.trans (by simp [hnx])

/-- Two writable pages of the lower half are made read-only. -/
theorem range_updates_all_or_nothing_two :
    ∃ s s', (fresh ⟨true, true, 4⟩ 1 [2, 3, 4, 5] [some 2, some 3, some 4, some 5]).mapRange
      0x400000000000 0x5000 0x2000 .write .writeBack 0 = some (.ok (), s) ∧
      s.protectVirtualRange 0x400000000000 0x2000 .user = some (.ok (), s') ∧
      ∃ m', s'.view (0x400000000000 + 0x1008) = some m' ∧ m'.physAddress = 0x6008 ∧
      m'.flags.has .write = false := by
  have hin : InHalf 4 0x400000000000 0x2000 := Or.inl (by decide)
  have hphys : 0x5000 < 2 ^ 64 := by decide
  have hfresh : WF (fresh ⟨true, true, 4⟩ 1 [2, 3, 4, 5] [some 2, some 3, some 4, some 5]) [] :=
    fresh_wf _ (Or.inl rfl) (by decide) (by decide)
  obtain ⟨r, s, hmap, hwf, hok, -⟩ := mapRange_ok hin (by decide) (by decide) (by decide)
    (rfl : (MapRequest.mk 0x400000000000 .write .writeBack 0).startVirt = 0x400000000000)
    (by decide) hfresh (by decide) hphys
  have hruns : ((fresh ⟨true, true, 4⟩ 1 [2, 3, 4, 5] [some 2, some 3, some 4, some 5]).mapRange
      0x400000000000 0x5000 0x2000 .write .writeBack 0).bind (fun x =>
        (x.2.protectVirtualRange 0x400000000000 0x2000 .user).map fun y =>
          (x.1, y.1, (x.2.view (0x400000000000 + 0x1008)).map (·.physAddress), x.2.feat)) =
      some (.ok (), .ok (), some 0x6008, ⟨true, true, 4⟩) := by
    decide +kernel
  rw [hmap, Option.bind_some, Option.map_eq_some_iff] at hruns
  obtain ⟨⟨r', s'⟩, hprotect, hruns⟩ := hruns
  simp only [Prod.mk.injEq, Option.map_eq_some_iff] at hruns
  obtain ⟨rfl, rfl, ⟨m, hm, hframe⟩, hfeat⟩ := hruns
  obtain ⟨hprot, -⟩ :=
    range_updates_all_or_nothing hwf (by rw [hfeat]; exact hin) (by decide) (by decide) (by decide)
  obtain ⟨r, s'', heq, -, hviews⟩ := hprot .user
  obtain ⟨rfl, rfl⟩ : r = .ok () ∧ s'' = s' := by
    rw [hprotect] at heq
    simpa using heq.symm
  obtain ⟨m', hm', hwrite, -, -, hphys', -⟩ := (hviews rfl 0x1008 (by decide)).2 m hm
  exact ⟨s, s'', hmap, hprotect, m', hm', hphys'.trans hframe, by rw [hwrite]; rfl⟩

/-- A success of `remap_range` may leave another frame, another key or nothing at all. -/
theorem remapRange_truncates :
    let s :=
      (fresh ⟨true, true, 4⟩ 1 [2, 3, 4, 5] [some 2, some 3, some 4, some 5]).mapRange 0 0 0x1000
      .write .writeBack 0
    (s.bind fun x => (x.2.remapRange 0 (2 ^ 52) 0x1000 .write .writeBack 0).map
        fun y => (y.1, (y.2.translate 0).map (·.physAddress))) = some (.ok (), some 0) ∧
      (s.bind fun x => (x.2.remapRange 0 0 0x1000 .swapped .writeBack 0).map
        fun y => (y.1, y.2.translate 0)) = some (.ok (), none) ∧
      (s.bind fun x => (x.2.remapRange 0 0 0x1000 .write .writeBack 16).map
        fun y => (y.1, (y.2.translate 0).map (·.pkey))) = some (.ok (), some 0) := by
  refine ⟨?_, ?_, ?_⟩ <;> decide +kernel

/-! ## Runs -/

variable {s' : PageMap} {smp : Smp}

/-- A call on a range, and what it returns. `map_range` need not replace pages of 1 GiB. -/
inductive Update (s : PageMap) (start size : Nat) : Option (Except Error Unit × PageMap) → Prop
  | map (req : MapRequest) (phys : Nat) : req.startVirt = start → phys % pageSize = 0 →
      phys < 2 ^ 64 → s.feat.huge1g = true ∨ size < sizeToBytes .size1G →
      Update s start size (s.mapRange start phys size req.flags req.cache req.pkey)
  | unmap : Update s start size (s.unmapRange start size)
  | remap (req : MapRequest) (phys : Nat) : req.startVirt = start → phys % pageSize = 0 →
      phys < 2 ^ 64 →
      Update s start size (s.remapRange start phys size req.flags req.cache req.pkey)
  | protect (flags : AccessFlags) : Update s start size (s.protectVirtualRange start size flags)

/-- No TLB holds a translation that the tables do not grant. -/
structure Coherent (smp : Smp) (held : List Nat) (s : PageMap) : Prop where
  wf : WF s held
  tracked : Tracked smp s
  fresh : ∀ w, Canonical s.feat.levels w → ¬ Stale smp s w

/-- Successful calls on pages of one half. -/
def updates (smp : Smp) (held : List Nat) : System PageMap where
  init := Coherent smp held
  step s s' := ∃ start size, InHalf s.feat.levels start size ∧ start + size < 2 ^ 64 ∧
    start % pageSize = 0 ∧ size % pageSize = 0 ∧ Update s start size (some (.ok (), s'))

theorem Coherent.after {P Q : Set Nat} (h : Coherent smp held s) (hwf : WF s' held)
    (hflushed : Flushed s s') (hc : Changes s s' P Q) : Coherent smp held s' := by
  refine ⟨hwf, hc.tracked trivial smp h.tracked, fun w hw hstale => ?_⟩
  rw [hc.feat] at hw
  exact h.fresh w hw (hflushed trivial smp w h.tracked hw hstale)

theorem Coherent.step (h : Coherent smp held s) (hstep : (updates smp held).step s s') :
    Coherent smp held s' := by
  obtain ⟨start, size, hin, hend, hstart, hsize, hcall⟩ := hstep
  generalize hx : some (Except.ok (), s') = x at hcall
  cases hcall with
  | map req phys hreq hphys hlt hgib =>
    cases huser : userInKernelHalf start req.flags with
    | true => simp [mapRange, huser] at hx
    | false =>
      obtain ⟨r, t, heq, hwf, hok, -, hflushed⟩ :=
        mapRange_ok hin hstart hsize hphys hreq (hreq ▸ huser) h.wf (by omega) hlt
      cases hx.trans heq
      exact h.after hwf (hflushed hgib) (hok rfl).changes
  | unmap =>
    obtain ⟨r, t, heq, hwf, hchanges, hok, -⟩ := unmapRange_ok hend hstart hsize hin h.wf
    cases hx.trans heq
    exact h.after hwf (hok rfl).2 hchanges
  | remap req phys hreq hphys hlt =>
    cases huser : isUpperHalf start && req.flags.has .user with
    | true => simp [remapRange, huser] at hx
    | false =>
      obtain ⟨r, t, heq, hwf, hok, -⟩ :=
        remapRange_ok hin hstart hsize hphys hreq h.wf (by omega) hlt huser
      cases hx.trans heq
      obtain ⟨⟨Q, hchanges⟩, -, hflushed⟩ := hok rfl
      exact h.after hwf hflushed hchanges
  | protect flags =>
    cases huser : isUpperHalf start && flags.has .user with
    | true => simp [protectVirtualRange, huser] at hx
    | false =>
      obtain ⟨r, t, heq, hwf, hflushed, hok, -⟩ :=
        protectRange_ok (fun hnx => (Bool.and_eq_true_iff.1 hnx).1) hin hend hstart hsize
          h.wf rfl huser
      cases hx.trans heq
      obtain ⟨⟨Q, hchanges⟩, -⟩ := hok rfl
      exact h.after hwf hflushed hchanges

/-- **No run of calls leaves a TLB a translation** that was taken back. -/
theorem run_coherent (h : (updates smp held).Reachable s) : Coherent smp held s :=
  h.invariant (fun _ h => h) fun _ _ => Coherent.step

/-- CPU 0 has the map loaded, and the others had. -/
def oneLoaded : Smp := ⟨false, true, fun cpu => ⟨cpu == 0, true, cpu⟩, fun _ _ => False⟩

/-- Two pages in a fresh map. -/
def twoPages : Option (Except Error Unit × PageMap) :=
  (fresh ⟨true, true, 4⟩ 1 [2, 3, 4] [some 2, some 3, some 4]).mapRange 0 0x7000 0x2000 .write
    .writeBack 0

/-- The second page is unmapped while CPU 0 has it in its TLB. -/
theorem run_coherent_unmap : ∃ s₁ s₂ c, (updates oneLoaded []).Reachable s₁ ∧
    oneLoaded.MayHold s₁ 0 c s₁.trace ∧ c.Covers s₁.feat.levels 0x1000 ∧
    s₁.unmapRange 0x1000 0x1000 = some (.ok (), s₂) ∧
    Coherent oneLoaded [] s₂ ∧ ¬ oneLoaded.MayHold s₂ 0 c s₂.trace := by
  have hinit :
      Coherent oneLoaded [] (fresh ⟨true, true, 4⟩ 1 [2, 3, 4] [some 2, some 3, some 4]) := by
    refine ⟨fresh_wf _ (.inl rfl) (by decide) (by decide),
      ⟨fun _ _ => rfl, fun _ _ => False.elim⟩, ?_⟩
    rintro _ _ ⟨_, _, ⟨⟩, _⟩
  have hmap : (twoPages.map fun x => (x.1, x.2.feat.levels, x.2.trace.head?.map fun ev =>
      (({ x.2 with mem := ev.mem } : PageMap).probe 0x1000).value.present)) =
      some (.ok (), 4, some true) := by decide +kernel
  have hunmap : (twoPages.bind fun x => (x.2.unmapRange 0x1000 0x1000).map fun y =>
      (y.1, y.2.feat.levels, y.2.view 0x1000)) = some (.ok (), 4, none) := by decide +kernel
  obtain ⟨⟨_, s₁⟩, hs₁, heq⟩ := Option.map_eq_some_iff.1 hmap
  obtain ⟨rfl, hlevels₁, ev, hev, hpresent⟩ : _ ∧ _ ∧ _ := by simpa using heq
  rw [hs₁, Option.bind_some] at hunmap
  obtain ⟨⟨_, s₂⟩, hs₂, heq⟩ := Option.map_eq_some_iff.1 hunmap
  obtain ⟨rfl, hlevels₂, hnone⟩ : _ ∧ _ ∧ _ := by simpa using heq
  obtain ⟨earlier, htrace⟩ := List.head?_eq_some_iff.1 hev
  have hreach : (updates oneLoaded []).Reachable s₁ :=
    .step (.init hinit) ⟨0, 0x2000, .inl (by decide), by decide, rfl, rfl,
      hs₁ ▸ .map ⟨0, .write, .writeBack, 0⟩ 0x7000 rfl rfl (by decide) (.inl rfl)⟩
  have hcoherent := run_coherent (hreach.step ⟨0x1000, 0x1000, .inl (by rw [hlevels₁]; decide),
    by decide, rfl, rfl, hs₂ ▸ Update.unmap⟩)
  have hcanon : Canonical 4 0x1000 := .inl (by decide)
  obtain ⟨c, hheld, hcovers⟩ : ∃ c, oneLoaded.MayHold s₁ 0 c s₁.trace ∧
      c.Covers s₁.feat.levels 0x1000 := by
    rw [htrace]
    exact ⟨_, .inr ⟨0x1000, .inr rfl, hlevels₁ ▸ hcanon, hpresent, rfl⟩, rfl⟩
  refine ⟨s₁, s₂, c, hreach, hheld, hcovers, hs₂, hcoherent, fun hmay => ?_⟩
  refine hcoherent.fresh 0x1000 (hlevels₂ ▸ hcanon) ⟨0, c, hmay, ?_, ?_⟩
  · rwa [hlevels₂, ← hlevels₁]
  · rintro ⟨m, mc, hm, -⟩
    rw [hnone] at hm
    cases hm

end

end PageMap

end Erebus.Vmm
