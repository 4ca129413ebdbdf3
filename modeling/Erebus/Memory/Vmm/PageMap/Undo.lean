import Erebus.Memory.Vmm.PageMap.Map

/-!
# The undo log

* `NodeOk s₀ s node`: the slots of a log node hold leaves, and its entries say what the map `s₀`
  said.
* `Undoable`: every mapping that is not as in `s₀` is below a slot of the log.
* `Undoable.record`, `Undoable.exchange`: logging a slot, and then storing something else in it.
* `rollback_ok`: the rollback brings every mapping of `s₀` back, and flushes what the guard counted.
-/

namespace Erebus.Vmm

open PTEntry

namespace UndoLogNode

/-- The first address of the slot `i`. -/
def addr (node : UndoLogNode) (i : Nat) : Nat := node.baseVirt + i * sizeToBytes node.pageSize

/-- The original entry of the slot `i`. -/
def entry (node : UndoLogNode) (i : Nat) : PTEntry := node.originalPtes.getD i 0

/-- The address is below a slot of the node. -/
def Covers (L : Nat) (node : UndoLogNode) (w : Nat) : Prop :=
  ∃ i < node.originalPtes.length, Vmm.page L node.pageSize.level w =
    Vmm.page L node.pageSize.level (node.addr i)

/-- The address is below the slot `i`. -/
abbrev InSlot (L : Nat) (node : UndoLogNode) (i w : Nat) : Prop :=
  Vmm.page L node.pageSize.level w = Vmm.page L node.pageSize.level (node.addr i)

/-- The level of the slots, how many they are, and the bytes below each. -/
abbrev level (node : UndoLogNode) : Nat := node.pageSize.level

@[inherit_doc level]
abbrev slots (node : UndoLogNode) : Nat := node.originalPtes.length

@[inherit_doc level]
abbrev bytes (node : UndoLogNode) : Nat := sizeToBytes node.pageSize

/-- The node with one more entry. -/
def push (node : UndoLogNode) (e : PTEntry) : UndoLogNode :=
  { node with originalPtes := node.originalPtes ++ [e] }

theorem push_length (node : UndoLogNode) (e : PTEntry) :
    (node.push e).originalPtes.length = node.originalPtes.length + 1 := by
  simp [push]

/-- What holds of the entries and of the new one holds of those of the longer node. -/
theorem push_forall {node : UndoLogNode} {e : PTEntry} {P : Nat → PTEntry → Prop}
    (h : ∀ i < node.slots, P i (node.entry i)) (hnew : P node.slots e) :
    ∀ i < (node.push e).originalPtes.length, P i ((node.push e).entry i) := by
  intro i hi
  rw [push_length] at hi
  rcases Nat.lt_succ_iff_lt_or_eq.1 hi with hi | rfl
  · simpa [push, entry, List.getElem?_append_left hi] using h i hi
  · simpa [push, entry] using hnew

theorem push_covers {node : UndoLogNode} {e : PTEntry} {L w : Nat} :
    (node.push e).Covers L w ↔ node.Covers L w ∨ node.InSlot L node.originalPtes.length w := by
  constructor
  · rintro ⟨i, hi, hpage⟩
    rw [push_length] at hi
    rcases Nat.lt_succ_iff_lt_or_eq.1 hi with hi | rfl
    · exact .inl ⟨i, hi, hpage⟩
    · exact .inr hpage
  · rintro (⟨i, hi, hpage⟩ | hpage)
    · exact ⟨i, by rw [push_length]; omega, hpage⟩
    · exact ⟨_, by rw [push_length]; omega, hpage⟩

/-- Where the next slot of a node is, for a node whose slots are a part of a batch. -/
theorem next_ok (page : Nat) {L start size done n : Nat} {lvl : PageSize} {ptes : List PTEntry}
    (hL : L = 4 ∨ L = 5)
    (hin : InHalf L start size) (hn : done + n * sizeToBytes lvl ≤ size)
    (hbatch : Batch L (start + done) lvl.level n)
    (hi : ptes.length < n) : let a := done + ptes.length * sizeToBytes lvl
    done + (ptes.length + 1) * sizeToBytes lvl = a + sizeToBytes lvl ∧
      lin L start + (a + sizeToBytes lvl) ≤ span L ∧
      addr ⟨page, start + done, lvl, ptes⟩ ptes.length = start + a ∧
      (∀ f, (slotOf (start + done) lvl.level f).at ptes.length = slotOf (start + a) lvl.level f) ∧
      (start + a) % sizeToBytes lvl = 0 ∧ Batch L (start + done) lvl.level (ptes.length + 1) := by
  intro a
  have hassoc : start + a = start + done + ptes.length * sizeToBytes lvl := (Nat.add_assoc ..).symm
  have hmul : (ptes.length + 1) * sizeToBytes lvl ≤ n * sizeToBytes lvl := Nat.mul_le_mul_right _ hi
  have hnext : done + (ptes.length + 1) * sizeToBytes lvl = a + sizeToBytes lvl := by
    rw [Nat.succ_mul, Nat.add_assoc]
  have hpos : 0 < sizeToBytes lvl := levelCoverage_pos _
  have hspan := hin.lin_le hL (by omega)
  refine ⟨hnext, by omega, by rw [addr, hassoc], fun f => ?_, ?_, hbatch.pos, hbatch.le,
    hbatch.aligned, ?_⟩
  · rw [hassoc]
    exact hbatch.slot_at hi f
  · rw [hassoc]
    exact hbatch.aligned_add _
  · have hfits := hbatch.fits
    change _ + n * sizeToBytes lvl ≤ _ at hfits
    change _ + (ptes.length + 1) * sizeToBytes lvl ≤ _
    omega

end UndoLogNode

open UndoLogNode (push_length push_forall push_covers)

/-- The bytes below the slots of the log. -/
def RollbackGuard.loggedBytes (guard : RollbackGuard) : Nat :=
  (guard.log.map fun node => node.originalPtes.length * sizeToBytes node.pageSize).sum

theorem loggedBytes_push (start attempted : Nat) (node : UndoLogNode) (e : PTEntry)
    (log : List UndoLogNode) : (RollbackGuard.mk start (node.push e :: log) attempted).loggedBytes =
      (RollbackGuard.mk start (node :: log) attempted).loggedBytes + sizeToBytes node.pageSize := by
  simp only [RollbackGuard.loggedBytes, List.map_cons, List.sum_cons, push_length]
  show _ * sizeToBytes node.pageSize + _ = _
  rw [Nat.succ_mul]
  omega

namespace PageMap

variable [Callers]

/-! ## Leaves -/

section

variable {s : PageMap} {held : List Nat} {v w l f : Nat} {e : PTEntry}

omit [Callers] in
/-- A large entry that refers to a table is present and not huge. -/
theorem isDirectory_iff {size : PageSize} :
    IsDirectory size.level e ↔ 1 < size.level ∧ e.present = true ∧ (!e.huge) = true := by
  cases size <;> simp [IsDirectory, PageSize.level]

omit [Callers] in
/-- The slot at the level where a walk stops holds no directory. -/
theorem not_directory_of_level (hr : Reaches s v l f) (hl : 1 ≤ l)
    (hlevel : (s.probe v).level = l) : ¬ s.DirAt v l f := by
  obtain ⟨k, rfl⟩ : ∃ k, l = k + 1 := ⟨l - 1, by omega⟩
  intro hdir
  have hle := (Reaches.step hr hdir).probe_level_le
  omega

/-- Exchanging a leaf does not change where walks stop. -/
theorem store_level (hwf : WF s held) (hr : Reaches s v l f)
    (hold : ¬ s.DirAt v l f) (hnew : ¬ IsDirectory l e) (w : Nat) :
    ((s.store (slotOf v l f) e).probe w).level = (s.probe w).level := by
  by_cases hw : s.SamePage l v w
  · have hprobe := hr.probe_of_leaf (hr.pos hwf.levels_pos) hold
    have hlevel := (probe_of_page_eq hwf.levels_pos (v := v) (w := w) (by rwa [hprobe])).1
    rw [store_probe_same hwf hr hold hnew hw, hlevel, hprobe]
  · rw [store_probe_other hwf hr hold hw]

end

/-! ## Logs -/

/-- The slots of the node hold leaves in `s`, and its entries say what `s₀` said. -/
structure NodeOk (s₀ s : PageMap) (node : UndoLogNode) : Prop where
  reach : ∃ f, Reaches s node.baseVirt node.pageSize.level f
  batch : Batch s.feat.levels node.baseVirt node.pageSize.level node.originalPtes.length
  level : ∀ i < node.originalPtes.length, (s.probe (node.addr i)).level = node.pageSize.level
  leaf : ∀ i < node.originalPtes.length, ¬ IsDirectory node.pageSize.level (node.entry i)
  ok : ∀ i < node.originalPtes.length,
    EntryOk s.feat (upperOf s.feat.levels node.baseVirt) node.pageSize.level (node.entry i)
  view : ∀ i < node.originalPtes.length, ∀ w,
    page s.feat.levels node.pageSize.level w =
      page s.feat.levels node.pageSize.level (node.addr i) →
      leafView node.pageSize.level (node.entry i) w = s₀.view w

/-- What differs from `s₀` is in the `n` bytes from `start` on, and below a slot of the log. -/
structure Undoable (s₀ s : PageMap) (held : List Nat) (start n : Nat)
    (log : List UndoLogNode) : Prop where
  wf : WF s held
  changes : Changes s₀ s (Seg s₀.feat.levels start n) (Seg s₀.feat.levels start n)
  nodes : ∀ node ∈ log, NodeOk s₀ s node
  inside : ∀ node ∈ log, ∀ w, node.Covers s₀.feat.levels w → w ∈ Seg s₀.feat.levels start n
  rest : ∀ w, (∀ node ∈ log, ¬ node.Covers s₀.feat.levels w) → s.view w = s₀.view w

section Logging

variable {s₀ s s' : PageMap} {held held' : List Nat} {start n v t f i : Nat} {node : UndoLogNode}
  {log : List UndoLogNode} {e : PTEntry}

theorem NodeOk.of_level (h : NodeOk s₀ s node) (hfeat : s'.feat = s.feat)
    (htables : ∀ {v l f : Nat}, Reaches s v l f → Reaches s' v l f)
    (hlevel : ∀ i < node.originalPtes.length,
      (s'.probe (node.addr i)).level = (s.probe (node.addr i)).level) : NodeOk s₀ s' node := by
  obtain ⟨⟨f, hr⟩, hbatch, hlevels, hleaf, hok, hview⟩ := h
  refine ⟨⟨f, htables hr⟩, ?_, fun i hi => (hlevel i hi).trans (hlevels i hi), hleaf, ?_, ?_⟩
  · rwa [hfeat]
  · rwa [hfeat]
  · rwa [hfeat]

theorem Undoable.init (hwf : WF s₀ held) (start : Nat) : Undoable s₀ s₀ held start 0 [] where
  wf := hwf
  changes := (Changes.refl s₀).mono (Set.empty_subset _) (Set.empty_subset _)
  nodes _ hnode := absurd hnode List.not_mem_nil
  inside _ hnode := absurd hnode List.not_mem_nil
  rest _ _ := rfl

section

variable (h : Undoable s₀ s held start n log)
include h

theorem Undoable.mono {n' : Nat} (hle : n ≤ n') : Undoable s₀ s held start n' log :=
  { h with
    changes := h.changes.mono (Seg.subset hle) (Seg.subset hle)
    inside := fun node hnode w hw => Seg.subset hle (h.inside node hnode w hw) }

/-- A step no walk notices. -/
theorem Undoable.quiet (hwf : WF s' held') (hq : Quiet s s') :
    Undoable s₀ s' held' start n log where
  wf := hwf
  changes := h.changes.trans_right hq.toChanges
  nodes node hnode := (h.nodes node hnode).of_level hq.feat hq.tables fun i _ => by rw [hq.probe]
  inside := h.inside
  rest w hw := (hq.quiet w).trans (h.rest w hw)

/-- A walk for an address that is still as it was does not divide a logged leaf. -/
theorem Undoable.walked (hw : Walked s s' held v t)
    (hv : v ∉ Seg s₀.feat.levels start n) : Undoable s₀ s' held start n log where
  wf := hw.wf
  changes := h.changes.trans_right hw.changes
  nodes node hnode := by
    have hnodeOk := h.nodes node hnode
    apply hnodeOk.of_level hw.changes.feat hw.changes.tables
    intro i hi
    rw [hw.away]
    intro hpage
    -- one leaf would be below the slot and for `v`
    obtain ⟨hlevel, -⟩ := probe_of_page_eq h.wf.levels_pos hpage
    rw [hnodeOk.level i hi] at hlevel
    apply hv
    apply h.inside node hnode
    refine ⟨i, hi, ?_⟩
    rw [← h.changes.feat, hlevel]
    exact hpage.symm
  inside := h.inside
  rest w hmem := (hw.changes.quiet w).trans (h.rest w hmem)

/-- A new node without entries. -/
theorem Undoable.begin (page : Nat) {size : PageSize} (hr : Reaches s v size.level f)
    (hv : v % sizeToBytes size = 0) : Undoable s₀ s held start n (⟨page, v, size, []⟩ :: log) := by
  have hnone : ∀ w, ¬ UndoLogNode.Covers s₀.feat.levels ⟨page, v, size, []⟩ w := by
    rintro w ⟨i, hi, -⟩
    exact absurd hi (Nat.not_lt_zero i)
  refine ⟨h.wf, h.changes, ?_, ?_, ?_⟩
  · intro node hnode
    rcases List.mem_cons.1 hnode with rfl | hnode
    · refine ⟨⟨f, hr⟩, ⟨PageSize.level_pos size, hr.le, hv, ?_⟩, ?_, ?_, ?_, ?_⟩
      · rw [List.length_nil, Nat.zero_mul, Nat.add_zero]
        exact (Nat.mod_lt _ (levelCoverage_pos _)).le
      all_goals
        intro i hi
        exact absurd hi (Nat.not_lt_zero i)
    · exact h.nodes node hnode
  · intro node hnode w hw
    rcases List.mem_cons.1 hnode with rfl | hnode
    · exact absurd hw (hnone w)
    · exact h.inside node hnode w hw
  · intro w hw
    exact h.rest w fun node hnode => hw node (List.mem_cons_of_mem _ hnode)

end

omit [Callers] in
theorem inSlot_iff {L w : Nat} (hbatch : Batch L node.baseVirt node.level n)
    (haddr : node.addr i = v) : node.InSlot L i w ↔ w ∈ Seg L v node.bytes := by
  rw [← haddr]
  exact page_eq_iff_seg (hbatch.le.trans (Nat.le_succ _)) (hbatch.aligned_add _)

omit [Callers] in
theorem upperOf_addr {L : Nat} (hL : L = 4 ∨ L = 5) (hbatch : Batch L node.baseVirt node.level n)
    (hi : i < n) : upperOf L (node.addr i) = upperOf L node.baseVirt := by
  apply upperOf_congr (Nat.le_add_left 1 _) _ (hbatch.table_eq hi)
  have h3 : node.level ≤ 3 := PageSize.level_le node.pageSize
  rcases hL with h | h <;> omega

/-- Every slot of a longer node is one of the shorter node, or the new one. -/
theorem NodeOk.push (h : NodeOk s₀ s node) (hwf : WF s held)
    (hbatch : Batch s.feat.levels node.baseVirt node.level (node.slots + 1))
    (hlevel : (s.probe (node.addr node.slots)).level = node.level)
    (hview : ∀ w, node.InSlot s.feat.levels node.slots w → s.view w = s₀.view w) :
    NodeOk s₀ s (node.push (s.probe (node.addr node.slots)).value) := by
  obtain ⟨⟨f, hr⟩, -, hlevels, hleaf, hok, hviews⟩ := h
  have hpos := PageSize.level_pos node.pageSize
  have hrs : Reaches s (node.addr node.slots) node.level f :=
    hbatch.reaches (Nat.lt_succ_self _) hr
  have hslot := not_directory_of_level hrs hpos hlevel
  have hprobe := hrs.probe_of_leaf hpos hslot
  have hentry := hwf.entries hrs
  rw [upperOf_addr hwf.levels hbatch (Nat.lt_succ_self _)] at hentry
  refine ⟨⟨f, hr⟩, ?_, push_forall (P := fun i _ => (s.probe (node.addr i)).level = _)
    hlevels hlevel,
    push_forall (P := fun _ e => ¬ IsDirectory _ e) hleaf ?_,
    push_forall (P := fun _ e => EntryOk _ _ _ e) hok ?_,
    push_forall (P := fun i e => ∀ w, node.InSlot s.feat.levels i w →
      leafView node.level e w = s₀.view w) hviews fun w hw => ?_⟩
  · rw [push_length]
    exact hbatch
  · rw [hprobe]
    exact hslot
  · rw [hprobe]
    exact hentry
  · obtain ⟨hlevel', hvalue⟩ := probe_of_page_eq hwf.levels_pos (w := w) (by rw [hlevel]; exact hw)
    rw [← hview w hw, view_eq, hvalue, hlevel', hlevel]

/-- A logged slot gets another leaf. -/
theorem Undoable.exchange (h : Undoable s₀ s held start n log) (hnode : node ∈ log)
    (hi : i < node.slots) (hr : Reaches s node.baseVirt node.level f)
    (hnew : ¬ IsDirectory node.level e)
    (hok : EntryOk s.feat (upperOf s.feat.levels node.baseVirt) node.level e) {s' : PageMap}
    (hs' : s.store (slotOf (node.addr i) node.level f) e = s') :
    Undoable s₀ s' held start n log ∧ Reaches s' node.baseVirt node.level f ∧
      (∀ w, node.InSlot s₀.feat.levels i w → s'.view w = leafView node.level e w) ∧
      (∀ w, ¬ node.InSlot s₀.feat.levels i w → s'.view w = s.view w) := by
  subst hs'
  have hfeat := h.changes.feat
  have hnodeOk := h.nodes node hnode
  have hpos := PageSize.level_pos node.pageSize
  have hrs : Reaches s (node.addr i) node.level f := hnodeOk.batch.reaches hi hr
  have hold := not_directory_of_level hrs hpos (hnodeOk.level i hi)
  have hok' : EntryOk s.feat (upperOf s.feat.levels (node.addr i)) node.level e := by
    rwa [upperOf_addr h.wf.levels hnodeOk.batch hi]
  have hstep := store_changes h.wf hrs hold hnew hok'
  simp only [SamePage, hfeat] at hstep
  have hinside : ∀ w, node.InSlot s₀.feat.levels i w → w ∈ Seg s₀.feat.levels start n :=
    fun w hw => h.inside node hnode w ⟨i, hi, hw⟩
  refine ⟨⟨overwrite_wf h.wf hrs hnew hok', ?_, ?_, h.inside, ?_⟩, hstep.tables hr,
    fun w hw => store_view h.wf hrs hold hnew (by rwa [SamePage, hfeat]),
    fun w hw => hstep.view w hw⟩
  · apply (h.changes.trans hstep).mono
    · exact Set.union_subset le_rfl hinside
    · exact Set.union_subset le_rfl fun w hw => hinside w hw.1
  · intro other hother
    apply (h.nodes other hother).of_level hstep.feat hstep.tables
    exact fun j _ => store_level h.wf hrs hold hnew _
  · intro w hw
    rw [hstep.view w, h.rest w hw]
    exact fun hmem => hw node hnode ⟨i, hi, hmem⟩

section

variable {a : Nat} (h : Undoable s₀ s held start n (node :: log))
  (hbatch : Batch s₀.feat.levels node.baseVirt node.level (node.slots + 1))
  (hspan : lin s₀.feat.levels start + (a + node.bytes) ≤ span s₀.feat.levels) (ha : n ≤ a)
  (haddr : node.addr node.slots = start + a)
include h hbatch hspan ha haddr

/-- The next slot of the newest node is logged. -/
theorem Undoable.record (hlevel : (s.probe (start + a)).level = node.level) :
    Undoable s₀ s held start (a + node.bytes) (node.push (s.probe (start + a)).value :: log) := by
  have hfeat := h.changes.feat
  have hsub : Seg s₀.feat.levels start n ⊆ Seg s₀.feat.levels start (a + node.bytes) :=
    Seg.subset (by omega)
  have hpush : NodeOk s₀ s (node.push (s.probe (start + a)).value) := by
    rw [← haddr]
    apply (h.nodes node List.mem_cons_self).push h.wf (hfeat ▸ hbatch) (haddr ▸ hlevel)
    intro w hw
    rw [hfeat, inSlot_iff hbatch haddr] at hw
    apply h.changes.view w
    exact fun hmem => seg_apart hspan (Seg.subset ha hmem) hw
  refine ⟨h.wf, h.changes.mono hsub hsub, ?_, ?_, ?_⟩
  · exact List.forall_mem_cons.2 ⟨hpush, (List.forall_mem_cons.1 h.nodes).2⟩
  · intro other hother w hw
    rcases List.mem_cons.1 hother with rfl | hother
    · rcases push_covers.1 hw with hw | hw
      · exact hsub (h.inside node List.mem_cons_self w hw)
      · rw [seg_add]
        exact .inr ((inSlot_iff hbatch haddr).1 hw)
    · exact hsub (h.inside other (List.mem_cons_of_mem _ hother) w hw)
  · intro w hw
    apply h.rest w
    intro other hother hcovers
    rcases List.mem_cons.1 hother with rfl | hother
    · exact hw _ List.mem_cons_self (push_covers.2 (.inl hcovers))
    · exact hw other (List.mem_cons_of_mem _ hother) hcovers

/-- The next slot of the newest node is logged and gets another leaf. -/
theorem Undoable.replace (hr : Reaches s node.baseVirt node.level f)
    (hleaf : ¬ s.DirAt (start + a) node.level f)
    (hnew : ¬ IsDirectory node.level e)
    (hok : EntryOk s₀.feat (upperOf s₀.feat.levels node.baseVirt) node.level e) :
    ∃ s', s.store (slotOf (start + a) node.level f) e = s' ∧
      Undoable s₀ s' held start (a + node.bytes)
        (node.push (s.load (slotOf (start + a) node.level f)) :: log) ∧
      Reaches s' node.baseVirt node.level f ∧
      (∀ w ∈ Seg s₀.feat.levels (start + a) node.bytes, s'.view w = leafView node.level e w) ∧
      ∀ w, w ∉ Seg s₀.feat.levels (start + a) node.bytes → s'.view w = s.view w := by
  have hfeat := h.changes.feat
  have hrs : Reaches s (start + a) node.level f := by
    rw [← haddr]
    exact (hfeat ▸ hbatch : Batch s.feat.levels _ _ _).reaches (Nat.lt_succ_self _) hr
  have hprobe := hrs.probe_of_leaf (PageSize.level_pos node.pageSize) hleaf
  have hrecord := h.record hbatch hspan ha haddr (by rw [hprobe])
  have hlast : node.slots < (node.push (s.probe (start + a)).value).originalPtes.length := by
    rw [push_length]
    exact Nat.lt_succ_self _
  have haddr' : (node.push (s.probe (start + a)).value).addr node.slots = start + a := haddr
  obtain ⟨hnext, hrnext, hsame, hother⟩ :=
    hrecord.exchange List.mem_cons_self hlast hr hnew (by rw [hfeat]; exact hok)
    (by rw [haddr'])
  refine ⟨_, rfl, ?_, hrnext, fun w hw => hsame w ((inSlot_iff hbatch haddr).2 hw),
    fun w hw => hother w fun heq => hw ((inSlot_iff hbatch haddr).1 heq)⟩
  rw [hprobe] at hnext
  exact hnext

end

/-! ## Rolling back -/

/-- A node whose slots are as they were does not count. -/
theorem Undoable.drop (h : Undoable s₀ s held start n (node :: log))
    (hback : ∀ w, node.Covers s₀.feat.levels w → s.view w = s₀.view w) :
    Undoable s₀ s held start n log where
  wf := h.wf
  changes := h.changes
  nodes other hother := h.nodes other (List.mem_cons_of_mem _ hother)
  inside other hother := h.inside other (List.mem_cons_of_mem _ hother)
  rest w hw := by
    by_cases hcovers : node.Covers s₀.feat.levels w
    · exact hback w hcovers
    · apply h.rest w
      intro other hother
      rcases List.mem_cons.1 hother with rfl | hother
      · exact hcovers
      · exact hw other hother

/-- A node is put back. -/
theorem Undoable.restore (h : Undoable s₀ s held start n (node :: log)) :
    Undoable s₀ (s.restoreNode node) held start n log := by
  unfold restoreNode
  by_cases hempty : node.originalPtes.length = 0
  · rw [if_pos hempty]
    apply h.drop
    rintro w ⟨i, hi, -⟩
    omega
  rw [if_neg hempty]
  obtain ⟨f, hr⟩ := (h.nodes node List.mem_cons_self).reach
  rw [walk_of_reaches h.wf false hr]
  -- the slots before `i` are as they were
  have hend : ∀ {s'}, (Undoable s₀ s' held start n (node :: log) ∧
      Reaches s' node.baseVirt node.level f ∧ ∀ j < node.slots, ∀ w,
        node.InSlot s₀.feat.levels j w → s'.view w = s₀.view w) →
        Undoable s₀ s' held start n log := by
    rintro s' ⟨h', -, hback⟩
    apply h'.drop
    rintro w ⟨i, hi, hpage⟩
    exact hback i hi w hpage
  refine hend (Loop.times_ok (fun i s' => Undoable s₀ s' held start n (node :: log) ∧
    Reaches s' node.baseVirt node.level f ∧ ∀ j < i, ∀ w, node.InSlot s₀.feat.levels j w →
    s'.view w = s₀.view w) ?_ ?_)
  · rintro i s' hi ⟨h', hr', hback⟩
    have hfeat := h'.changes.feat
    have hnodeOk := h'.nodes node List.mem_cons_self
    obtain ⟨hnext, hrnext, hsame, hother⟩ :=
      h'.exchange List.mem_cons_self hi hr' (hnodeOk.leaf i hi)
      (hnodeOk.ok i hi) rfl
    rw [hnodeOk.batch.slot_at hi]
    refine ⟨hnext, hrnext, fun j hj w hw => ?_⟩
    by_cases hpage : node.InSlot s₀.feat.levels i w
    · exact (hsame w hpage).trans (hnodeOk.view i hi w (by rwa [hfeat]))
    · refine (hother w hpage).trans (hback j ?_ w hw)
      rcases Nat.lt_succ_iff_lt_or_eq.1 hj with hj | rfl
      · exact hj
      · exact absurd hw hpage
  · exact ⟨h, hr, fun j hj => absurd hj (Nat.not_lt_zero j)⟩

theorem Undoable.restoreAll (h : Undoable s₀ s held start n log) :
    Undoable s₀ (log.foldl restoreNode s) held start n [] := by
  induction log generalizing s with
  | nil => exact h
  | cons node log ih => exact ih h.restore

/-- The pages of the log go back. -/
theorem freeLog_ok {log : List UndoLogNode} {s : PageMap}
    (hwf : WF s (log.map UndoLogNode.page ++ held)) :
    WF (log.foldl (fun s node => s.freePages node.page) s) held ∧
      Changes s (log.foldl (fun s node => s.freePages node.page) s) ∅ ∅ := by
  induction log generalizing s with
  | nil => exact ⟨hwf, .refl s⟩
  | cons node log ih =>
    obtain ⟨hwf', hchanges⟩ := ih (freePages_wf hwf)
    exact ⟨hwf', (freePages_changes s node.page).trans_left hchanges⟩

/-- **The rollback.**  Every mapping is back, and if the guard counted all that was changed, nothing
gets stale. -/
theorem rollback_ok (guard : RollbackGuard)
    (h : Undoable s₀ s (guard.log.map UndoLogNode.page ++ held) guard.startVirt n guard.log)
    (hempty : guard.log = [] → n = 0) : WF (s.rollback guard) held ∧
      Changes s₀ (s.rollback guard) ∅ (Seg s₀.feat.levels guard.startVirt n) ∧
      (InHalf s₀.feat.levels guard.startVirt guard.attemptedBytes → guard.startVirt % 4096 = 0 →
        guard.attemptedBytes % 4096 = 0 → n ≤ guard.attemptedBytes →
        Flushed s₀ (s.rollback guard)) := by
  obtain ⟨start, log, attempted⟩ := guard
  simp only at h hempty ⊢
  -- the maps before and after the shootdown
  have hrestored := h.restoreAll
  have hback : Changes s₀ (log.foldl restoreNode s) ∅ (Seg s₀.feat.levels start n) :=
    hrestored.changes.restrict fun w _ _ => hrestored.rest w fun _ hmem =>
      absurd hmem List.not_mem_nil
  obtain ⟨s₁, hs₁, hwf₁, hchanges₁, hflushed₁⟩ : ∃ s₁, s.rollback ⟨start, log, attempted⟩ =
      log.foldl (fun s node => s.freePages node.page) s₁ ∧
      WF s₁ (log.map UndoLogNode.page ++ held) ∧ Changes s₀ s₁ ∅ (Seg s₀.feat.levels start n) ∧
      (InHalf s₀.feat.levels start attempted → start % 4096 = 0 → attempted % 4096 = 0 →
        n ≤ attempted → Flushed s₀ s₁) := by
    cases log with
    | nil =>
      refine ⟨s, rfl, h.wf, hback, fun _ _ _ _ => ?_⟩
      rw [hempty rfl, seg_zero] at hback
      exact hback.flushed
    | cons node log =>
      by_cases hattempted : 0 < attempted
      · refine ⟨_, by simp [rollback, freeLog, hattempted]; rfl, broadcast_wf hrestored.wf _ _ _,
          hback.trans_right (broadcast_changes hrestored.wf _ _ _), fun hin hstart hmod hle => ?_⟩
        exact (hback.mono le_rfl (Seg.subset hle)).flush hrestored.wf hin hstart hmod
      · refine ⟨_, by simp [rollback, freeLog, hattempted], hrestored.wf, hback,
          fun _ _ _ hle => ?_⟩
        rw [show n = 0 by omega, seg_zero] at hback
        exact hback.flushed
  obtain ⟨hwf, hchanges⟩ := freeLog_ok hwf₁
  rw [hs₁]
  exact ⟨hwf, hchanges₁.trans_right hchanges,
    fun hin hstart hmod hle => (hflushed₁ hin hstart hmod hle).trans hchanges₁ hchanges.flushed⟩

end Logging

end PageMap

end Erebus.Vmm
