import Erebus.Memory.Vmm.PageMap.View

/-!
# The tree of tables

* `Reaches s v l f`: a walk for `v` comes to the table in frame `f` at level `l`.
* `WF s held`: the tables form a tree, its entries are ones the code builds, and no frame of the
  allocator or of `held` is a table.
-/

namespace Erebus.Vmm

open PTEntry

/-- The entry refers to a lower table. -/
def IsDirectory (lvl : Nat) (e : PTEntry) : Prop :=
  e.present = true ∧ ¬ (lvl = 1 ∨ (lvl ≤ 3 ∧ e.huge = true))

instance (lvl : Nat) (e : PTEntry) : Decidable (IsDirectory lvl e) := by
  unfold IsDirectory
  infer_instance

theorem not_isDirectory_of_hole {lvl : Nat} {e : PTEntry} (h : e.present = false) :
    ¬ IsDirectory lvl e :=
  fun hdir => Bool.false_ne_true (h.symm.trans hdir.1)

theorem not_isDirectory_zero (lvl : Nat) : ¬ IsDirectory lvl 0 := by
  simp [IsDirectory, present]

/-- Whether the callers are known to use canonical addresses only. The code does not ask. -/
class Callers where
  canonical : Prop

/-- Where nothing else is said, they do. -/
instance (priority := low) Callers.careful : Callers := ⟨True⟩

/-- A leaf the mapping functions can build. Kernel leaves are global and user leaves are not, if
addresses are canonical. -/
structure LeafOk [Callers] (feat : PagingFeatures) (upper : Bool) (e : PTEntry) : Prop where
  swapped : e.swapped = false
  cow : e.cow = true → e.rw = false
  nx : e.nx = true → feat.nx = true
  global : Callers.canonical → e.global = upper

/-- An entry the mapping functions can build: above level 3 the page-size bit is reserved, and there
are leaves at level 3 only if the CPU knows them. -/
structure EntryOk [Callers] (feat : PagingFeatures) (upper : Bool) (lvl : Nat)
    (e : PTEntry) : Prop where
  reserved : e.present = true → 4 ≤ lvl → e.huge = false
  leaf : e.present = true → ¬ IsDirectory lvl e → LeafOk feat upper e
  gib : e.present = true → ¬ IsDirectory lvl e → lvl = 3 → feat.huge1g = true

namespace PageMap

/-- A walk for `v` comes to the table in frame `f` at level `l`. -/
inductive Reaches (s : PageMap) (v : Nat) : Nat → Nat → Prop
  | root : Reaches s v s.feat.levels s.root
  | step {l f : Nat} (h : Reaches s v (l + 1) f)
      (hdir : IsDirectory (l + 1) (s.load (slotOf v (l + 1) f))) :
      Reaches s v l (nextTable (s.load (slotOf v (l + 1) f)))

/-- The slot of `v` in the table in frame `f` leads to a table. -/
abbrev DirAt (s : PageMap) (v l f : Nat) : Prop := IsDirectory l (s.load (slotOf v l f))

/-- The addresses are below the same slots down to the level `l`. -/
abbrev SamePage (s : PageMap) (l v w : Nat) : Prop :=
  page s.feat.levels l w = page s.feat.levels l v

/-- The half of the address space below the slot a walk for `v` uses at the top. -/
def upperOf (L v : Nat) : Bool := span L / 2 ≤ lin L v

/-- The tables form a tree of entries the code builds, and no frame that the allocator or somebody
else holds is one of them. -/
structure WF [Callers] (s : PageMap) (held : List Nat) : Prop where
  levels : s.feat.levels = 4 ∨ s.feat.levels = 5
  tree : ∀ {v l w m f : Nat}, Reaches s v l f → Reaches s w m f →
    l = m ∧ page s.feat.levels (l + 1) v = page s.feat.levels (l + 1) w
  entries : ∀ {v l f : Nat}, Reaches s v l f →
    EntryOk s.feat (upperOf s.feat.levels v) l (s.load (slotOf v l f))
  nodup : (s.free ++ held).Nodup
  spare : ∀ f ∈ s.free ++ held, ∀ v l, ¬ Reaches s v l f
  frames : ∀ f ∈ s.free ++ held, f < 2 ^ 40

section Reaching

variable {s : PageMap} {v w l f g : Nat}

theorem Reaches.le (h : Reaches s v l f) : l ≤ s.feat.levels := by
  induction h with
  | root => exact le_rfl
  | step _ _ ih => omega

theorem Reaches.pos (hL : 1 ≤ s.feat.levels) (h : Reaches s v l f) : 1 ≤ l := by
  cases h with
  | root => exact hL
  | step h hdir =>
    by_contra hl
    have hzero : l = 0 := by omega
    subst hzero
    exact hdir.2 (.inl rfl)

/-- The table is told by the page number one level up. -/
theorem Reaches.congr (h : Reaches s v l f) (hpage : s.SamePage (l + 1) w v) : Reaches s w l f := by
  induction h with
  | root => exact .root
  | step h hdir ih =>
    rename_i l f
    obtain ⟨hup, hidx⟩ := (page_eq_iff (Nat.le_add_left 1 l) h.le v w).1 hpage
    have hslot : slotOf v (l + 1) f = slotOf w (l + 1) f := by rw [slotOf, hidx, slotOf]
    rw [hslot] at hdir ⊢
    exact .step (ih hup) hdir

/-- One step of the descent, with its two stopping conditions as one. -/
theorem probeFrom_succ (s : PageMap) (v l f : Nat) :
    s.probeFrom v (l + 1) f = if IsDirectory (l + 1) (s.load (slotOf v (l + 1) f)) then
      s.probeFrom v l (nextTable (s.load (slotOf v (l + 1) f)))
      else ⟨slotOf v (l + 1) f, l + 1, s.load (slotOf v (l + 1) f)⟩ := by
  rw [probeFrom]
  have hiff : (!(s.load (slotOf v (l + 1) f)).present || (decide (l + 1 = 1) ||
      decide (l + 1 ≤ 3) && (s.load (slotOf v (l + 1) f)).huge)) = true ↔
        ¬ s.DirAt v (l + 1) f := by
    simp only [IsDirectory, Bool.or_eq_true, Bool.not_eq_true', Bool.and_eq_true, decide_eq_true_eq,
      not_and, not_not]
    constructor
    · rintro (hp | hleaf) hpresent
      · rw [hp] at hpresent
        cases hpresent
      · exact hleaf
    · intro h
      cases hp : (s.load (slotOf v (l + 1) f)).present with
      | false => exact .inl rfl
      | true => exact .inr (h hp)
  by_cases hdir : s.DirAt v (l + 1) f
  · rw [if_pos hdir]
    exact if_neg (mt hiff.1 (not_not.2 hdir))
  · rw [if_neg hdir]
    exact if_pos (hiff.2 hdir)

/-- A walk comes by every table it reaches. -/
theorem Reaches.probe_eq (h : Reaches s v l f) : s.probe v = s.probeFrom v l f := by
  induction h with
  | root => rfl
  | step h hdir ih =>
    rw [ih, probeFrom_succ]
    exact if_pos hdir

/-- It stops at the first entry that is no directory. -/
theorem Reaches.probe_of_leaf (hl : 1 ≤ l) (h : Reaches s v l f)
    (hleaf : ¬ IsDirectory l (s.load (slotOf v l f))) :
    s.probe v = ⟨slotOf v l f, l, s.load (slotOf v l f)⟩ := by
  obtain ⟨k, rfl⟩ : ∃ k, l = k + 1 := ⟨l - 1, by omega⟩
  rw [h.probe_eq, probeFrom_succ, if_neg hleaf]

/-- Where a walk stops. -/
theorem probe_reaches (hL : 1 ≤ s.feat.levels) (v : Nat) :
    ∃ l f, 1 ≤ l ∧ Reaches s v l f ∧ ¬ s.DirAt v l f ∧
      s.probe v = ⟨slotOf v l f, l, s.load (slotOf v l f)⟩ := by
  suffices h : ∀ l f, 1 ≤ l → Reaches s v l f → ∃ l f, 1 ≤ l ∧ Reaches s v l f ∧
      ¬ s.DirAt v l f from by
    obtain ⟨l, f, hl, hr, hleaf⟩ := h _ _ hL .root
    exact ⟨l, f, hl, hr, hleaf, hr.probe_of_leaf hl hleaf⟩
  intro l
  induction l with
  | zero => exact fun f hl => absurd hl (by decide)
  | succ l ih =>
    intro f _ hr
    by_cases hdir : s.DirAt v (l + 1) f
    · have hl : 1 ≤ l := Reaches.pos hL (.step hr hdir)
      exact ih _ hl (.step hr hdir)
    · exact ⟨l + 1, f, Nat.le_add_left 1 l, hr, hdir⟩

/-- Only one table is reached at a level. -/
theorem Reaches.unique (h : Reaches s v l f) (h' : Reaches s v l g) : f = g := by
  induction h generalizing g with
  | root =>
    cases h' with
    | root => rfl
    | step h' _ => exact absurd h'.le (by omega)
  | step h hdir ih =>
    rename_i l f
    generalize hl : l = k at h'
    cases h' with
    | root => exact absurd h.le (by omega)
    | step h' _ =>
      subst hl
      rw [ih h']

end Reaching

/-! ## What does not matter to a walk -/

section

variable {s s' : PageMap} {held held' : List Nat}

theorem grants_congr {v : Nat} (hview : s'.view v = s.view v) (c : Cached) :
    Grants s' c v ↔ Grants s c v := by
  rw [Grants, Grants, hview]

theorem load_congr (hmem : s'.mem = s.mem) (p : Loc) : s'.load p = s.load p := by
  rw [load, load, hmem]

theorem probeFrom_congr (hmem : s'.mem = s.mem) (v : Nat) :
    ∀ l f, s'.probeFrom v l f = s.probeFrom v l f := by
  intro l
  induction l with
  | zero => exact fun _ => rfl
  | succ l ih =>
    intro f
    rw [probeFrom_succ, probeFrom_succ, load_congr hmem, ih]

section

variable (hfeat : s'.feat = s.feat) (hroot : s'.root = s.root) (hmem : s'.mem = s.mem)
include hfeat hroot hmem

theorem probe_congr (v : Nat) : s'.probe v = s.probe v := by
  rw [probe, probe, hfeat, hroot, probeFrom_congr hmem]

theorem view_congr (v : Nat) : s'.view v = s.view v := by
  rw [view_eq, view_eq, probe_congr hfeat hroot hmem]

theorem Reaches.of_eq {v l f : Nat} (h : Reaches s v l f) : Reaches s' v l f := by
  induction h with
  | root =>
    rw [← hfeat, ← hroot]
    exact .root
  | step h hdir ih =>
    rw [← load_congr hmem] at hdir ⊢
    exact .step ih hdir

theorem current_congr (v : Nat) (c : Cached) : Current s' v c ↔ Current s v c := by
  rw [Current, Current, probe_congr hfeat hroot hmem, hfeat]

end

theorem WF.of_eq [Callers] (h : WF s held) (hfeat : s'.feat = s.feat) (hroot : s'.root = s.root)
    (hmem : s'.mem = s.mem) (hperm : (s'.free ++ held').Perm (s.free ++ held)) : WF s' held' := by
  have hback : ∀ {v l f}, Reaches s' v l f → Reaches s v l f :=
    Reaches.of_eq hfeat.symm hroot.symm hmem.symm
  refine ⟨hfeat ▸ h.levels, ?_, ?_, hperm.nodup_iff.2 h.nodup, ?_, ?_⟩
  · intro v l w m f hv hw
    rw [hfeat]
    exact h.tree (hback hv) (hback hw)
  · intro v l f hv
    rw [load_congr hmem, hfeat]
    exact h.entries (hback hv)
  · intro f hf v l hv
    exact h.spare f (hperm.mem_iff.1 hf) v l (hback hv)
  · intro f hf
    exact h.frames f (hperm.mem_iff.1 hf)

theorem mayHold_congr (smp : Smp) (hfeat : s'.feat = s.feat) (hroot : s'.root = s.root) (cpu : Nat)
    (c : Cached) : ∀ trace, smp.MayHold s' cpu c trace ↔ smp.MayHold s cpu c trace := by
  intro trace
  induction trace with
  | nil => exact Iff.rfl
  | cons ev earlier ih =>
    rw [Smp.MayHold, Smp.MayHold, ih, hfeat]
    apply or_congr Iff.rfl
    apply exists_congr
    intro v
    apply and_congr_right
    intro _
    apply current_congr
    · rfl
    · exact hroot
    · rfl

end

/-! ## The two halves -/

/-- Neither half shares a page with the other. -/
theorem upperOf_congr {L l v w : Nat} (hl : 1 ≤ l) (hL : l ≤ L) (h : page L l w = page L l v) :
    upperOf L w = upperOf L v := by
  have hhalf : ∀ u, upperOf L u = decide (256 ≤ page L L u) := by
    intro u
    have hcov : span L / 2 = 256 * levelCoverage L := by
      have hexp : 12 + 9 * L = 12 + 9 * (L - 1) + 8 + 1 := by omega
      rw [span, levelCoverage_eq, hexp, pow_succ, Nat.mul_div_cancel _ (by decide),
        pow_add, mul_comm]
      rfl
    rw [upperOf, hcov, page, decide_eq_decide]
    exact (Nat.le_div_iff_mul_le (levelCoverage_pos L)).symm
  rw [hhalf, hhalf, page_eq_of_le hL h]

theorem upperOf_eq {L : Nat} (hL : L = 4 ∨ L = 5) {v : Nat} (hv : Canonical L v) :
    upperOf L v = isUpperHalf v := by
  have hlt : v < 2 ^ 64 := by
    rcases hL with rfl | rfl <;> simp only [Canonical, span] at hv <;> omega
  rw [Bool.eq_iff_iff, isUpperHalf_iff hlt, upperOf, decide_eq_true_eq]
  rcases hL with rfl | rfl <;> simp only [Canonical, lin, span] at * <;> omega

/-! ## Steps and what they change -/

variable [Callers]

/-- From `s` to `s'` tables stay where they are, only the addresses `P` may get another mapping, and
only the addresses `Q` a stale translation. -/
structure Changes (s s' : PageMap) (P Q : Set Nat) : Prop where
  feat : s'.feat = s.feat
  root : s'.root = s.root
  tables : ∀ {v l f : Nat}, Reaches s v l f → Reaches s' v l f
  view : ∀ v, v ∉ P → s'.view v = s.view v
  stale : ∀ smp v, Stale smp s' v → Stale smp s v ∨ v ∈ Q
  tracked : Callers.canonical → ∀ smp, Tracked smp s → Tracked smp s'

section Changing

variable {s s' s'' : PageMap} {held : List Nat} {P P' Q Q' : Set Nat}
variable {c : Cached}

/-- An operation that may change no view changes none. -/
theorem Changes.quiet (h : Changes s s' ∅ Q) (v : Nat) : s'.view v = s.view v :=
  h.view v (Set.notMem_empty v)

theorem Changes.trans (h : Changes s s' P Q) (h' : Changes s' s'' P' Q') :
    Changes s s'' (P ∪ P') (Q ∪ Q') where
  feat := h'.feat.trans h.feat
  root := h'.root.trans h.root
  tables hr := h'.tables (h.tables hr)
  view v hv := by
    rw [Set.mem_union, not_or] at hv
    exact (h'.view v hv.2).trans (h.view v hv.1)
  stale smp v hv := by
    rcases h'.stale smp v hv with hv | hv
    · exact (h.stale smp v hv).imp id .inl
    · exact .inr (.inr hv)
  tracked hc smp hs := h'.tracked hc smp (h.tracked hc smp hs)

theorem Changes.mono (h : Changes s s' P Q) (hP : P ⊆ P') (hQ : Q ⊆ Q') : Changes s s' P' Q' :=
  { h with
    view := fun v hv => h.view v fun hmem => hv (hP hmem)
    stale := fun smp v hv => (h.stale smp v hv).imp id fun hmem => hQ hmem }

/-- An address whose mapping is back does not count. -/
theorem Changes.restrict (h : Changes s s' P Q) (hview : ∀ v ∈ P, v ∉ P' → s'.view v = s.view v) :
    Changes s s' P' Q :=
  { h with
    view := fun v hv => by
      by_cases hmem : v ∈ P
      · exact hview v hmem hv
      · exact h.view v hmem }

theorem Changes.refl (s : PageMap) : Changes s s ∅ ∅ where
  feat := rfl
  root := rfl
  tables hr := hr
  view _ _ := rfl
  stale _ _ hv := .inl hv
  tracked _ _ hs := hs

/-- A step that changes nothing does not count. -/
theorem Changes.trans_left (h : Changes s s' ∅ ∅) (h' : Changes s' s'' P Q) : Changes s s'' P Q :=
  (h.trans h').mono (by simp) (by simp)

theorem Changes.trans_right (h : Changes s s' P Q) (h' : Changes s' s'' ∅ ∅) : Changes s s'' P Q :=
  (h.trans h').mono (by simp) (by simp)

omit [Callers] in
/-- Pages of one number have one leaf. -/
theorem probe_of_page_eq (hL : 1 ≤ s.feat.levels) {v w : Nat}
    (h : page s.feat.levels (s.probe v).level w = page s.feat.levels (s.probe v).level v) :
    (s.probe w).level = (s.probe v).level ∧ (s.probe w).value = (s.probe v).value := by
  obtain ⟨l, f, hl, hr, hleaf, hprobe⟩ := probe_reaches hL v
  rw [hprobe] at h ⊢
  obtain ⟨hup, hidx⟩ := (page_eq_iff hl hr.le w v).1 h
  have hw := hr.congr hup.symm
  have hslot : slotOf w l f = slotOf v l f := by rw [slotOf, hidx, slotOf]
  have hprobe' := hw.probe_of_leaf hl (by rwa [hslot])
  rw [hprobe', hslot]
  exact ⟨rfl, rfl⟩

omit [Callers] in
theorem extractAddress_of_not_swapped {e : PTEntry} (h : e.swapped = false) (size : PageSize) :
    ∃ base, extractAddress e size = some base := by
  cases size <;> simp [extractAddress, h]

/-- A present leaf maps every address below it. -/
theorem leafView_isSome {feat : PagingFeatures} {upper : Bool} {e : PTEntry}
    (hpresent : e.present = true)
    (hok : LeafOk feat upper e) (l v : Nat) : ∃ m, leafView l e v = some m := by
  obtain ⟨base, hbase⟩ := extractAddress_of_not_swapped hok.swapped (PageSize.ofLevel l)
  exact ⟨_, by simp only [leafView, hpresent, if_true, interpret, hbase]; rfl⟩

theorem zero_entryOk (feat : PagingFeatures) (upper : Bool) (lvl : Nat) :
    EntryOk feat upper lvl 0 :=
  ⟨fun hp => by simp [present] at hp, fun hp => by simp [present] at hp,
    fun hp => by simp [present] at hp⟩

theorem WF.levels_pos (h : WF s held) : 1 ≤ s.feat.levels := by
  rcases h.levels with h | h <;> omega

/-- A current translation is granted wherever it applies. -/
theorem Current.grants (hwf : WF s held) {u v : Nat} (h : Current s u c)
    (hcovers : c.Covers s.feat.levels v) : Grants s c v := by
  obtain ⟨-, hpresent, rfl⟩ := h
  obtain ⟨hlevel, hvalue⟩ := probe_of_page_eq hwf.levels_pos hcovers
  obtain ⟨l, f, hl, hr, hleaf, hprobe⟩ := probe_reaches hwf.levels_pos u
  rw [hprobe] at hpresent hlevel hvalue ⊢
  have hok := (hwf.entries hr).leaf hpresent hleaf
  obtain ⟨m, hm⟩ := leafView_isSome hpresent hok l v
  refine ⟨m, m, ?_, hm, rfl, id⟩
  rw [view_eq, hlevel, hvalue, hm]

/-- What a CPU picks up can be invalidated. -/
theorem Current.reachable (hcallers : Callers.canonical) (hwf : WF s held) {smp : Smp}
    (hs : ∀ cpu, (smp.cpus cpu).current = true → (smp.cpus cpu).tracked = true) {cpu u : Nat}
    (hwalk : smp.CanWalk cpu u) (h : Current s u c) : smp.Reachable s.feat.levels cpu c := by
  obtain ⟨hu, hpresent, rfl⟩ := h
  obtain ⟨l, f, hl, hr, hleaf, hprobe⟩ := probe_reaches hwf.levels_pos u
  rw [hprobe] at hpresent ⊢
  have hhalf : Cached.OfHalf s.feat.levels ⟨l, page s.feat.levels l u, s.load (slotOf u l f)⟩
      (isUpperHalf u) := by
    intro v hv hcovers
    rw [← upperOf_eq hwf.levels hv, ← upperOf_eq hwf.levels hu]
    exact upperOf_congr hl hr.le hcovers
  have hglobal := ((hwf.entries hr).leaf hpresent hleaf).global hcallers
  rw [upperOf_eq hwf.levels hu] at hglobal
  cases hup : isUpperHalf u with
  | true =>
    rw [hup] at hhalf hglobal
    exact .inl ⟨hhalf, hglobal⟩
  | false =>
    rw [hup] at hhalf hglobal
    have hcurrent := hwalk.resolve_left (by rw [hup]; nofun)
    exact .inr ⟨hhalf, hglobal, hs cpu hcurrent, .inl hcurrent⟩

/-- New contents of the tables: nothing gets stale where the mappings stay, or where there was
none. -/
theorem Changes.of_setMem {mem : Nat → Nat → PTEntry} (hwf : WF (s.setMem mem) held)
    (htables : ∀ {v l f : Nat}, Reaches s v l f → Reaches (s.setMem mem) v l f)
    (hview : ∀ v, v ∉ P → (s.setMem mem).view v = s.view v) :
    Changes s (s.setMem mem) P {v | v ∈ P ∧ s.view v ≠ none} where
  feat := rfl
  root := rfl
  tables := htables
  view := hview
  stale smp v := by
    rintro ⟨cpu, c, hmay, hcovers, hgrants⟩
    rcases hmay with ⟨hmay, -⟩ | ⟨u, -, hcurrent⟩
    · have hfeat : (s.setMem mem).feat = s.feat := rfl
      have hmay' : smp.MayHold s cpu c s.trace := (mayHold_congr smp hfeat rfl cpu c _).1 hmay
      by_cases hv : v ∈ P
      · by_cases hnone : s.view v = none
        · refine .inl ⟨cpu, c, hmay', hcovers, ?_⟩
          rintro ⟨m, mc, hm, -⟩
          rw [hnone] at hm
          cases hm
        · exact .inr ⟨hv, hnone⟩
      · rw [grants_congr (hview v hv)] at hgrants
        exact .inl ⟨cpu, c, hmay', hcovers, hgrants⟩
    · exact absurd (hcurrent.grants hwf hcovers) hgrants
  tracked hcallers smp hs := by
    have hfeat : (s.setMem mem).feat = s.feat := rfl
    refine ⟨hs.current, fun cpu c hmay => ?_⟩
    rcases hmay with ⟨hmay, -⟩ | ⟨u, hwalk, hcurrent⟩
    · exact hs.reachable cpu c ((mayHold_congr smp hfeat rfl cpu c _).1 hmay)
    · exact hcurrent.reachable hcallers hwf hs.current hwalk

omit [Callers] in
/-- What a TLB may hold after an event that leaves the tables alone. -/
theorem mayHold_event (smp : Smp) {ev : Event} (hev : ev.mem = s.mem) (hfeat : s'.feat = s.feat)
    (hroot : s'.root = s.root) (htrace : s'.trace = ev :: s.trace) {cpu : Nat}
    (h : smp.MayHold s' cpu c s'.trace) :
    (smp.MayHold s cpu c s.trace ∧ ¬ smp.Drops s.feat.levels cpu c ev) ∨
    ∃ u, smp.CanWalk cpu u ∧ Current s u c := by
  rw [htrace, mayHold_congr smp hfeat hroot] at h
  rcases h with h | ⟨u, hwalk, hcurrent⟩
  · exact .inl h
  · refine .inr ⟨u, hwalk, (current_congr ?_ ?_ ?_ u c).1 hcurrent⟩
    · rfl
    · rfl
    · exact hev

section

variable (hfeat : s'.feat = s.feat) (hroot : s'.root = s.root) (hmem : s'.mem = s.mem)
include hfeat hroot hmem

/-- A step that leaves the tables alone makes nothing stale: a TLB holds what it had, or what it can
pick up. -/
theorem Changes.of_tables (hholds : ∀ (smp : Smp) cpu c, smp.MayHold s' cpu c s'.trace →
      smp.MayHold s cpu c s.trace ∨ ∃ held u, WF s held ∧ smp.CanWalk cpu u ∧ Current s u c) :
      Changes s s' ∅ ∅ where
  feat := hfeat
  root := hroot
  tables := Reaches.of_eq hfeat hroot hmem
  view v _ := view_congr hfeat hroot hmem v
  stale smp v := by
    rintro ⟨cpu, c, hmay, hcovers, hgrants⟩
    rw [grants_congr (view_congr hfeat hroot hmem v)] at hgrants
    rw [hfeat] at hcovers
    rcases hholds smp cpu c hmay with hmay | ⟨held, u, hwf, -, hcurrent⟩
    · exact .inl ⟨cpu, c, hmay, hcovers, hgrants⟩
    · exact absurd (hcurrent.grants hwf hcovers) hgrants
  tracked hcallers smp hs := by
    refine ⟨hs.current, fun cpu c hmay => ?_⟩
    rw [hfeat]
    rcases hholds smp cpu c hmay with hmay | ⟨held, u, hwf, hwalk, hcurrent⟩
    · exact hs.reachable cpu c hmay
    · exact hcurrent.reachable hcallers hwf hs.current hwalk

/-- A step of the allocator. -/
theorem Changes.of_eq (htrace : s'.trace = s.trace) : Changes s s' ∅ ∅ := by
  refine .of_tables hfeat hroot hmem fun smp cpu c hmay => .inl ?_
  rwa [htrace, mayHold_congr smp hfeat hroot] at hmay

/-- An event. -/
theorem Changes.of_event (hwf : WF s held) {ev : Event} (hev : ev.mem = s.mem)
    (htrace : s'.trace = ev :: s.trace) : Changes s s' ∅ ∅ := by
  refine .of_tables hfeat hroot hmem fun smp cpu c hmay => ?_
  rcases mayHold_event smp hev hfeat hroot htrace hmay with ⟨hmay, -⟩ | ⟨u, hwalk, hcurrent⟩
  · exact .inl hmay
  · exact .inr ⟨held, u, hwf, hwalk, hcurrent⟩

end

end Changing

/-! ## The allocator and the TLBs -/

section

variable {s : PageMap} {held : List Nat}

/-- The allocator answers nothing, or hands over a frame that is no table. -/
theorem allocPages_ok (hwf : WF s held) :
    ∃ r s', s.allocPages = (r, s') ∧ WF s' (r.toList ++ held) ∧ Changes s s' ∅ ∅ ∧
    s'.mem = s.mem := by
  unfold allocPages
  split
  · rename_i f rest _
    split
    · rename_i hf
      refine ⟨some f, _, rfl, hwf.of_eq rfl rfl rfl ?_, Changes.of_eq rfl rfl rfl rfl, rfl⟩
      exact (List.perm_middle.trans ((List.perm_cons_erase hf).symm.append_right held))
    · exact ⟨none, _, rfl, hwf.of_eq rfl rfl rfl (.refl _), Changes.of_eq rfl rfl rfl rfl, rfl⟩
  · exact ⟨none, _, rfl, hwf.of_eq rfl rfl rfl (.refl _), Changes.of_eq rfl rfl rfl rfl, rfl⟩
  · exact ⟨none, _, rfl, hwf, Changes.refl _, rfl⟩

theorem freePages_wf {f : Nat} (hwf : WF s (f :: held)) : WF (s.freePages f) held :=
  hwf.of_eq rfl rfl rfl List.perm_middle.symm

theorem freePages_changes (s : PageMap) (f : Nat) : Changes s (s.freePages f) ∅ ∅ :=
  Changes.of_eq rfl rfl rfl rfl

omit [Callers] in
@[simp] theorem broadcast_feat (s : PageMap) (virt size : Nat) (stride : PageSize) :
    (s.broadcast virt size stride).feat = s.feat := by
  unfold broadcast
  split <;> rfl

omit [Callers] in
@[simp] theorem broadcast_root (s : PageMap) (virt size : Nat) (stride : PageSize) :
    (s.broadcast virt size stride).root = s.root := by
  unfold broadcast
  split <;> rfl

omit [Callers] in
@[simp] theorem broadcast_mem (s : PageMap) (virt size : Nat) (stride : PageSize) :
    (s.broadcast virt size stride).mem = s.mem := by
  unfold broadcast
  split <;> rfl

omit [Callers] in
theorem broadcast_trace (s : PageMap) (virt : Nat) {size : Nat} (hsize : size ≠ 0)
    (stride : PageSize) :
    (s.broadcast virt size stride).trace = .broadcast s.mem virt size stride :: s.trace := by
  rw [broadcast, if_neg hsize]

theorem broadcast_wf (hwf : WF s held) (virt size : Nat) (stride : PageSize) :
    WF (s.broadcast virt size stride) held := by
  apply hwf.of_eq (by simp) (by simp) (by simp)
  unfold broadcast
  split <;> exact .refl _

theorem broadcast_changes (hwf : WF s held) (virt size : Nat) (stride : PageSize) :
    Changes s (s.broadcast virt size stride) ∅ ∅ := by
  unfold broadcast
  split
  · exact Changes.refl s
  · have hev : (Event.broadcast s.mem virt size stride).mem = s.mem := rfl
    exact Changes.of_event rfl rfl rfl hwf hev rfl

end

/-! ## Exchanging a leaf -/

omit [Callers] in
@[simp] theorem store_load (s : PageMap) (p q : Loc) (e : PTEntry) :
    (s.store p e).load q = if q = p then e else s.load q := by
  obtain ⟨f, i⟩ := p
  obtain ⟨g, j⟩ := q
  by_cases hf : g = f
  · subst hf
    by_cases hj : j = i <;> simp [store, setMem, load, hj]
  · simp [store, setMem, load, hf]

section Storing

variable {s : PageMap} {held : List Nat} {v w l m f g : Nat} {e : PTEntry}

/-- A slot lies on the walks for one page only. -/
theorem WF.slot_eq (hwf : WF s held) (hr : Reaches s v l f) (hw : Reaches s w m g)
    (h : slotOf w m g = slotOf v l f) : m = l ∧ s.SamePage l v w := by
  simp only [slotOf, Loc.mk.injEq] at h
  obtain ⟨rfl, hidx⟩ := h
  obtain ⟨rfl, hpage⟩ := hwf.tree hw hr
  exact ⟨rfl, (page_eq_iff (hr.pos hwf.levels_pos) hr.le w v).2 ⟨hpage, hidx⟩⟩

omit [Callers] in
theorem slotOf_congr (hl : 1 ≤ l) (hL : l ≤ s.feat.levels)
    (h : s.SamePage l v w) (f : Nat) : slotOf w l f = slotOf v l f := by
  rw [slotOf, slotOf, ((page_eq_iff hl hL w v).1 h).2]

variable (hwf : WF s held) (hr : Reaches s v l f)
include hwf hr

/-- A leaf or a hole opens no new way, whatever it is written over. -/
theorem overwrite_reaches (hnew : ¬ IsDirectory l e)
    (h : Reaches (s.store (slotOf v l f) e) w m g) : Reaches s w m g := by
  induction h with
  | root => exact .root
  | step h hdir ih =>
    rename_i m g
    have hload : (s.store (slotOf v l f) e).load (slotOf w (m + 1) g) =
        s.load (slotOf w (m + 1) g) := by
      rw [store_load, if_neg]
      intro heq
      rw [store_load, if_pos heq, (hwf.slot_eq hr ih heq).1] at hdir
      exact hnew hdir
    rw [hload] at hdir ⊢
    exact .step ih hdir

/-- The ways stay, except below a directory that is written over. -/
theorem overwrite_keeps (h : Reaches s w m g) (hle : s.DirAt v l f → l ≤ m) :
    Reaches (s.store (slotOf v l f) e) w m g := by
  induction h with
  | root => exact .root
  | step h hdir ih =>
    rename_i m g
    have hload : (s.store (slotOf v l f) e).load (slotOf w (m + 1) g) =
        s.load (slotOf w (m + 1) g) := by
      rw [store_load, if_neg]
      intro heq
      have hlevel := (hwf.slot_eq hr h heq).1
      rw [heq, hlevel] at hdir
      have := hle hdir
      omega
    rw [← hload] at hdir ⊢
    exact .step (ih fun h => (hle h).trans (Nat.le_succ m)) hdir

theorem overwrite_wf (hnew : ¬ IsDirectory l e)
    (hok : EntryOk s.feat (upperOf s.feat.levels v) l e) : WF (s.store (slotOf v l f) e) held :=
  { hwf with
    tree :=
      fun hv hw => hwf.tree (overwrite_reaches hwf hr hnew hv) (overwrite_reaches hwf hr hnew hw)
    entries := fun {w m g} hw => by
      have hw := overwrite_reaches hwf hr hnew hw
      rw [store_load]
      split
      · rename_i heq
        obtain ⟨rfl, hpage⟩ := hwf.slot_eq hr hw heq
        have hupper := upperOf_congr (hr.pos hwf.levels_pos) hr.le hpage
        show EntryOk s.feat (upperOf s.feat.levels w) m e
        rwa [hupper]
      · exact hwf.entries hw
    spare := fun g hg w m hw => hwf.spare g hg w m (overwrite_reaches hwf hr hnew hw) }

variable (hold : ¬ s.DirAt v l f) (hnew : ¬ IsDirectory l e)
include hold

/-- Every other page keeps its own. -/
theorem store_probe_other (hw : ¬ s.SamePage l v w) :
    (s.store (slotOf v l f) e).probe w = s.probe w := by
  obtain ⟨m, g, hm, hrw, hleaf, hprobe⟩ := probe_reaches hwf.levels_pos w
  have hload : (s.store (slotOf v l f) e).load (slotOf w m g) = s.load (slotOf w m g) := by
    rw [store_load, if_neg]
    intro heq
    exact hw (hwf.slot_eq hr hrw heq).2
  have hr' := overwrite_keeps (e := e) hwf hr hrw fun h => absurd h hold
  rw [hr'.probe_of_leaf hm (by rwa [hload]), hload, hprobe]

include hnew

theorem store_reaches_iff : Reaches (s.store (slotOf v l f) e) w m g ↔ Reaches s w m g :=
  ⟨overwrite_reaches hwf hr hnew, fun h => overwrite_keeps hwf hr h fun hd => absurd hd hold⟩

/-- The page of the slot gets the new entry. -/
theorem store_probe_same (hw : s.SamePage l v w) :
    (s.store (slotOf v l f) e).probe w = ⟨slotOf v l f, l, e⟩ := by
  have hl := hr.pos hwf.levels_pos
  have hup := ((page_eq_iff hl hr.le w v).1 hw).1
  have hslot := slotOf_congr hl hr.le hw f
  have hr' : Reaches (s.store (slotOf v l f) e) w l f :=
    (store_reaches_iff hwf hr hold hnew).2 (hr.congr hup.symm)
  have hload : (s.store (slotOf v l f) e).load (slotOf w l f) = e := by simp [hslot]
  have hprobe := hr'.probe_of_leaf hl (by rwa [hload])
  rwa [hload, hslot] at hprobe

/-- Exchanging a leaf or a hole changes the page of its slot. -/
theorem store_changes (hok : EntryOk s.feat (upperOf s.feat.levels v) l e) :
    Changes s (s.store (slotOf v l f) e) {w | s.SamePage l v w}
      {w | s.SamePage l v w ∧ s.view w ≠ none} := by
  apply Changes.of_setMem (overwrite_wf hwf hr hnew hok)
  · intro w m g hw
    exact (store_reaches_iff hwf hr hold hnew).2 hw
  · intro w hw
    have hprobe := store_probe_other (e := e) hwf hr hold hw
    change (s.store (slotOf v l f) e).view w = _
    rw [view_eq, view_eq, hprobe]

theorem store_view (hw : s.SamePage l v w) :
    (s.store (slotOf v l f) e).view w = leafView l e w := by
  rw [view_eq, store_probe_same hwf hr hold hnew hw]

omit hold hnew

omit hwf hr

end Storing

/-! ## Filling and linking a table -/

omit [Callers] in
theorem fillTable_load (s : PageMap) (g : Nat) (slots : Nat → PTEntry) (q : Loc) :
    (s.fillTable g slots).load q = if q.frame = g then slots q.slot else s.load q := by
  by_cases hg : q.frame = g
  · simp [fillTable, setMem, load, hg]
  · simp [fillTable, setMem, load, hg]

section

variable {s : PageMap} {held : List Nat} {v w l m f g : Nat} {slots : Nat → PTEntry}

theorem WF.spare_head (hwf : WF s (g :: held)) (v l : Nat) : ¬ Reaches s v l g :=
  hwf.spare g (by simp) v l

omit [Callers] in
theorem fillTable_reaches_iff (hspare : ∀ v l, ¬ Reaches s v l g) :
    Reaches (s.fillTable g slots) w m f ↔ Reaches s w m f := by
  have hload : ∀ {m f}, Reaches s w m f → (s.fillTable g slots).load (slotOf w m f) =
      s.load (slotOf w m f) := by
    intro m f hr
    rw [fillTable_load, if_neg]
    rintro rfl
    exact hspare w m hr
  constructor
  · intro h
    induction h with
    | root => exact .root
    | step h hdir ih =>
      rw [hload ih] at hdir ⊢
      exact .step ih hdir
  · intro h
    induction h with
    | root => exact .root
    | step h hdir ih =>
      rw [← hload h] at hdir ⊢
      exact .step ih hdir

omit [Callers] in
theorem fillTable_probe (hL : 1 ≤ s.feat.levels) (hspare : ∀ v l, ¬ Reaches s v l g) (w : Nat) :
    (s.fillTable g slots).probe w = s.probe w := by
  obtain ⟨m, f, hm, hr, hleaf, hprobe⟩ := probe_reaches hL w
  have hload : (s.fillTable g slots).load (slotOf w m f) = s.load (slotOf w m f) := by
    rw [fillTable_load, if_neg]
    rintro rfl
    exact hspare w m hr
  have hr' : Reaches (s.fillTable g slots) w m f := (fillTable_reaches_iff hspare).2 hr
  rw [hr'.probe_of_leaf hm (by rwa [hload]), hload, hprobe]

theorem fillTable_wf (hwf : WF s (g :: held)) : WF (s.fillTable g slots) (g :: held) where
  levels := hwf.levels
  tree hv hw := by
    rw [fillTable_reaches_iff hwf.spare_head] at hv hw
    exact hwf.tree hv hw
  entries {w m f} hw := by
    rw [fillTable_reaches_iff hwf.spare_head] at hw
    rw [fillTable_load, if_neg]
    · exact hwf.entries hw
    · rintro rfl
      exact hwf.spare_head w m hw
  nodup := hwf.nodup
  spare f hf w m hw := hwf.spare f hf w m ((fillTable_reaches_iff hwf.spare_head).1 hw)
  frames := hwf.frames

/-- Nobody sees what is stored in a frame that is no table yet. -/
theorem fillTable_changes (hwf : WF s (g :: held)) : Changes s (s.fillTable g slots) ∅ ∅ := by
  apply (Changes.of_setMem (P := ∅) (fillTable_wf hwf) ?_ ?_).mono le_rfl (by simp)
  · intro v l f hr
    exact (fillTable_reaches_iff hwf.spare_head).2 hr
  · intro v _
    change (s.fillTable g slots).view v = _
    rw [view_eq, view_eq, fillTable_probe hwf.levels_pos hwf.spare_head]

end

section Linking

variable {s : PageMap} {held : List Nat} {v w l m f g h : Nat} {d : PTEntry}

/-- A table without directories that is about to be linked below the slot `slotOf v (l + 1) f`. -/
structure Linkable (s : PageMap) (held : List Nat) (v l f g : Nat) (d : PTEntry) : Prop where
  wf : WF s (g :: held)
  pos : 1 ≤ l
  reach : Reaches s v (l + 1) f
  old : ¬ IsDirectory (l + 1) (s.load (slotOf v (l + 1) f))
  new : IsDirectory (l + 1) d
  next : nextTable d = g
  reserved : d.huge = false
  flat : ∀ i < 512, ¬ IsDirectory l (s.load ⟨g, i⟩)
  ok : ∀ i < 512, EntryOk s.feat (upperOf s.feat.levels v) l (s.load ⟨g, i⟩)

namespace Linkable

variable (hlink : Linkable s held v l f g d)

include hlink

theorem frame_ne : f ≠ g := by
  rintro rfl
  exact hlink.wf.spare_head v (l + 1) hlink.reach

theorem load_new (w : Nat) :
    (s.store (slotOf v (l + 1) f) d).load (slotOf w l g) = s.load (slotOf w l g) := by
  rw [store_load, if_neg]
  intro heq
  simp only [slotOf, Loc.mk.injEq] at heq
  exact hlink.frame_ne heq.1.symm

theorem reaches_iff : Reaches (s.store (slotOf v (l + 1) f) d) w m h ↔ Reaches s w m h ∨
      (m = l ∧ s.SamePage (l + 1) v w ∧ h = g) := by
  have hforth : ∀ {m h}, Reaches s w m h → Reaches (s.store (slotOf v (l + 1) f) d) w m h :=
    fun h => overwrite_keeps hlink.wf hlink.reach h fun hd => absurd hd hlink.old
  constructor
  · intro hr
    induction hr with
    | root => exact .inl .root
    | step hr hdir ih =>
      rename_i m h
      rcases ih with ih | ⟨hm, hpage, rfl⟩
      · by_cases heq : slotOf w (m + 1) h = slotOf v (l + 1) f
        · obtain ⟨hml, hpage⟩ := hlink.wf.slot_eq hlink.reach ih heq
          rw [store_load, if_pos heq, hlink.next]
          exact .inr ⟨by omega, hpage, rfl⟩
        · rw [store_load, if_neg heq] at hdir ⊢
          exact .inl (.step ih hdir)
      · -- the new table has no directories to go on from
        rw [hm, hlink.load_new] at hdir
        exact absurd hdir (hlink.flat _ (tableIndex_lt w l))
  · rintro (hr | ⟨rfl, hpage, rfl⟩)
    · exact hforth hr
    · have hslot := slotOf_congr (Nat.le_add_left 1 m) hlink.reach.le hpage f
      have hup := page_eq_of_le (Nat.le_succ (m + 1)) hpage
      have hload : (s.store (slotOf v (m + 1) f) d).load (slotOf w (m + 1) f) = d := by
        rw [store_load, if_pos hslot]
      have hstep :=
        Reaches.step (hforth (hlink.reach.congr hup.symm)) (by rw [hload]; exact hlink.new)
      rwa [hload, hlink.next] at hstep

/-- Below the slot the new table is asked. -/
theorem probe_same (hw : s.SamePage (l + 1) v w) :
    (s.store (slotOf v (l + 1) f) d).probe w = ⟨slotOf w l g, l, s.load (slotOf w l g)⟩ := by
  have hr : Reaches (s.store (slotOf v (l + 1) f) d) w l g :=
    hlink.reaches_iff.2 (.inr ⟨rfl, hw, rfl⟩)
  have hprobe :=
    hr.probe_of_leaf hlink.pos (by rw [hlink.load_new]; exact hlink.flat _ (tableIndex_lt w l))
  rwa [hlink.load_new] at hprobe

theorem probe_other (hw : ¬ s.SamePage (l + 1) v w) :
    (s.store (slotOf v (l + 1) f) d).probe w = s.probe w :=
  store_probe_other hlink.wf hlink.reach hlink.old hw

theorem store_wf : WF (s.store (slotOf v (l + 1) f) d) held where
  levels := hlink.wf.levels
  tree {a m b n h} ha hb := by
    show m = n ∧ s.SamePage (m + 1) b a
    rw [hlink.reaches_iff] at ha hb
    rcases ha with ha | ⟨rfl, ha, rfl⟩
    · rcases hb with hb | ⟨rfl, hb, rfl⟩
      · exact hlink.wf.tree ha hb
      · exact absurd ha (hlink.wf.spare_head a m)
    · rcases hb with hb | ⟨rfl, hb, -⟩
      · exact absurd hb (hlink.wf.spare_head b n)
      · exact ⟨rfl, ha.trans hb.symm⟩
  entries {w m h} hw := by
    show EntryOk s.feat (upperOf s.feat.levels w) m _
    rw [hlink.reaches_iff] at hw
    rcases hw with hw | ⟨rfl, hpage, rfl⟩
    · rw [store_load]
      split
      · rename_i heq
        obtain ⟨rfl, -⟩ := hlink.wf.slot_eq hlink.reach hw heq
        exact ⟨fun _ _ => hlink.reserved, fun _ hnot => absurd hlink.new hnot,
          fun _ hnot => absurd hlink.new hnot⟩
      · exact hlink.wf.entries hw
    · have hupper := upperOf_congr (Nat.le_add_left 1 m) hlink.reach.le hpage
      rw [hlink.load_new, hupper]
      exact hlink.ok _ (tableIndex_lt w m)
  nodup := hlink.wf.nodup.sublist (List.Sublist.append_left (List.sublist_cons_self g held) _)
  spare h hh w m hw := by
    rcases hlink.reaches_iff.1 hw with hw | ⟨-, -, rfl⟩
    · refine hlink.wf.spare h ?_ w m hw
      simp only [List.mem_append, List.mem_cons] at hh ⊢
      exact hh.imp id .inr
    · have hnodup := (List.perm_middle.nodup_iff).1 hlink.wf.nodup
      exact (List.nodup_cons.1 hnodup).1 hh
  frames h hh := by
    apply hlink.wf.frames h
    simp only [List.mem_append, List.mem_cons] at hh ⊢
    exact hh.imp id .inr

/-- Linking a table changes the addresses for which it says something else than the slot did. -/
theorem changes {P : Set Nat} (hview : ∀ w, s.SamePage (l + 1) v w → w ∉ P →
      leafView l (s.load (slotOf w l g)) w = s.view w) :
    Changes s (s.store (slotOf v (l + 1) f) d) P {w | w ∈ P ∧ s.view w ≠ none} := by
  apply Changes.of_setMem hlink.store_wf
  · intro w m h hr
    exact hlink.reaches_iff.2 (.inl hr)
  · intro w hw
    change (s.store (slotOf v (l + 1) f) d).view w = _
    by_cases hpage : s.SamePage (l + 1) v w
    · rw [view_eq, hlink.probe_same hpage]
      exact hview w hpage hw
    · rw [view_eq, view_eq, hlink.probe_other hpage]

end Linkable

end Linking

end PageMap

end Erebus.Vmm
