import Erebus.Memory.Vmm.PageMap.Single

/-!
# Tables that are left behind

Unmapping clears leaves and keeps the tables above them. A walk for a huge page does not look below
the slot it comes to, so that an empty table in the slot is taken for a mapping.

* `NoTableLeft`: below the huge pages a request is aligned for there is no table.
* `Beside`: what a mapping function leaves alone: the mappings outside its range, and the absence of
  tables below the pages beside it.
* `map_hole`, `mapRange_hole`: where nothing is mapped and no table is left, only memory or the
  arguments can be in the way.
-/

namespace Erebus.Vmm

open PTEntry PageSize

namespace PageMap

/-- There is no table below the huge pages inside the request for which both of its addresses are
aligned. -/
def NoTableLeft (s : PageMap) (start phys size : Nat) : Prop :=
  ∀ k l, 2 ≤ l → l ≤ (if s.feat.huge1g then 3 else 2) → (start + k) % levelCoverage l = 0 →
    (phys + k) % levelCoverage l = 0 → k + levelCoverage l ≤ size → l ≤ (s.probe (start + k)).level

/-! ## Slots -/

section Slots

variable [Callers] {s s' s'' : PageMap} {held held' : List Nat} {v w l f n a b : Nat}

omit [Callers] in
/-- No address is met twice in a range that is no longer than what a walk can tell apart. -/
theorem seg_disjoint {L : Nat} (h : a + b ≤ span L) (hw : w ∈ Seg L v a) : w ∉ Seg L (v + a) b := by
  obtain ⟨i, hi, hlin⟩ := hw
  rintro ⟨j, hj, hlin'⟩
  rw [hlin] at hlin'
  have hdvd : span L ∣ v + a + j - (v + i) := (Nat.modEq_iff_dvd' (by omega)).1 hlin'
  have hle := Nat.le_of_dvd (by omega) hdvd
  omega

/-- A present leaf is a mapping. -/
theorem view_ne_none (hwf : WF s held) (hr : Reaches s v l f) (hleaf : ¬ s.DirAt v l f)
    (hpresent : (s.load (slotOf v l f)).present = true) : s.view v ≠ none := by
  obtain ⟨m, hm⟩ := leafView_isSome hpresent ((hwf.entries hr).leaf hpresent hleaf) l v
  rw [view_of_page hwf.levels_pos hr hleaf rfl, hm]
  exact Option.some_ne_none m

/-- A slot with nothing mapped below it is empty, if it holds no directory. -/
theorem slot_empty (hwf : WF s held) (hr : Reaches s v l f) (hlevel : l ≤ (s.probe v).level)
    (hview : s.view v = none) : (s.load (slotOf v l f)).present = false := by
  by_contra hpresent
  have hleaf : ¬ s.DirAt v l f := by
    obtain ⟨m, g, hm, hg, hnot, hprobe⟩ := probe_reaches hwf.levels_pos v
    have hbound := hr.probe_level_le
    rw [hprobe] at hlevel hbound
    obtain rfl : m = l := le_antisymm hbound hlevel
    rwa [hr.unique hg]
  exact view_ne_none hwf hr hleaf (by simpa using hpresent) hview

/-- A walk makes no table below the slot it comes to. -/
theorem walk_level {r : Except Error Loc} {alloc : Bool} {size : PageSize} {m : Nat}
    (hwf : WF s held)
    (hwalk : s.walk v alloc size = (r, s')) (hwalked : Walked s s' held v size.level)
    (hm : m ≤ size.level)
    (hpage : s.SamePage m v w → w = v) (hle : m ≤ (s.probe w).level) : m ≤ (s'.probe w).level := by
  by_cases hsame : s.SamePage m v w
  swap
  · exact hwalked.beside w m hsame hle
  obtain rfl := hpage hsame
  rcases Nat.lt_or_ge (s.probe w).level size.level with hlt | hge
  · obtain ⟨l, f, hl, hr, -, hprobe⟩ := probe_reaches hwf.levels_pos w
    have hbelow := hlt
    rw [hprobe] at hbelow
    obtain ⟨g, hg⟩ := hr.above hbelow.le (by have := level_succ_le hwf size; omega)
    rw [walk_of_reaches hwf alloc hg] at hwalk
    cases hwalk
    exact hle
  · exact hm.trans (hwalked.level w hge)

/-- What a step on the `n` bytes from `v` on leaves alone. -/
structure Beside (s s' : PageMap) (held : List Nat) (v n : Nat) : Prop where
  wf : WF s' held
  feat : s'.feat = s.feat
  view : ∀ w, w ∉ Seg s.feat.levels v n → s'.view w = s.view w
  level : ∀ w m, (∀ u ∈ Seg s.feat.levels v n, page s.feat.levels m w ≠ page s.feat.levels m u) →
    m ≤ (s.probe w).level → m ≤ (s'.probe w).level

theorem Beside.init (hwf : WF s held) (v : Nat) : Beside s s held v 0 :=
  ⟨hwf, rfl, fun _ _ => rfl, fun _ _ _ h => h⟩

theorem Beside.trans (h : Beside s s' held v a) (h' : Beside s' s'' held' (v + a) b) :
    Beside s s'' held' v (a + b) where
  wf := h'.wf
  feat := h'.feat.trans h.feat
  view w hw := by
    rw [seg_add, Set.mem_union, not_or] at hw
    rw [h'.view w (by rw [h.feat]; exact hw.2), h.view w hw.1]
  level w m hw hle := by
    rw [seg_add] at hw
    apply h'.level
    · rw [h.feat]
      exact fun u hu => hw u (.inr hu)
    · exact h.level w m (fun u hu => hw u (.inl hu)) hle

/-- A walk to the start of the range, before the rest. -/
theorem Beside.walked {t : Nat} (hw : Walked s s' held v t) (hpos : 0 < n)
    (h : Beside s' s'' held' v n) : Beside s s'' held' v n where
  wf := h.wf
  feat := h.feat.trans hw.changes.feat
  view w hout := by
    rw [h.view w (by rw [hw.changes.feat]; exact hout), hw.changes.quiet w]
  level w m hout hle := by
    have hout' := hout
    rw [← hw.changes.feat] at hout'
    exact h.level w m hout' (hw.beside w m (hout v (add_mem_seg _ v hpos)) hle)

/-- An empty slot gets a leaf. -/
theorem Beside.leaf {e : PTEntry} (hwf : WF s held) (hr : Reaches s v l f)
    (hhole : (s.load (slotOf v l f)).present = false) (hv : v % levelCoverage l = 0)
    (hnew : ¬ IsDirectory l e) (hok : EntryOk s.feat (upperOf s.feat.levels v) l e) :
    Beside s (s.store (slotOf v l f) e) held v (levelCoverage l) := by
  have hold : ¬ s.DirAt v l f := not_isDirectory_of_hole hhole
  have hother : ∀ w, w ∉ Seg s.feat.levels v (levelCoverage l) →
      (s.store (slotOf v l f) e).probe w = s.probe w := fun w hw =>
    store_probe_other hwf hr hold fun hpage =>
      hw ((page_eq_iff_seg (hr.le.trans (Nat.le_succ _)) hv).1 hpage)
  refine ⟨overwrite_wf hwf hr hnew hok, rfl, fun w hw => ?_, fun w m hw hle => ?_⟩
  · rw [view_eq, view_eq, hother w hw]
  · rwa [hother w fun hmem => hw w hmem rfl]

/-- An empty slot gets a directory. -/
theorem Beside.linked {g : Nat} {d : PTEntry} (hlink : Linkable s held v l f g d)
    (hv : v % levelCoverage (l + 1) = 0) :
    Beside s (s.store (slotOf v (l + 1) f) d) held v (levelCoverage (l + 1)) := by
  have hother : ∀ w, w ∉ Seg s.feat.levels v (levelCoverage (l + 1)) →
      (s.store (slotOf v (l + 1) f) d).probe w = s.probe w := fun w hw =>
    hlink.probe_other fun hpage =>
      hw ((page_eq_iff_seg (hlink.reach.le.trans (Nat.le_succ _)) hv).1 hpage)
  refine ⟨hlink.store_wf, rfl, fun w hw => ?_, fun w m hw hle => ?_⟩
  · rw [view_eq, view_eq, hother w hw]
  · rwa [hother w fun hmem => hw w hmem rfl]

theorem Beside.quiet (hq : Quiet s s') (h : Beside s' s'' held' v n) : Beside s s'' held' v n where
  wf := h.wf
  feat := h.feat.trans hq.feat
  view w hw := by rw [h.view w (by rw [hq.feat]; exact hw), hq.quiet w]
  level w m hw hle := h.level w m (by rw [hq.feat]; exact hw) (by rw [hq.probe]; exact hle)

variable {i : Nat} (h : Beside s s' held v (i * levelCoverage l))
  (hbatch : Batch s.feat.levels v l n) (hi : i < n) (hr : Reaches s' v l f)
include h hbatch hi hr

/-- A range of whole pages is still empty where it has not been filled. -/
theorem Beside.slot_empty (hlevel : l ≤ (s.probe (v + i * levelCoverage l)).level)
    (hview : s.view (v + i * levelCoverage l) = none) :
    (s'.load ((slotOf v l f).at i)).present = false := by
  rw [hbatch.slot_at hi]
  have hbytes : i * levelCoverage l + levelCoverage l ≤ span s.feat.levels := by
    have hle := hbatch.lin_le
    have hmul : (i + 1) * levelCoverage l ≤ n * levelCoverage l := Nat.mul_le_mul_right _ hi
    rw [Nat.succ_mul] at hmul
    omega
  have hnext : v + i * levelCoverage l ∉ Seg s.feat.levels v (i * levelCoverage l) := fun hmem =>
    seg_disjoint hbytes hmem ⟨0, levelCoverage_pos l, rfl⟩
  apply PageMap.slot_empty h.wf ((h.feat ▸ hbatch : Batch s'.feat.levels v l n).reaches hi hr)
  · apply h.level _ _ (fun u hu hpage => ?_) hlevel
    exact seg_disjoint hbytes hu ((page_eq_iff_seg (hbatch.le.trans (Nat.le_succ _))
      (hbatch.aligned_add i)).1 hpage.symm)
  · rw [h.view _ hnext, hview]

/-- The next slot of a table gets its leaf. -/
theorem Beside.slot {e : PTEntry} (hl : l + 1 ≤ s.feat.levels)
    (hhole : (s'.load ((slotOf v l f).at i)).present = false) (hnew : ¬ IsDirectory l e)
    (hok : EntryOk s.feat (upperOf s.feat.levels v) l e) :
    Beside s (s'.store ((slotOf v l f).at i) e) held v ((i + 1) * levelCoverage l) ∧
      Reaches (s'.store ((slotOf v l f).at i) e) v l f := by
  have hbatch' : Batch s'.feat.levels v l n := h.feat ▸ hbatch
  have hri := hbatch'.reaches hi hr
  refine ⟨?_, (batch_overwrite h.wf hbatch' hi (h.feat ▸ hl) hr hnew (h.feat ▸ hok)).2⟩
  rw [hbatch.slot_at hi] at hhole ⊢
  rw [Nat.succ_mul]
  refine h.trans (Beside.leaf h.wf hri hhole (hbatch.aligned_add i) hnew ?_)
  rw [batch_upperOf hbatch' hi (h.feat ▸ hl), h.feat]
  exact hok

end Slots

/-! ## Mapping where nothing is mapped -/

section

variable [Callers] {s s' : PageMap} {held : List Nat} {v phys f n pkey : Nat} {flags : AccessFlags}
  {cache : CacheMode}

/-- A loop that fills the empty slots of a table comes to its end. -/
theorem slots_hole {ρ : Type} (size : PageSize) (body : Nat → PageMap → PageMap ⊕ ρ)
    {entryFor : Nat → PageMap → PTEntry}
    (hbody : ∀ i s', (s'.load ((slotOf v size.level f).at i)).present = false →
      body i s' = .inl (s'.store ((slotOf v size.level f).at i) (entryFor i s')))
    (hnew : ∀ i s', ¬ IsDirectory size.level (entryFor i s'))
    (hok : ∀ i s', EntryOk s.feat (upperOf s.feat.levels v) size.level (entryFor i s'))
    (hwf : WF s held) (hbatch : Batch s.feat.levels v size.level n) (hr : Reaches s v size.level f)
    (hlevel : ∀ i < n, size.level ≤ (s.probe (v + i * sizeToBytes size)).level)
    (hview : ∀ i < n, s.view (v + i * sizeToBytes size) = none) :
    ∃ s', Loop.upTo body n s = .inl s' ∧ Beside s s' held v (n * sizeToBytes size) := by
  have hrun :
      Sum.elim (fun s' => Beside s s' held v (n * sizeToBytes size) ∧ Reaches s' v size.level f)
      (fun _ => False) (Loop.upTo body n s) := by
    apply Loop.upTo_ok (fun i s' => Beside s s' held v (i * sizeToBytes size) ∧
      Reaches s' v size.level f) (fun _ => False)
    · rintro i s' hi ⟨h, hr'⟩
      have hempty := h.slot_empty hbatch hi hr' (hlevel i hi) (hview i hi)
      rw [hbody i s' hempty]
      exact h.slot hbatch hi hr' (level_succ_le hwf size) hempty (hnew i s') (hok i s')
    · rw [Nat.zero_mul]
      exact ⟨Beside.init hwf v, hr⟩
  cases hx : Loop.upTo body n s with
  | inl s' =>
    rw [hx] at hrun
    exact ⟨s', rfl, hrun.1⟩
  | inr x =>
    rw [hx] at hrun
    exact hrun.elim

/-- The arguments alone account for the error: one of the pages is a user page of the kernel half,
or a number is no multiple of the page size. -/
def BadArguments (virt size pageBytes : Nat) (numbers : List Nat) (flags : AccessFlags)
    (e : Error) : Prop :=
  e = .securityViolation ∧
    (∃ k, (k = 0 ∨ k < size) ∧ userInKernelHalf (add64 virt k) flags = true) ∨
    e = .invalidAlignment ∧ ∃ a ∈ numbers, a % pageBytes ≠ 0

/-- What `map` and `map_1gb_as_2mb` answer where nothing is mapped: they may run out of memory. -/
def Unhindered (s : PageMap) (held : List Nat) (v n : Nat) (bad : Error → Prop)
    (x : Except Error Unit × PageMap) : Prop :=
  (∀ e, x.1 = .error e → e = .outOfMemory ∨ bad e) ∧ (x.1 = .ok () → Beside s x.2 held v n)

theorem Unhindered.failed {bad : Error → Prop} {e : Error} (s s' : PageMap) (held : List Nat)
    (v n : Nat) (h : e = .outOfMemory ∨ bad e) : Unhindered s held v n bad (.error e, s') := by
  refine ⟨?_, nofun⟩
  rintro _ ⟨rfl⟩
  exact h

theorem Unhindered.done {bad : Error → Prop} {n : Nat} (h : Beside s s' held v n) :
    Unhindered s held v n bad (.ok (), s') :=
  ⟨nofun, fun _ => h⟩

theorem map1gbAs2mb_hole {bad : Error → Prop} (hany : ¬ Callers.canonical) (hwf : WF s held)
    (hlt : v < 2 ^ 64) (hv : v % sizeToBytes .size1G = 0) (hphys : phys % sizeToBytes .size1G = 0)
    (hlevel : ∀ i < 512, 2 ≤ (s.probe (v + i * levelCoverage 2)).level)
    (hview : ∀ w ∈ Seg s.feat.levels v (sizeToBytes .size1G), s.view w = none) :
    Unhindered s held v (sizeToBytes .size1G) bad (s.map1gbAs2mb v phys flags cache pkey) := by
  rw [map1gbAs2mb, if_neg (aligned_iff.2 ⟨hv, hphys⟩)]
  obtain ⟨r, s₁, hwalk, hwalked, hreach⟩ := walk_ok hwf v true .size1G
  rw [hwalk]
  cases r with
  | error e =>
    cases walk_memory hwf hwalk
    exact .failed _ _ _ _ _ (.inl rfl)
  | ok pte =>
    obtain ⟨f, hr, rfl⟩ := hreach pte rfl
    have hfeat₁ := hwalked.changes.feat
    have hpos : 0 < sizeToBytes .size1G := levelCoverage_pos _
    have hview₁ : ∀ w ∈ Seg s.feat.levels v (sizeToBytes .size1G), s₁.view w = none :=
      fun w hw => by
      rw [hwalked.changes.quiet w, hview w hw]
    have hleaf₂ : ∀ p, EntryOk s₁.feat (upperOf s₁.feat.levels v) size2M.level
        ((MapRequest.mk v flags cache pkey).leaf s₁.feat p .size2M) :=
      leaf_entryOk (leaf_anywhere hany v) (by rintro ⟨⟩)
    simp only
    cases hpresent : (s₁.load (slotOf v size1G.level f)).present with
    | false =>
      obtain ⟨r, s₂, halloc, hwf₂, hquiet₂, hframe⟩ := allocPagesZeroed_ok hwalked.wf
      simp only [Bool.not_false, if_true, halloc]
      cases r with
      | none => exact .failed _ _ _ _ _ (.inl rfl)
      | some g =>
        refine .done (Beside.walked hwalked hpos ?_)
        have hquiet : Quiet s₁ (s₂.fillTable g fun i =>
            buildSchema s₁.feat (add64 phys (i * sizeToBytes .size2M)) (leafFlags v flags)
              cache .size2M pkey) :=
          hquiet₂.trans (fillTable_quiet hwf₂)
        refine Beside.quiet hquiet (Beside.linked (linkable_directory ⟨v, flags, cache, pkey⟩ phys
          (fillTable_wf hwf₂) size1G_level (hquiet.tables hr) ?_ (hframe g rfl).1 (fun i => ?_)
          (leaf_anywhere hany v) _) hv)
        · rw [hquiet.load hr, hpresent]
        · rw [fillTable_load, if_pos rfl, hquiet.feat]
          rfl
    | true =>
      cases hhuge : (s₁.load (slotOf v size1G.level f)).huge with
      | true =>
        -- a leaf of 1 GiB would be a mapping
        have hleaf : ¬ s₁.DirAt v size1G.level f :=
          fun hdir => hdir.2 (.inr ⟨by decide, hhuge⟩)
        exact absurd (hview₁ v (add_mem_seg _ v hpos)) (view_ne_none hwalked.wf hr hleaf hpresent)
      | false =>
        simp only [Bool.not_true, Bool.false_eq_true, if_false]
        have hdir : s₁.DirAt v size1G.level f :=
          directory_of_not_huge (by decide) (by simpa using hpresent) (by simpa using hhuge)
        obtain ⟨hbatch, hfirst, hbound⟩ := gib_batch hwalked.wf.levels hv hlt
        have hnext : Reaches s₁ v size2M.level
            (nextTable (s₁.load (slotOf v size1G.level f))) := .step hr hdir
        have hlevel₁ :
            ∀ i < 512, size2M.level ≤ (s₁.probe (v + i * sizeToBytes .size2M)).level := by
          intro i hi
          refine walk_level hwf hwalk hwalked (by decide) (fun hpage => ?_) (hlevel i hi)
          have hadd : page s₁.feat.levels 2 (v + i * levelCoverage 2) = _ := hbatch.page_add hi
          rw [hfeat₁, show page s.feat.levels 2 (v + i * levelCoverage 2) = page s.feat.levels 2 v
            from hpage] at hadd
          obtain rfl : i = 0 := by omega
          rw [Nat.zero_mul, Nat.add_zero]
        obtain ⟨s', hfill, hbeside⟩ := slots_hole (n := 512) .size2M
          (fillSlot v (nextTable (s₁.load (slotOf v size1G.level f))) fun i =>
            buildSchema s₁.feat (add64 phys (i * sizeToBytes .size2M)) (leafFlags v flags)
              cache .size2M pkey)
          (fun i s' hempty => by
            have hloc :
                (slotOf v size2M.level (nextTable (s₁.load (slotOf v size1G.level f)))).at i =
                  ⟨nextTable (s₁.load (slotOf v size1G.level f)), i⟩ := by
              rw [slotOf, Loc.at, show tableIndex v size2M.level = 0 from hfirst, Nat.zero_add]
            rw [hloc] at hempty ⊢
            rw [fillSlot, hempty, if_neg Bool.false_ne_true])
          (fun _ _ => buildSchema_not_directory _ _ _ _ _ _) (fun i _ => hleaf₂ _) hwalked.wf
          hbatch hnext hlevel₁ (fun i hi => hview₁ _ (add_mem_seg _ v (by
            show i * 2097152 < 1073741824
            omega)))
        rw [maxPageEntries, hfill]
        exact .done (Beside.walked hwalked hpos hbeside)

/-- **`map`**, where nothing is mapped and no table is left. -/
theorem map_hole {size : PageSize} (flags : AccessFlags) (cache : CacheMode) (pkey : Nat)
    (hany : ¬ Callers.canonical) (hwf : WF s held) (hlt : v < 2 ^ 64)
    (hleft : NoTableLeft s v phys (sizeToBytes size))
    (hview : ∀ w ∈ Seg s.feat.levels v (sizeToBytes size), s.view w = none) :
    Unhindered s held v (sizeToBytes size)
      (BadArguments v (sizeToBytes size) (sizeToBytes size) [v, phys] flags)
      (s.map v phys flags cache pkey size) := by
  have hrefused : ∀ e, BadArguments v (sizeToBytes size) (sizeToBytes size) [v, phys] flags e →
      Unhindered s held v (sizeToBytes size)
        (BadArguments v (sizeToBytes size) (sizeToBytes size) [v, phys] flags) (.error e, s) :=
    fun e hbad => .failed _ _ _ _ _ (.inr hbad)
  unfold map
  split
  · rename_i huser
    refine hrefused _ (.inl ⟨rfl, 0, .inl rfl, ?_⟩)
    rwa [add64, Nat.add_zero, Nat.mod_eq_of_lt hlt]
  by_cases haligned : v % sizeToBytes size = 0 ∧ phys % sizeToBytes size = 0
  swap
  · rw [if_pos (by simpa [isAligned, not_and_or, -not_and] using haligned)]
    refine hrefused _ (.inr ⟨rfl, ?_⟩)
    simpa [not_and_or, -not_and] using haligned
  rw [if_neg (aligned_iff.2 haligned)]
  obtain ⟨hv, hphys⟩ := haligned
  split
  · rename_i hgib
    obtain ⟨rfl, hgib⟩ := hgib
    apply map1gbAs2mb_hole hany hwf hlt hv hphys _ hview
    intro i hi
    apply hleft _ 2 le_rfl
    · split <;> decide
    · simp only [sizeToBytes_eq] at hv
      show (v + i * 2097152) % 2097152 = 0
      omega
    · simp only [sizeToBytes_eq] at hphys
      show (phys + i * 2097152) % 2097152 = 0
      omega
    · show i * 2097152 + 2097152 ≤ 1073741824
      omega
  rename_i hgib
  obtain ⟨r, s₁, hwalk, hwalked, hreach⟩ := walk_ok hwf v true size
  rw [hwalk]
  cases r with
  | error e =>
    cases walk_memory hwf hwalk
    exact .failed _ _ _ _ _ (.inl rfl)
  | ok pte =>
    obtain ⟨f, hr, rfl⟩ := hreach pte rfl
    have hpos : 0 < sizeToBytes size := levelCoverage_pos _
    have hlevel : size.level ≤ (s.probe v).level := by
      cases hsize : size with
      | size4K =>
        obtain ⟨l, f, hl, -, -, hprobe⟩ := probe_reaches hwf.levels_pos v
        rwa [hprobe]
      | size2M =>
        subst hsize
        exact hleft 0 2 le_rfl (by split <;> decide) hv hphys le_rfl
      | size1G =>
        subst hsize
        have hhuge : s.feat.huge1g = true := by simpa using hgib
        exact hleft 0 3 (by decide) (by rw [if_pos hhuge]) hv hphys le_rfl
    have hempty := slot_empty hwalked.wf hr (hwalked.level v hlevel) (by
      rw [hwalked.changes.quiet v, hview v (add_mem_seg _ v hpos)])
    simp only [hempty, Bool.false_eq_true, if_false]
    refine .done (Beside.walked hwalked hpos (Beside.leaf hwalked.wf hr hempty hv
      (buildSchema_not_directory _ _ _ _ _ _) ?_))
    show EntryOk _ _ _ ((MapRequest.mk v flags cache pkey).leaf _ _ _)
    apply leaf_entryOk (leaf_anywhere hany v)
    rintro rfl
    rw [hwalked.changes.feat]
    simpa using hgib

end

/-! ## Ranges where nothing is mapped -/

section

variable [Callers] {s₀ s s' : PageMap} {held : List Nat} {start phys size : Nat}

omit [Callers] in
/-- Wrapping around at 2^64 does not change the translated part. -/
theorem lin_add64 {L : Nat} (hL : L = 4 ∨ L = 5) (a b k : Nat) :
    lin L (add64 a b + k) = lin L (a + (b + k)) := by
  have hdvd : span L ∣ 2 ^ 64 := by
    rcases hL with rfl | rfl <;> exact pow_dvd_pow 2 (by decide)
  rw [lin, lin, add64, Nat.add_mod, Nat.mod_mod_of_dvd _ hdvd, ← Nat.add_mod, Nat.add_assoc]

omit [Callers] in
theorem seg_add64 {L : Nat} (hL : L = 4 ∨ L = 5) (a b n : Nat) :
    Seg L (add64 a b) n = Seg L (a + b) n := by
  ext w
  simp only [Seg, lin_add64 hL, Nat.add_assoc]

omit [Callers] in
theorem probe_level_of_lin {v w : Nat} (hL : 1 ≤ s.feat.levels)
    (h : lin s.feat.levels w = lin s.feat.levels v) : (s.probe w).level = (s.probe v).level :=
  (probe_of_page_eq hL (by rw [page, page, h])).1

theorem Beside.of_seg {v v' n : Nat} (hseg : Seg s.feat.levels v n = Seg s.feat.levels v' n)
    (h : Beside s s' held v n) : Beside s s' held v' n where
  wf := h.wf
  feat := h.feat
  view w hw := h.view w (by rwa [hseg])
  level w m hw hle := h.level w m (by rwa [hseg]) hle

/-- What `map_range` knows when it comes to an address. -/
def FreeUpTo (s₀ : PageMap) (held : List Nat) (start phys size : Nat)
    (st : PageMap × Nat × Nat × Nat) : Prop :=
  ∃ done, done ≤ size ∧ done % 4096 = 0 ∧ st.2 = (add64 start done, add64 phys done, size - done) ∧
    Beside s₀ st.1 held start done

variable (hspan : size ≤ span s₀.feat.levels) (hleft : NoTableLeft s₀ start phys size)
  (hview : ∀ w ∈ Seg s₀.feat.levels start size, s₀.view w = none)

include hspan in
/-- A page inside the rest of the range has not been touched. -/
theorem Beside.rest {done j l : Nat} (h : Beside s₀ s held start done) (hl : l ≤ s₀.feat.levels + 1)
    (halign : (start + (done + j)) % levelCoverage l = 0) (hfit : done + j + levelCoverage l ≤ size)
    (hlevel : l ≤ (s₀.probe (start + (done + j))).level) :
    l ≤ (s.probe (start + (done + j))).level := by
  apply h.level _ _ (fun u hu hpage => ?_) hlevel
  have hmem := (page_eq_iff_seg hl halign).1 hpage.symm
  exact seg_disjoint (a := done + j) (hfit.trans hspan) (Seg.subset (Nat.le_add_right _ _) hu) hmem

include hspan hview in
theorem Beside.rest_view {done n w : Nat} (h : Beside s₀ s held start done) (hle : done + n ≤ size)
    (hw : w ∈ Seg s₀.feat.levels (start + done) n) : s.view w = none := by
  have hin : w ∈ Seg s₀.feat.levels start size := by
    apply Seg.subset hle
    rw [seg_add]
    exact .inr hw
  rw [h.view w fun hdone => seg_disjoint (hle.trans hspan) hdone hw, hview w hin]

include hspan hleft in
/-- What is left of the request meets no tables either. -/
theorem Beside.rest_tables {done n : Nat} (hL : s₀.feat.levels = 4 ∨ s₀.feat.levels = 5)
    (h : Beside s₀ s held start done) (hle : done + n ≤ size) :
    NoTableLeft s (add64 start done) (add64 phys done) n := by
  intro j l h2 hl hv hp hj
  rw [h.feat] at hl
  have hl3 : l ≤ 3 := by
    split at hl <;> omega
  have hdvd : levelCoverage l ∣ 2 ^ 64 := by
    rw [levelCoverage_eq]
    exact pow_dvd_pow 2 (by omega)
  have hmod : ∀ a, (add64 a done + j) % levelCoverage l = (a + (done + j)) % levelCoverage l := by
    intro a
    rw [add64, Nat.add_mod, Nat.mod_mod_of_dvd _ hdvd, ← Nat.add_mod, Nat.add_assoc]
  rw [hmod] at hv hp
  have hlevel := h.rest hspan (by omega) hv (by omega) (hleft _ l h2 hl hv hp (by omega))
  rwa [probe_level_of_lin h.wf.levels_pos (lin_add64 h.wf.levels _ _ _)]

include hspan hleft hview in
theorem mapRound_hole (hany : ¬ Callers.canonical) (hstart : start % 4096 = 0)
    (hsize : size % 4096 = 0)
    (req : MapRequest) {st : PageMap × Nat × Nat × Nat}
    (hinv : FreeUpTo s₀ held start phys size st) : Sum.elim (FreeUpTo s₀ held start phys size)
      (fun x => ∀ e left, x.1 = .error (e, left) →
        e = .outOfMemory ∨ BadArguments start size 4096 [start, phys, size] req.flags e)
          (mapRound req st) := by
  obtain ⟨s, curr⟩ := st
  obtain ⟨done, hdone, hmod, hcurr, h⟩ := hinv
  simp only at hcurr h
  subst hcurr
  simp only [mapRound]
  split
  swap
  · simp
  rename_i hpos
  have hL : s₀.feat.levels = 4 ∨ s₀.feat.levels = 5 := h.feat ▸ h.wf.levels
  have hseg : ∀ n, Seg s.feat.levels (add64 start done) n =
      Seg s₀.feat.levels (start + done) n := by
    intro n
    rw [h.feat, seg_add64 hL]
  -- the rest of a round that maps `n` bytes
  have hpass : ∀ {s' n}, n % 4096 = 0 → n ≤ size - done → Beside s s' held (add64 start done) n →
      FreeUpTo s₀ held start phys size
        (s', add64 (add64 start done) n, add64 (add64 phys done) n, size - done - n) := by
    intro s' n hn hle h'
    refine ⟨done + n, by omega, by omega, ?_, h.trans (h'.of_seg ?_)⟩
    · rw [add64_add64, add64_add64, Nat.sub_sub]
    · rw [hseg, h.feat]
  split
  · rename_i hbest
    obtain ⟨hbytes, halign, halign'⟩ := bestSize_ok rfl hbest
    generalize bestSize (add64 start done) (add64 phys done) (size - done) =
      big at hbytes halign halign' ⊢
    obtain ⟨herror, hok⟩ := map_hole req.flags req.cache req.pkey hany h.wf
      (add64_lt start done) (h.rest_tables hspan hleft hL (by omega))
      (fun w hw => h.rest_view hspan hview (n := sizeToBytes big) (by omega) (hseg _ ▸ hw))
    split
    · rename_i e _ heq
      rw [heq] at herror
      rintro _ _ ⟨rfl, rfl⟩
      refine (herror e rfl).imp_right fun hbad => ?_
      rcases hbad with ⟨rfl, k, hk, huser⟩ | ⟨-, a, ha, hmisaligned⟩
      · rw [add64_add64] at huser
        exact .inl ⟨rfl, done + k, .inr (by have := levelCoverage_pos big.level; omega), huser⟩
      · -- the page was chosen for the addresses
        rcases List.mem_pair.1 ha with rfl | rfl
        · exact absurd halign hmisaligned
        · exact absurd halign' hmisaligned
    · rename_i heq
      rw [heq] at hok
      exact hpass (Nat.mod_eq_zero_of_dvd (dvd_levelCoverage _)) hbytes (hok rfl)
  · obtain ⟨r, s₁, hwalk, hwalked, hreach⟩ := walk_ok h.wf (add64 start done) true .size4K
    rw [hwalk]
    cases r with
    | error e =>
      rintro _ _ ⟨rfl, rfl⟩
      exact .inl (walk_memory h.wf hwalk)
    | ok pte =>
      obtain ⟨f, hr, rfl⟩ := hreach pte rfl
      have hvirt : add64 start done % 4096 = 0 := add64_aligned hstart hmod
      obtain ⟨n, hchunk, hnpos, hn, hnle, hbytes, hbatch⟩ := chunk_pages (r := size - done)
        hwalked.wf.levels_pos hvirt (by omega) hpos
      have hleaf₁ : ∀ p, EntryOk s₁.feat (upperOf s₁.feat.levels (add64 start done)) size4K.level
          (req.leaf s₁.feat p .size4K) :=
        leaf_entryOk (leaf_anywhere hany _) (by rintro ⟨⟩)
      obtain ⟨s', hslots, hbeside⟩ := slots_hole (n := n / pageSize) .size4K
        (mapSlot (slotOf (add64 start done) size4K.level f) fun i =>
          buildSchema s₁.feat (add64 (add64 phys done) (i * pageSize))
            (leafFlags req.startVirt req.flags) req.cache .size4K req.pkey)
        (fun i s' hempty => by rw [mapSlot, hempty, if_neg Bool.false_ne_true])
        (fun _ _ => buildSchema_not_directory _ _ _ _ _ _)
        (fun i _ => hleaf₁ _) hwalked.wf hbatch hr
        (fun i _ => by
          obtain ⟨l, f, hl, -, -, hprobe⟩ := probe_reaches hwalked.wf.levels_pos
            (add64 start done + i * sizeToBytes .size4K)
          rwa [hprobe])
        (fun i hi => by
          rw [hwalked.changes.quiet _]
          refine h.rest_view hspan hview (n := n) (by omega) (hseg n ▸ add_mem_seg _ _ ?_)
          rw [pageSize_eq] at hi
          show i * 4096 < n
          omega)
      simp only [hchunk, hslots]
      rw [show n / pageSize * sizeToBytes .size4K = n from hbytes] at hbeside
      exact hpass hn hnle (Beside.walked hwalked hnpos hbeside)

include hspan hleft hview in
/-- **`map_range`**, where nothing is mapped and no table is left. -/
theorem mapRange_hole (hany : ¬ Callers.canonical) (hwf : WF s₀ held) (hstart64 : start < 2 ^ 64)
    (hphys64 : phys < 2 ^ 64) {flags : AccessFlags} {cache : CacheMode} {pkey : Nat} {e : Error}
    (h : s₀.mapRange start phys size flags cache pkey = some (.error e, s')) :
    e = .outOfMemory ∨ BadArguments start size 4096 [start, phys, size] flags e := by
  unfold mapRange at h
  split at h
  · rename_i huser
    cases h
    refine .inr (.inl ⟨rfl, 0, .inl rfl, ?_⟩)
    rwa [add64, Nat.add_zero, Nat.mod_eq_of_lt hstart64]
  by_cases haligned : (start % 4096 = 0 ∧ phys % 4096 = 0) ∧ size % 4096 = 0
  swap
  · rw [if_pos (by simpa [isAligned_page, not_and_or, -not_and] using haligned)] at h
    cases h
    refine .inr (.inr ⟨rfl, ?_⟩)
    simpa [not_and_or, or_assoc, -not_and] using haligned
  rw [if_neg (pages_iff.2 haligned)] at h
  have hinit : FreeUpTo s₀ held start phys size (s₀, start, phys, size) := by
    refine ⟨0, Nat.zero_le _, rfl, ?_, Beside.init hwf start⟩
    rw [add64, add64, Nat.add_zero, Nat.add_zero, Nat.mod_eq_of_lt hstart64,
      Nat.mod_eq_of_lt hphys64, Nat.sub_zero]
  have hround := fun st (hst : FreeUpTo s₀ held start phys size st) =>
    mapRound_hole hspan hleft hview hany haligned.1.1 haligned.2 ⟨start, flags, cache, pkey⟩ hst
  split at h
  · cases h
  · cases h
  · rename_i hrun
    have hend := Loop.run_of_some _ _ hround hinit hrun
    split at h
    · cases h
    · cases h
      exact hend e _ rfl

end

/-! ## After any sequence of calls -/

section

/-- What a walk cannot tell apart is mapped together. -/
theorem view_none_of_lin {s : PageMap} {v w : Nat} (hL : 1 ≤ s.feat.levels)
    (h : lin s.feat.levels w = lin s.feat.levels v) (hv : s.translate v = none) :
    s.view w = none := by
  obtain ⟨hlevel, hvalue⟩ := probe_of_page_eq (s := s) (v := v) (w := w) hL (by rw [page, page, h])
  rw [← view_none_iff, view_eq] at hv
  rw [view_eq, hlevel, hvalue]
  cases hframe : extractAddress (s.probe v).value (ofLevel (s.probe v).level) with
  | none => simp [leafView, interpret, hframe]
  | some base =>
    simp only [leafView, interpret, hframe, Option.map_some, ite_eq_right_iff, reduceCtorEq,
      imp_false] at hv ⊢
    exact hv

theorem fresh_view (feat : PagingFeatures) (root : Nat) (free : List Nat)
    (outcomes : List (Option Nat)) (w : Nat) : (fresh feat root free outcomes).view w = none := by
  have hload : ∀ p, (fresh feat root free outcomes).load p = 0 := fun _ => rfl
  have hvalue : ((fresh feat root free outcomes).probe w).value = 0 := by
    rw [probe]
    cases (fresh feat root free outcomes).feat.levels with
    | zero => rfl
    | succ l => rw [probeFrom_succ, hload, if_neg (not_isDirectory_zero _)]
  rw [view_eq, hvalue, leafView_zero]

attribute [local instance] Callers.any

end

end PageMap

end Erebus.Vmm
