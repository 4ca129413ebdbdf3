import Erebus.Memory.Vmm.PageMap.Runs

/-!
# What unmapping and remapping touch

`unmap` and `remap` walk to the slot of the level they are asked for and overwrite what is there. A
walk splits the huge leaves above that slot, but says nothing about the slot itself: it may hold the
directory of smaller pages. `unmap_range` looks at what is there, but only at the translated bits of
an address, and it compares addresses with the end of the range, which may be 0.

* `UnmapsPage`, `RemapsPage`: a call touches the one page it is asked for, and no table is lost.
* `unmapsPage_iff`, `remapsPage_iff`: this is so if and only if no table lies below the slot, which
  `probe` tells.
* `UnmapsRange`: a call of `unmap_range` empties the canonical addresses of its range and no others.
* `RangeSafe`: the ranges for which it does.
-/

namespace Erebus.Vmm

open PTEntry

namespace PageMap

/-- What a call of `unmap` that answered `r` and left `s'` is for. -/
structure UnmapsPage (s : PageMap) (v : Nat) (size : PageSize) (r : Except Error Nat)
    (s' : PageMap) : Prop where
  leaf : ∀ addr, r = .ok addr → ∃ t, s.translate v = some t ∧ size.level ≤ t.mappedSize.level ∧
    t.physAddress = addr
  page : ∀ addr, r = .ok addr → ∀ w, page s.feat.levels size.level w =
    page s.feat.levels size.level v → s.view w ≠ none ∧ s'.view w = none
  rest : ∀ w, Vmm.page s.feat.levels size.level w ≠ Vmm.page s.feat.levels size.level v →
    s'.view w = s.view w
  failed : (∀ addr, r ≠ .ok addr) → ∀ w, s'.view w = s.view w
  tables : ∀ w l f, Reaches s w l f → Reaches s' w l f

/-- What a call of `remap` that answered `r` and left `s'` is for; `new` is the leaf it was asked
for. -/
structure RemapsPage (s : PageMap) (v : Nat) (size : PageSize) (new : PTEntry)
    (r : Except Error Unit) (s' : PageMap) : Prop where
  leaf : r = .ok () → ∃ t, s.translate v = some t ∧ size.level ≤ t.mappedSize.level
  page : r = .ok () → ∀ w, page s.feat.levels size.level w = page s.feat.levels size.level v →
    s.view w ≠ none ∧ s'.view w = leafView size.level new w
  rest : ∀ w, Vmm.page s.feat.levels size.level w ≠ Vmm.page s.feat.levels size.level v →
    s'.view w = s.view w
  failed : r ≠ .ok () → ∀ w, s'.view w = s.view w
  tables : ∀ w l f, Reaches s w l f → Reaches s' w l f

/-- `remap` refuses user mappings in the kernel half and frames that are not aligned. -/
def RemapRefused (v phys : Nat) (flags : AccessFlags) (size : PageSize) : Prop :=
  (isUpperHalf v && flags.has .user) = true ∨ phys % sizeToBytes size ≠ 0

section Slots

variable [Callers] {s s' : PageMap} {held : List Nat} {v w l m f g : Nat} {size : PageSize}

omit [Callers] in
/-- A walk passes every level above the table it comes to. -/
theorem Reaches.above (hr : Reaches s v l f) (hlm : l ≤ m) (hm : m ≤ s.feat.levels) :
    ∃ g, Reaches s v m g := by
  induction hr with
  | root =>
    obtain rfl : m = s.feat.levels := le_antisymm hm hlm
    exact ⟨_, .root⟩
  | step hr hdir ih =>
    rename_i l f
    rcases Nat.lt_or_ge l m with hlt | hge
    · exact ih hlt
    · obtain rfl : m = l := le_antisymm hge hlm
      exact ⟨_, .step hr hdir⟩

/-- Where a table lies below the slot, the walk comes at once to the directory in it, and to
overwrite that with something else loses the table. -/
theorem walk_below (hwf : WF s held) (hlt : (s.probe v).level < size.level) :
    ∃ g, s.walk v false size = (.ok (slotOf v size.level g), s) ∧
    (s.load (slotOf v size.level g)).present = true ∧
      ∀ e, ¬ IsDirectory size.level e → ∀ bytes, ¬ ∀ w l f, Reaches s w l f →
        Reaches ((s.store (slotOf v size.level g) e).broadcast v bytes size) w l f := by
  obtain ⟨l, f, hl, hr, -, hprobe⟩ := probe_reaches hwf.levels_pos v
  rw [hprobe] at hlt
  have hlevels := level_succ_le hwf size
  obtain ⟨g, hg⟩ := hr.above (Nat.le_of_lt hlt) (by omega)
  refine ⟨g, walk_of_reaches hwf false hg, (hg.directory hr hlt).1, fun e hnot bytes htables => ?_⟩
  have hdir := (htables _ _ _ hg).directory (htables _ _ _ hr) hlt
  rw [DirAt, load, broadcast_mem, ← load, store_load, if_pos rfl] at hdir
  exact hnot hdir

/-- Otherwise the slot the walk comes to holds a leaf, or nothing. -/
theorem walk_leaf (hwf : WF s held) (hle : size.level ≤ (s.probe v).level) :
    ∃ r s', s.walk v false size = (r, s') ∧ Walked s s' held v size.level ∧
      ∀ pte, r = .ok pte → ∃ g, Reaches s' v size.level g ∧ pte = slotOf v size.level g ∧
        ¬ IsDirectory size.level (s'.load pte) := by
  obtain ⟨r, s', hwalk, hwalked, hreach⟩ := walk_ok hwf v false size
  refine ⟨r, s', hwalk, hwalked, fun pte hpte => ?_⟩
  obtain ⟨g, hg, rfl⟩ := hreach pte hpte
  refine ⟨g, hg, rfl, ?_⟩
  obtain ⟨l, f, hl, hr, hleaf, hprobe⟩ := probe_reaches hwalked.wf.levels_pos v
  have hlevel := hwalked.level v hle
  have hbound := hg.probe_level_le
  rw [hprobe] at hlevel hbound
  obtain rfl : l = size.level := le_antisymm hbound hlevel
  rwa [hg.unique hr]

variable (hwalked : Walked s s' held v size.level) (hr : Reaches s' v size.level g)
  (hleaf : ¬ s'.DirAt v size.level g)
include hwalked hr hleaf

/-- The leaf in the slot is the part of the old leaf the call is about. -/
theorem leaf_of_slot (hwf : WF s held) {e : PTEntry} (he : s'.load (slotOf v size.level g) = e)
    (hpresent : e.present = true) (hle : size.level ≤ (s.probe v).level)
    (hv : v % sizeToBytes size = 0) :
    ∃ t base, s.translate v = some t ∧ size.level ≤ t.mappedSize.level ∧
    extractAddress e size = some base ∧
      t.physAddress = base ∧ ∀ w, s.SamePage size.level v w → s.view w ≠ none := by
  have hofLevel : PageSize.ofLevel size.level = size := by cases size <;> rfl
  have hok := hwalked.wf.entries hr
  rw [he] at hok
  rw [DirAt, he] at hleaf
  obtain ⟨base, hbase⟩ := extractAddress_of_not_swapped (hok.leaf hpresent hleaf).swapped size
  have hview : ∀ w, s.SamePage size.level v w → s.view w = leafView size.level e w := by
    intro w hw
    rw [SamePage, ← hwalked.changes.feat] at hw
    rw [← hwalked.changes.quiet w,
      view_of_page hwalked.wf.levels_pos hr (by rwa [DirAt, he]) hw, he]
  have hsome : ∀ w, leafView size.level e w =
      some ⟨add64 base (w % sizeToBytes size), extractFlags e,
      extractCache e (1 < size.level), e.pkey⟩ := by
    intro w
    simp [leafView, hpresent, interpret, hofLevel, hbase, TranslationResult.mapping]
  have hview_v := (hview v rfl).trans (hsome v)
  obtain ⟨t, ht, hmapping⟩ := Option.map_eq_some_iff.1 hview_v
  refine ⟨t, base, ht, ?_, hbase, ?_, fun w hw => ?_⟩
  · rw [(translate_some hwf.levels_pos ht).2]
    exact hle
  · have hphys : t.physAddress = add64 base (v % sizeToBytes size) :=
      congrArg Mapping.physAddress hmapping
    have hbound := (extractAddress_bound hbase).2
    rw [hphys, hv, add64, Nat.add_zero, Nat.mod_eq_of_lt (by omega)]
  · rw [hview w hw, hsome]
    exact Option.some_ne_none _

/-- Another leaf is stored in the slot and the page is flushed. -/
theorem replaced {e : PTEntry} (hnew : ¬ IsDirectory size.level e)
    (hok : EntryOk s'.feat (upperOf s'.feat.levels v) size.level e) (bytes : Nat) :
    let s'' := (s'.store (slotOf v size.level g) e).broadcast v bytes size
    (∀ w, s.SamePage size.level v w → s''.view w = leafView size.level e w) ∧
    (∀ w, ¬ s.SamePage size.level v w → s''.view w = s.view w) ∧
    ∀ w l f, Reaches s w l f → Reaches s'' w l f := by
  intro s''
  have hstore := store_changes hwalked.wf hr hleaf hnew hok
  have hflush := broadcast_changes (overwrite_wf hwalked.wf hr hnew hok) v bytes size
  have hfeat := hwalked.changes.feat
  simp only [SamePage, hfeat] at hstore
  refine ⟨fun w hw => ?_, fun w hw => ?_, fun w l f h => ?_⟩
  · rw [hflush.quiet w, store_view hwalked.wf hr hleaf hnew (by rwa [SamePage, hfeat])]
  · rw [hflush.quiet w, hstore.view w hw, hwalked.changes.quiet w]
  · exact hflush.tables (hstore.tables (hwalked.changes.tables h))

omit hwalked hr hleaf

/-- **`unmap`** does what it is for if and only if no table lies below the slot. -/
theorem unmapsPage_iff (hwf : WF s held) (hgib : s.feat.huge1g = true)
    (hv : v % sizeToBytes size = 0) :
    UnmapsPage s v size (s.unmap v size).1 (s.unmap v size).2 ↔ size.level ≤ (s.probe v).level := by
  have haligned : ¬ (!isAligned v (sizeToBytes size)) = true := by simp [isAligned, hv]
  have hbig : ¬ (size = .size1G ∧ (!s.feat.huge1g) = true) := by simp [hgib]
  rw [unmap, if_neg haligned, if_neg hbig]
  constructor
  · intro h
    by_contra hlt
    obtain ⟨g, hwalk, hpresent, hlost⟩ := walk_below hwf (Nat.lt_of_not_le hlt)
    rw [hwalk] at h
    simp only [hpresent, Bool.not_true, Bool.false_eq_true, if_false] at h
    split at h <;> exact hlost _ (not_isDirectory_zero size.level) _ h.tables
  · intro hle
    obtain ⟨r, s', hwalk, hwalked, hreach⟩ := walk_leaf hwf hle
    have hsame := hwalked.changes.quiet
    have hfail : ∀ e : Error, UnmapsPage s v size (.error e) s' := fun e =>
      ⟨(by simp), (by simp), fun w _ => hsame w, fun _ => hsame,
        fun _ _ _ h => hwalked.changes.tables h⟩
    rw [hwalk]
    cases r with
    | error e => exact hfail e
    | ok pte =>
      obtain ⟨g, hr, rfl, hleaf⟩ := hreach pte rfl
      simp only
      cases hpresent : (s'.load (slotOf v size.level g)).present with
      | false => exact hfail _
      | true =>
        obtain ⟨tr, base, ht, hsize, hbase, hphys, hbefore⟩ :=
          leaf_of_slot hwalked hr hleaf hwf rfl hpresent hle hv
        obtain ⟨hpage, hrest, htables⟩ := replaced hwalked hr hleaf (not_isDirectory_zero _)
          (zero_entryOk _ _ _) (sizeToBytes size)
        simp only [Bool.not_true, Bool.false_eq_true, if_false, hbase]
        refine ⟨?_, ?_, hrest, fun h => absurd rfl (h base), htables⟩
        · rintro addr ⟨⟩
          exact ⟨tr, ht, hsize, hphys⟩
        · intro _ _ w hw
          exact ⟨hbefore w hw, (hpage w hw).trans (leafView_zero _ _)⟩

variable {phys pkey : Nat} {flags : AccessFlags} {cache : CacheMode}

/-- **`remap`**, if it does not refuse the request, does what it is for if and only if no table lies
below the slot. -/
theorem remapsPage_iff (hany : ¬ Callers.canonical) (hwf : WF s held) (hgib : s.feat.huge1g = true)
    (hv : v % sizeToBytes size = 0) :
    RemapsPage s v size (buildSchema s.feat phys (leafFlags v flags) cache size pkey)
        (s.remap v phys flags cache pkey size).1 (s.remap v phys flags cache pkey size).2 ↔
      RemapRefused v phys flags size ∨ size.level ≤ (s.probe v).level := by
  have hrefuse : ∀ e : Error,
      RemapsPage s v size (buildSchema s.feat phys (leafFlags v flags) cache size pkey)
      (.error e) s := fun e =>
    ⟨nofun, nofun, fun _ _ => rfl, fun _ _ => rfl, fun _ _ _ h => h⟩
  by_cases huser : (isUpperHalf v && flags.has .user) = true
  · rw [remap, if_pos huser]
    exact iff_of_true (hrefuse _) (.inl (.inl huser))
  rw [remap, if_neg huser]
  by_cases hphys : phys % sizeToBytes size = 0
  swap
  · have hnot : (!isAligned v (sizeToBytes size) || !isAligned phys (sizeToBytes size)) = true := by
      simp [isAligned, hphys]
    rw [if_pos hnot]
    exact iff_of_true (hrefuse _) (.inl (.inr hphys))
  have haligned :
      ¬ (!isAligned v (sizeToBytes size) || !isAligned phys (sizeToBytes size)) = true := by
    simp [isAligned, hv, hphys]
  have hbig : ¬ (size = .size1G ∧ (!s.feat.huge1g) = true) := by simp [hgib]
  have hnot : ¬ RemapRefused v phys flags size := by
    rintro (h | h)
    · exact huser h
    · exact h hphys
  rw [if_neg haligned, if_neg hbig, or_iff_right hnot]
  constructor
  · intro h
    by_contra hlt
    obtain ⟨g, hwalk, hpresent, hlost⟩ := walk_below hwf (Nat.lt_of_not_le hlt)
    rw [hwalk] at h
    simp only [hpresent, Bool.not_true, Bool.false_eq_true, if_false] at h
    exact hlost _ (buildSchema_not_directory _ _ _ _ _ _) _ h.tables
  · intro hle
    obtain ⟨r, s', hwalk, hwalked, hreach⟩ := walk_leaf hwf hle
    have hsame := hwalked.changes.quiet
    have hfail : ∀ e : Error,
        RemapsPage s v size (buildSchema s.feat phys (leafFlags v flags) cache size pkey)
        (.error e) s' := fun e =>
      ⟨nofun, nofun, fun w _ => hsame w, fun _ => hsame, fun _ _ _ h => hwalked.changes.tables h⟩
    rw [hwalk]
    cases r with
    | error e => exact hfail e
    | ok pte =>
      obtain ⟨g, hr, rfl, hleaf⟩ := hreach pte rfl
      simp only
      cases hpresent : (s'.load (slotOf v size.level g)).present with
      | false => exact hfail _
      | true =>
        obtain ⟨tr, base, ht, hsize, -, -, hbefore⟩ :=
          leaf_of_slot hwalked hr hleaf hwf rfl hpresent hle hv
        have hok : EntryOk s'.feat (upperOf s'.feat.levels v) size.level
            ((MapRequest.mk v flags cache pkey).leaf s'.feat phys size) :=
          leaf_entryOk (leaf_anywhere hany v) (fun _ => hwalked.changes.feat ▸ hgib) phys
        obtain ⟨hpage, hrest, htables⟩ := replaced hwalked hr hleaf
          (buildSchema_not_directory _ _ _ _ _ _) hok (sizeToBytes size)
        simp only [Bool.not_true, Bool.false_eq_true, if_false]
        refine ⟨fun _ => ⟨tr, ht, hsize⟩, fun _ w hw => ⟨hbefore w hw, ?_⟩, hrest,
          fun h => absurd rfl h, htables⟩
        rw [← hwalked.changes.feat]
        exact hpage w hw

omit [Callers] in
/-- The canonical addresses of the page around an aligned canonical address. -/
theorem page_eq_iff_of_canonical {L : Nat} (hL : L = 4 ∨ L = 5) (hv : v % sizeToBytes size = 0)
    (hcanon : Canonical L v) (hw : Canonical L w) :
    page L size.level w = page L size.level v ↔ v ≤ w ∧ w < v + sizeToBytes size := by
  have hin : InHalf L v (sizeToBytes size) := by
    rcases hL with rfl | rfl <;> cases size <;>
      simp only [InHalf, Canonical, span, sizeToBytes_eq] at * <;> omega
  have hle : size.level ≤ L + 1 := by
    have h3 := PageSize.level_le size
    omega
  rw [page_eq_iff_seg hle hv, hin.mem_iff_seg hL hw]
  rfl

end Slots

/-! ## After any sequence of calls -/

section

attribute [local instance] Callers.any

/-- **One page.**  After any sequence of calls, `unmap` and a `remap` that is not refused succeed
only on a leaf that holds the whole page, change the mapping of the page and nothing else, and keep
all tables, if and only if `probe` does not stop below the level of the page. The page of a
canonical address is the interval that starts there. -/
theorem one_page_iff_no_table_below {s₀ s : PageMap} {held : List Nat} {calls : List Call}
    (hwf : WF s₀ held) (hrun : s₀.run calls = some s) (hgib : s.feat.huge1g = true)
    (virt : BitVec 64) (size : PageSize) (hvirt : virt.toNat % sizeToBytes size = 0) :
    (UnmapsPage s virt.toNat size (s.unmap virt.toNat size).1 (s.unmap virt.toNat size).2 ↔
        size.level ≤ (s.probe virt.toNat).level) ∧
      (∀ (phys : BitVec 64) (flags : AccessFlags) (cache : CacheMode) (pkey : Nat),
        RemapsPage s virt.toNat size
            (buildSchema s.feat phys.toNat (leafFlags virt.toNat flags) cache size pkey)
            (s.remap virt.toNat phys.toNat flags cache pkey size).1
            (s.remap virt.toNat phys.toNat flags cache pkey size).2 ↔
          RemapRefused virt.toNat phys.toNat flags size ∨ size.level ≤ (s.probe virt.toNat).level) ∧
      (Canonical s.feat.levels virt.toNat → ∀ w, Canonical s.feat.levels w →
        (page s.feat.levels size.level w = page s.feat.levels size.level virt.toNat ↔
          virt.toNat ≤ w ∧ w < virt.toNat + sizeToBytes size)) := by
  have hwf := run_wf hwf hrun
  refine ⟨unmapsPage_iff hwf hgib hvirt, fun phys flags cache pkey => ?_, fun hcanon w hw => ?_⟩
  · exact remapsPage_iff id hwf hgib hvirt
  · exact page_eq_iff_of_canonical hwf.levels hvirt hcanon hw

/-- A 2 MiB leaf, of which one 4 KiB page is unmapped. -/
theorem one_page_iff_no_table_below_two :
    ∃ s, (fresh ⟨true, true, 4⟩ 1 [2, 3, 4] [some 2, some 3, some 4]).run
        [.map 0x400000000000 0x200000 .write .writeBack 0 .size2M] = some s ∧
      (s.unmap 0x400000003000 .size4K).1 = .ok 0x203000 ∧
      UnmapsPage s 0x400000003000 .size4K (.ok 0x203000) (s.unmap 0x400000003000 .size4K).2 := by
  have hfresh : WF (fresh ⟨true, true, 4⟩ 1 [2, 3, 4] [some 2, some 3, some 4]) [] :=
    fresh_wf _ (.inl rfl) (by decide) (by decide)
  have hanswer : ((fresh ⟨true, true, 4⟩ 1 [2, 3, 4] [some 2, some 3, some 4]).run
      [.map 0x400000000000 0x200000 .write .writeBack 0 .size2M]).map (fun s =>
        ((s.unmap 0x400000003000 .size4K).1, (s.probe 0x400000003000).level, s.feat.huge1g)) =
      some (.ok 0x203000, 2, true) := by
    decide +kernel
  obtain ⟨s, hrun, hanswer⟩ := Option.map_eq_some_iff.1 hanswer
  simp only [Prod.mk.injEq] at hanswer
  obtain ⟨hok, hlevel, hgib⟩ := hanswer
  obtain ⟨hunmap, -⟩ :=
    one_page_iff_no_table_below hfresh hrun hgib 0x400000003000 .size4K (by decide)
  have h := hunmap.2 (show 1 ≤ (s.probe 0x400000003000).level by rw [hlevel]; decide)
  refine ⟨s, hrun, hok, ?_⟩
  rw [← hok]
  exact h

/-- One 4 KiB page is mapped. `unmap` of the 2 MiB page around it succeeds, answers with an address
nothing was mapped to, and the page table is lost; `remap` of it succeeds as well. -/
theorem unmap_drops_table : ∃ s, (fresh ⟨true, true, 4⟩ 1 [2, 3, 4] [some 2, some 3, some 4]).run
        [.map 0x400000000000 0x5000 .write .writeBack 0 .size4K] = some s ∧
      (s.translate 0x400000000000).map (fun t => (t.physAddress, t.mappedSize)) =
      some (0x5000, .size4K) ∧ (s.unmap 0x400000000000 .size2M).1 = .ok 0 ∧
      ¬ UnmapsPage s 0x400000000000 .size2M (s.unmap 0x400000000000 .size2M).1
        (s.unmap 0x400000000000 .size2M).2 ∧
      (s.remap 0x400000000000 0x200000 .write .writeBack 0 .size2M).1 = .ok () ∧
      ¬ RemapsPage s 0x400000000000 .size2M (buildSchema s.feat 0x200000
          (leafFlags 0x400000000000 .write) .writeBack .size2M 0)
        (s.remap 0x400000000000 0x200000 .write .writeBack 0 .size2M).1
        (s.remap 0x400000000000 0x200000 .write .writeBack 0 .size2M).2 := by
  have hanswer : ((fresh ⟨true, true, 4⟩ 1 [2, 3, 4] [some 2, some 3, some 4]).run
      [.map 0x400000000000 0x5000 .write .writeBack 0 .size4K]).map (fun s =>
        ((s.translate 0x400000000000).map (fun t => (t.physAddress, t.mappedSize)),
          (s.unmap 0x400000000000 .size2M).1,
          (s.remap 0x400000000000 0x200000 .write .writeBack 0 .size2M).1)) =
      some (some (0x5000, .size4K), .ok 0, .ok ()) := by
    decide +kernel
  obtain ⟨s, hrun, hanswer⟩ := Option.map_eq_some_iff.1 hanswer
  simp only [Prod.mk.injEq] at hanswer
  obtain ⟨htranslate, hunmap, hremap⟩ := hanswer
  -- the leaf is smaller than the page that was asked for
  have hsmall : ¬ ∃ t, s.translate 0x400000000000 = some t ∧
      PageSize.size2M.level ≤ t.mappedSize.level := by
    rintro ⟨t, ht, hle⟩
    rw [ht] at htranslate
    simp only [Option.map_some, Option.some.injEq, Prod.mk.injEq] at htranslate
    rw [htranslate.2] at hle
    exact absurd hle (by decide)
  refine ⟨s, hrun, htranslate, hunmap, fun h => ?_, hremap, fun h => ?_⟩
  · obtain ⟨t, ht, hle, -⟩ := h.leaf 0 hunmap
    exact hsmall ⟨t, ht, hle⟩
  · exact hsmall (h.leaf hremap)

end

/-! ## Ranges -/

section

/-- What a call of `unmap_range` that answered `r` and left `s'` is for. -/
structure UnmapsRange (s : PageMap) (start size : Nat) (r : Except Error Unit)
    (s' : PageMap) : Prop where
  inside : r = .ok () → ∀ w, Canonical s.feat.levels w → start ≤ w → w < start + size →
    s'.translate w = none
  outside : ∀ w, Canonical s.feat.levels w → ¬ (start ≤ w ∧ w < start + size) → s'.view w = s.view w

/-- A range that ends with the address space holds no mapped address, and no other one has an
address that is not canonical and has the translated bits of a mapped address outside. -/
def RangeSafe (s : PageMap) (start size : Nat) : Prop :=
  (start + size = 2 ^ 64 → ∀ w, Canonical s.feat.levels w → start ≤ w → s.translate w = none) ∧
    (start + size < 2 ^ 64 → ∀ w ∈ Seg s.feat.levels start size, Canonical s.feat.levels w →
      ¬ (start ≤ w ∧ w < start + size) → s.translate w = none)

theorem view_none_iff {s : PageMap} {w : Nat} : s.view w = none ↔ s.translate w = none := by
  rw [view, Option.map_eq_none_iff]

/-- **`unmap_range`** always answers. If it succeeds it empties the canonical addresses of the range
and no others if and only if the range is safe; if it fails on a safe range, every address outside
is as it was. -/
theorem unmapRange_exact_iff [Callers] {s : PageMap} {held : List Nat} (hwf : WF s held)
    (start size : BitVec 64)
    (hstart : start.toNat % 4096 = 0) (hsize : size.toNat % 4096 = 0)
    (hend : start.toNat + size.toNat ≤ 2 ^ 64) :
    ∃ r s', s.unmapRange start.toNat size.toNat = some (r, s') ∧
      (r = .ok () →
        (UnmapsRange s start.toNat size.toNat r s' ↔ RangeSafe s start.toNat size.toNat)) ∧
      (RangeSafe s start.toNat size.toNat → UnmapsRange s start.toNat size.toNat r s') := by
  rcases hend.lt_or_eq with hlt | heq
  · obtain ⟨r, s', hrun, -, hchanges, hor, hok, -⟩ := unmapRange_spec hlt hstart hsize hwf
    have hback : RangeSafe s start.toNat size.toNat →
        UnmapsRange s start.toNat size.toNat r s' := by
      intro hsafe
      refine ⟨fun hr w hw hle hless => ?_, fun w hw hout => ?_⟩
      · have hmem :=
          add_mem_seg s.feat.levels start.toNat (show w - start.toNat < size.toNat by omega)
        rw [Nat.add_sub_cancel' hle] at hmem
        exact view_none_iff.1 ((hok hr).1 w hmem)
      · by_cases hmem : w ∈ Seg s.feat.levels start.toNat size.toNat
        · have hnone := view_none_iff.2 (hsafe.2 hlt w hmem hw hout)
          rcases hor w with h | h
          · exact h
          · rw [h, hnone]
        · exact hchanges.view w hmem
    refine ⟨r, s', hrun, fun hr => ⟨fun h => ⟨fun h64 => absurd h64 (by omega), ?_⟩, hback⟩, hback⟩
    intro _ w hmem hw hout
    rw [← view_none_iff, ← h.outside w hw hout]
    exact (hok hr).1 w hmem
  · refine ⟨.ok (), s, unmapRange_wrap s heq.ge start.isLt size.isLt hstart hsize, fun _ => ?_, ?_⟩
    · refine ⟨fun h => ⟨fun _ w hw hle => ?_, fun h64 => absurd h64 (by omega)⟩, fun h => ?_⟩
      · apply h.inside rfl w hw hle
        rw [heq]
        rcases hw with hw | hw
        · have hspan : span s.feat.levels ≤ 2 ^ 57 := by
            rcases hwf.levels with hL | hL <;> rw [hL] <;> decide
          omega
        · exact hw.2
      · exact ⟨fun _ w hw hle _ => h.1 heq w hw hle, fun _ _ _ => rfl⟩
    · exact fun h => ⟨fun _ w hw hle _ => h.1 heq w hw hle, fun _ _ _ => rfl⟩

/-- Three pages are cut out of a 2 MiB leaf. -/
theorem unmapRange_exact_iff_three :
    ∃ s s', (fresh ⟨true, true, 4⟩ 1 [2, 3, 4, 5] [some 2, some 3, some 4]).mapRange
      0x400000000000 0x200000
        0x200000 .write .writeBack 0 = some (.ok (), s) ∧
        s.unmapRange 0x400000001000 0x3000 = some (.ok (), s') ∧
      UnmapsRange s 0x400000001000 0x3000 (.ok ()) s' := by
  have hfresh : WF (fresh ⟨true, true, 4⟩ 1 [2, 3, 4, 5] [some 2, some 3, some 4]) [] :=
    fresh_wf _ (.inl rfl) (by decide) (by decide)
  have hphys : 0x200000 < 2 ^ 64 := by decide
  have hin : InHalf 4 0x400000000000 0x200000 := .inl (by decide)
  obtain ⟨r, s, hmap, hwf, -⟩ := mapRange_ok hin (by decide) (by decide) (by decide)
    (rfl : (MapRequest.mk 0x400000000000 .write .writeBack 0).startVirt = 0x400000000000)
    (by decide) hfresh (by decide) hphys
  have hruns :
      ((fresh ⟨true, true, 4⟩ 1 [2, 3, 4, 5] [some 2, some 3, some 4]).mapRange 0x400000000000
      0x200000 0x200000 .write .writeBack 0).bind (fun x =>
        (x.2.unmapRange 0x400000001000 0x3000).map fun y => (x.1, y.1, x.2.feat.levels)) =
      some (.ok (), .ok (), 4) := by
    decide +kernel
  rw [hmap, Option.bind_some, Option.map_eq_some_iff] at hruns
  obtain ⟨⟨r', s'⟩, hunmap, hruns⟩ := hruns
  simp only [Prod.mk.injEq] at hruns
  obtain ⟨rfl, rfl, hlevels⟩ := hruns
  -- the range is canonical, so no address outside has the bits of one of its addresses
  have hsafe : RangeSafe s 0x400000001000 0x3000 := by
    refine ⟨fun h => absurd h (by decide), fun _ w hmem hw hout => absurd ?_ hout⟩
    rw [hlevels] at hmem hw
    exact (InHalf.mem_iff_seg (.inl rfl) (.inl (by decide)) hw).2 hmem
  obtain ⟨r, s'', heq, -, hexact⟩ :=
    unmapRange_exact_iff hwf 0x400000001000 0x3000 (by decide) (by decide) (by decide)
  obtain ⟨rfl, rfl⟩ : r = .ok () ∧ s'' = s' := by
    rw [show (0x400000001000 : BitVec 64).toNat = 0x400000001000 from rfl,
      show (0x3000 : BitVec 64).toNat = 0x3000 from rfl, hunmap] at heq
    simpa using heq.symm
  exact ⟨s, s'', hmap, hunmap, hexact hsafe⟩

/-- The last page of the address space is mapped and unmapped, and still there. -/
theorem unmapRange_misses_last_page :
    ∃ s s', (fresh ⟨true, true, 4⟩ 1 [2, 3, 4, 5] [some 2, some 3, some 4]).mapRange
      0xFFFFFFFFFFFFF000 0x5000
        0x1000 .write .writeBack 0 = some (.ok (), s) ∧
        s.unmapRange 0xFFFFFFFFFFFFF000 0x1000 = some (.ok (), s') ∧
      (s'.translate 0xFFFFFFFFFFFFF000).map (·.physAddress) = some 0x5000 ∧
      ¬ UnmapsRange s 0xFFFFFFFFFFFFF000 0x1000 (.ok ()) s' := by
  have hruns :
      ((fresh ⟨true, true, 4⟩ 1 [2, 3, 4, 5] [some 2, some 3, some 4]).mapRange 0xFFFFFFFFFFFFF000
      0x5000 0x1000 .write .writeBack 0).bind (fun x =>
        (x.2.unmapRange 0xFFFFFFFFFFFFF000 0x1000).map fun y => (x.1, y.1,
          (y.2.translate 0xFFFFFFFFFFFFF000).map (·.physAddress), x.2.feat.levels)) =
      some (.ok (), .ok (), some 0x5000, 4) := by
    decide +kernel
  rw [Option.bind_eq_some_iff] at hruns
  obtain ⟨⟨r, s⟩, hmap, hruns⟩ := hruns
  obtain ⟨⟨r', s'⟩, hunmap, hruns⟩ := Option.map_eq_some_iff.1 hruns
  simp only [Prod.mk.injEq] at hruns
  obtain ⟨rfl, rfl, hstill, hlevels⟩ := hruns
  refine ⟨s, s', hmap, hunmap, hstill, fun h => ?_⟩
  have hnone :=
    h.inside rfl 0xFFFFFFFFFFFFF000 (by rw [hlevels]; exact .inr (by decide)) le_rfl (by decide)
  rw [hnone] at hstill
  exact absurd hstill (by decide)

end

end PageMap

end Erebus.Vmm
