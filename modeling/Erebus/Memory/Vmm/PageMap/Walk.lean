import Erebus.Memory.Vmm.PageMap.Tables

/-!
# Splitting huge pages, and walking

* `shatteredChild_view`: the small leaves say what the huge one said.
* `shatter_ok`, `walk_ok`: splitting and walking change no mapping and make nothing stale, whether
  they succeed or run out of memory; a walk that succeeds comes to the slot at its level.
* `walk_of_reaches`: where the tables are there already, a walk changes nothing at all.
-/

namespace Erebus.Vmm

open PTEntry

/-! ## Flags -/

/-- A single flag is a bit. -/
theorem AccessFlags.has_shift (flags : AccessFlags) {i : Nat} (hi : i < 32) :
    flags.has (1#32 <<< i) = flags.getLsbD i := by
  rw [AccessFlags.has, ← BitVec.twoPow_eq, BitVec.and_twoPow]
  cases hbit : flags.getLsbD i with
  | true => simp
  | false =>
    have hne : (0#32) ≠ BitVec.twoPow 32 i := by
      intro heq
      have hb := congrArg (fun x : BitVec 32 => x.getLsbD i) heq
      simp [hi] at hb
    simp [hne]

theorem leafFlags_getLsbD (virt : Nat) (flags : AccessFlags) {i : Nat} (hi : i < 32) :
    (leafFlags virt flags).getLsbD i = if i = 4 then isUpperHalf virt else flags.getLsbD i := by
  have hbit : AccessFlags.global.getLsbD i = decide (i = 4) := by
    rw [AccessFlags.global, ← BitVec.twoPow_eq, BitVec.getLsbD_twoPow]
    simp [eq_comm]
  unfold leafFlags
  by_cases hup : isUpperHalf virt = true
  · rw [if_pos hup, BitVec.getLsbD_or, hbit]
    by_cases h4 : i = 4 <;> simp [h4, hup]
  · rw [if_neg hup, BitVec.getLsbD_and, BitVec.getLsbD_not, hbit]
    by_cases h4 : i = 4 <;> simp [h4, hi, hup]

/-- `leaf_flags` forces the Global flag and leaves the others alone. -/
theorem leafFlags_has (virt : Nat) (flags : AccessFlags) :
    (leafFlags virt flags).has .global = isUpperHalf virt ∧
      (leafFlags virt flags).has .write = flags.has .write ∧
      (leafFlags virt flags).has .execute = flags.has .execute ∧
      (leafFlags virt flags).has .user = flags.has .user ∧
      (leafFlags virt flags).has .shared = flags.has .shared ∧
      (leafFlags virt flags).has .copyOnWrite = flags.has .copyOnWrite ∧
      (leafFlags virt flags).has .swapped = flags.has .swapped ∧
      (leafFlags virt flags).has .stack = flags.has .stack := by
  have hset : ∀ i < 32, (leafFlags virt flags).has (1#32 <<< i) =
      if i = 4 then isUpperHalf virt else flags.has (1#32 <<< i) := by
    intro i hi
    rw [AccessFlags.has_shift _ hi, AccessFlags.has_shift _ hi, leafFlags_getLsbD virt flags hi]
  exact ⟨hset 4 (by decide), hset 1 (by decide), hset 2 (by decide), hset 3 (by decide),
    hset 5 (by decide), hset 6 (by decide), hset 7 (by decide), hset 11 (by decide)⟩

/-! ## Leaves the mapping functions build -/

theorem buildSchema_not_directory (feat : PagingFeatures) (phys pkey : Nat) (flags : AccessFlags)
    (cache : CacheMode) (size : PageSize) :
    ¬ IsDirectory size.level (buildSchema feat phys flags cache size pkey) := by
  have hhuge := (buildSchema_fields feat phys pkey flags cache size).2.2.2.2.2.2.2.2.2.2.1
  rintro ⟨-, hnot⟩
  cases size with
  | size4K => exact hnot (.inl rfl)
  | size2M => exact hnot (.inr ⟨by decide, hhuge (by decide)⟩)
  | size1G => exact hnot (.inr ⟨by decide, hhuge (by decide)⟩)

theorem buildSchema_entryOk [Callers] (feat : PagingFeatures) (phys pkey : Nat)
    {flags : AccessFlags} (cache : CacheMode) (size : PageSize) {upper : Bool}
    (hglobal : Callers.canonical → flags.has .global = upper)
    (hgib : size = .size1G → feat.huge1g = true) :
    EntryOk feat upper size.level (buildSchema feat phys flags cache size pkey) := by
  obtain ⟨hpresent, hrw, -, hglob, hnx, hcow, -, hswapped, -⟩ :=
    buildSchema_fields feat phys pkey flags cache size
  constructor
  · intro _ h4
    cases size <;> exact absurd h4 (by decide)
  · intro hp _
    refine ⟨?_, ?_, ?_, ?_⟩
    · rw [hpresent] at hp
      rw [hswapped]
      simpa using hp
    · intro hc
      rw [hcow] at hc
      simp [hrw, hc]
    · intro hn
      rw [hnx] at hn
      simp only [Bool.and_eq_true] at hn
      exact hn.1
    · intro hc
      rw [hglob, hglobal hc]
  · intro _ _ h3
    exact hgib (by cases size <;> first | rfl | cases h3)

/-- A leaf without the Swapped flag says what was asked for. -/
theorem leafView_build (feat : PagingFeatures) {phys : Nat} (pkey : Nat) {flags : AccessFlags}
    (cache : CacheMode) (size : PageSize) (hswapped : flags.has .swapped = false)
    (haligned : phys % sizeToBytes size = 0) (hphys : phys + sizeToBytes size ≤ 2 ^ 52) (v : Nat) :
    leafView size.level (buildSchema feat phys flags cache size pkey) v =
      some ⟨phys + v % sizeToBytes size,
        extractFlags (buildSchema feat phys flags cache size pkey), cache, pkey % 16⟩ := by
  obtain ⟨hpresent, -, -, -, -, -, -, -, -, hpkey, -⟩ :=
    buildSchema_fields feat phys pkey flags cache size
  have hlevel : PageSize.ofLevel size.level = size := by cases size <;> rfl
  have haddr := buildSchema_address feat phys pkey flags cache size hswapped
  have hfit : phys / sizeToBytes size % (2 ^ 52 / sizeToBytes size) * sizeToBytes size = phys := by
    have hpos : 0 < sizeToBytes size := levelCoverage_pos _
    rw [Nat.mod_eq_of_lt]
    · exact Nat.div_mul_cancel (Nat.dvd_of_mod_eq_zero haligned)
    · apply Nat.div_lt_div_of_lt_of_dvd
      · cases size <;> decide
      · omega
  have hadd : add64 phys (v % sizeToBytes size) = phys + v % sizeToBytes size := by
    apply Nat.mod_eq_of_lt
    have hlt : v % sizeToBytes size < sizeToBytes size := Nat.mod_lt _ (levelCoverage_pos _)
    omega
  rw [hfit] at haddr
  simp only [leafView, hpresent, hswapped, Bool.not_false, if_true, interpret, hlevel, haddr,
    Option.map_some, TranslationResult.mapping, hadd, extractCache_build, hpkey]

theorem leafView_hardware (l : Nat) (e : PTEntry) (a d : Bool) (v : Nat) :
    leafView l (setDirty d (setAccessed a e)) v = leafView l e v := by
  obtain ⟨hpresent, -, -, -, -, -, -, hpkey, hflags, hcache, haddr⟩ :=
    hardware_bits e a d (PageSize.ofLevel l) (decide (1 < l))
  simp only [leafView, interpret, hpresent, hpkey, hflags, hcache, haddr]

/-! ## Splitting a leaf -/

section

variable [Callers] {feat : PagingFeatures} {upper : Bool} {old : PTEntry} {base : Nat}
  {big small : PageSize}

theorem shatteredChild_ok (hok : LeafOk feat upper old) (base : Nat)
    (hsmall : small ≠ .size1G) (i : Nat) :
    EntryOk feat upper small.level (PageMap.shatteredChild feat old base small i) ∧
      ¬ IsDirectory small.level (PageMap.shatteredChild feat old base small i) := by
  have hnodir := buildSchema_not_directory feat (add64 base (i * sizeToBytes small)) old.pkey
    (extractFlags old) (extractCache old true) small
  have hglobal : Callers.canonical → (extractFlags old).has .global = upper := by
    intro hcallers
    rw [(extractFlags_has old).2.2.1, hok.global hcallers]
  have hentry := buildSchema_entryOk feat (add64 base (i * sizeToBytes small)) old.pkey
    (extractCache old true) small hglobal (fun h => absurd h hsmall)
  obtain ⟨hpresent, hhuge, hswapped, hrw, hcow, hnx, hglob, -⟩ := hardware_bits
    (buildSchema feat (add64 base (i * sizeToBytes small)) (extractFlags old)
      (extractCache old true) small old.pkey) old.accessed old.dirty small true
  have hdir : ∀ lvl, IsDirectory lvl (PageMap.shatteredChild feat old base small i) ↔
      IsDirectory lvl
      (buildSchema feat (add64 base (i * sizeToBytes small)) (extractFlags old)
        (extractCache old true) small old.pkey) := by
    intro lvl
    rw [IsDirectory, IsDirectory, PageMap.shatteredChild, hpresent, hhuge]
  refine ⟨⟨?_, ?_, ?_⟩, mt (hdir _).1 hnodir⟩
  · rw [PageMap.shatteredChild, hpresent, hhuge]
    exact hentry.reserved
  · rw [hdir, PageMap.shatteredChild, hpresent]
    intro hp hnot
    have hleaf := hentry.leaf hp hnot
    exact ⟨hswapped.trans hleaf.swapped, fun hc => hrw.trans (hleaf.cow (hcow.symm.trans hc)),
      fun hn => hleaf.nx (hnx.symm.trans hn), fun hc => hglob.trans (hleaf.global hc)⟩
  · intro _ _ h3
    exact absurd (by cases small <;> first | rfl | cases h3) hsmall

omit [Callers] in
/-- A frame field holds an aligned address below 2^52. -/
theorem extractAddress_bound (h : extractAddress old big = some base) :
    base % sizeToBytes big = 0 ∧ base + sizeToBytes big ≤ 2 ^ 52 := by
  have h4 : old.pfn4k < 2 ^ 40 := BitField.get_lt 12 40 old
  have h2 : old.pfn2m < 2 ^ 31 := BitField.get_lt 21 31 old
  have h1 : old.pfn1g < 2 ^ 22 := BitField.get_lt 30 22 old
  unfold extractAddress at h
  split at h
  · cases h
  · cases big <;> simp only [Option.some.injEq, Nat.shiftLeft_eq] at h <;> subst h <;>
      simp only [sizeToBytes_eq] <;> omega

theorem extractFlags_shattered (hok : LeafOk feat upper old) (i : Nat) :
    extractFlags (PageMap.shatteredChild feat old base small i) = extractFlags old := by
  obtain ⟨-, -, -, -, -, -, -, -, hflags, -⟩ := hardware_bits
    (buildSchema feat (add64 base (i * sizeToBytes small)) (extractFlags old)
      (extractCache old true) small old.pkey) old.accessed old.dirty small true
  rw [PageMap.shatteredChild, hflags]
  obtain ⟨hwrite, huser, hglobal, hexec, hcow, hshared, hstack, -⟩ := extractFlags_has old
  obtain ⟨-, brw, buser, bglobal, bnx, bcow, bshared, -, bstack, -⟩ := buildSchema_fields feat
    (add64 base (i * sizeToBytes small)) old.pkey (extractFlags old) (extractCache old true) small
  apply extractFlags_congr
  · rw [brw, hwrite, hcow]
    cases hc : old.cow with
    | false => simp
    | true => simp [hok.cow hc]
  · rw [buser, huser]
  · rw [bglobal, hglobal]
  · rw [bnx, hexec]
    cases hn : old.nx with
    | false => simp
    | true => simp [hok.nx hn]
  · rw [bcow, hcow]
  · rw [bshared, hshared]
  · rw [bstack, hstack]

omit [Callers] in
/-- An address in a huge page is one in a small page of it. -/
theorem offset_split (hsplit : big.level = small.level + 1) (w : Nat) :
    w % sizeToBytes big = tableIndex w small.level * sizeToBytes small + w % sizeToBytes small ∧
      tableIndex w small.level * sizeToBytes small + sizeToBytes small ≤ sizeToBytes big := by
  have hbytes : sizeToBytes big = sizeToBytes small * 512 := by
    rw [sizeToBytes, hsplit, levelCoverage_succ (by cases small <;> decide), sizeToBytes]
  constructor
  · rw [hbytes, Nat.mod_mul, tableIndex_eq, sizeToBytes]
    ring
  · rw [hbytes, ← Nat.succ_mul, mul_comm]
    exact Nat.mul_le_mul_left _ (tableIndex_lt w small.level)

omit [Callers] in
theorem sizeToBytes_dvd (hsplit : big.level = small.level + 1) :
    sizeToBytes small ∣ sizeToBytes big := by
  rw [sizeToBytes, sizeToBytes, hsplit]
  exact levelCoverage_dvd (Nat.le_succ _)

/-- **The small leaves say what the huge one said.** -/
theorem shatteredChild_view (hsplit : big.level = small.level + 1) (hpresent : old.present = true)
    (hok : LeafOk feat upper old) (hbase : extractAddress old big = some base) (w : Nat) :
    leafView small.level (PageMap.shatteredChild feat old base small (tableIndex w small.level)) w =
      leafView big.level old w := by
  obtain ⟨halign, hbound⟩ := extractAddress_bound hbase
  obtain ⟨hoffset, hmul⟩ := offset_split hsplit w
  have hpos : 0 < sizeToBytes small := levelCoverage_pos _
  have hphys : add64 base (tableIndex w small.level * sizeToBytes small) =
      base + tableIndex w small.level * sizeToBytes small := Nat.mod_eq_of_lt (by omega)
  have hbig : add64 base (w % sizeToBytes big) = base + w % sizeToBytes big := by
    have hlt : w % sizeToBytes big < sizeToBytes big := Nat.mod_lt _ (levelCoverage_pos _)
    exact Nat.mod_eq_of_lt (by omega)
  have haligned : (base + tableIndex w small.level * sizeToBytes small) %
      sizeToBytes small = 0 := by
    have hdvd : sizeToBytes small ∣ base :=
      (sizeToBytes_dvd hsplit).trans (Nat.dvd_of_mod_eq_zero halign)
    exact Nat.mod_eq_zero_of_dvd (Nat.dvd_add hdvd (Dvd.intro_left _ rfl))
  have hchild := leafView_build feat old.pkey (extractCache old true) small
    (extractFlags_has old).2.2.2.2.2.2.2 haligned (by omega) w
  have hflags :
      extractFlags (PageMap.shatteredChild feat old base small (tableIndex w small.level)) =
      extractFlags old := extractFlags_shattered hok _
  have hpkey : old.pkey % 16 = old.pkey := Nat.mod_eq_of_lt (BitField.get_lt 59 4 old)
  have hlevel : PageSize.ofLevel big.level = big := by cases big <;> rfl
  have hhuge : decide (1 < big.level) = true := by
    rw [hsplit]
    cases small <;> rfl
  rw [PageMap.shatteredChild, leafView_hardware, hphys, hchild, hpkey]
  rw [PageMap.shatteredChild, hphys, (hardware_bits _ _ _ small true).2.2.2.2.2.2.2.2.1] at hflags
  simp only [leafView, hpresent, if_true, interpret, hlevel, hbase, Option.map_some,
    TranslationResult.mapping, hbig, hhuge, hflags]
  rw [hoffset, Nat.add_assoc]

end

namespace PageMap

/-! ## Steps no walk notices -/

variable [Callers]

/-- From `s` to `s'` every walk finds what it found. -/
structure Quiet (s s' : PageMap) : Prop extends Changes s s' ∅ ∅ where
  load : ∀ {v l f : Nat}, Reaches s v l f → s'.load (slotOf v l f) = s.load (slotOf v l f)
  probe : ∀ v, s'.probe v = s.probe v

section

variable {s s' s'' : PageMap} {held : List Nat}

theorem Quiet.trans (h : Quiet s s') (h' : Quiet s' s'') : Quiet s s'' where
  toChanges := h.toChanges.trans_left h'.toChanges
  load hr := (h'.load (h.tables hr)).trans (h.load hr)
  probe v := (h'.probe v).trans (h.probe v)

theorem Quiet.of_mem (h : Changes s s' ∅ ∅) (hmem : s'.mem = s.mem) : Quiet s s' where
  toChanges := h
  load _ := by rw [PageMap.load, PageMap.load, hmem]
  probe v := probe_congr h.feat h.root hmem v

theorem fillTable_quiet {g : Nat} {slots : Nat → PTEntry} (hwf : WF s (g :: held)) :
    Quiet s (s.fillTable g slots) where
  toChanges := fillTable_changes hwf
  load {v l f} hr := by
    rw [fillTable_load, if_neg]
    rintro rfl
    exact hwf.spare_head v l hr
  probe v := fillTable_probe hwf.levels_pos hwf.spare_head v

theorem allocPagesZeroed_ok (hwf : WF s held) :
    ∃ r s', s.allocPagesZeroed = (r, s') ∧ WF s' (r.toList ++ held) ∧ Quiet s s' ∧
      ∀ g, r = some g → g < 2 ^ 40 ∧ ∀ i, s'.load ⟨g, i⟩ = 0 := by
  obtain ⟨r, s₁, heq, hwf₁, hchanges₁, hmem₁⟩ := allocPages_ok hwf
  have hquiet₁ := Quiet.of_mem hchanges₁ hmem₁
  cases r with
  | none => exact ⟨none, s₁, by rw [allocPagesZeroed, heq], hwf₁, hquiet₁, nofun⟩
  | some g =>
    refine ⟨some g, s₁.fillTable g fun _ => 0, by rw [allocPagesZeroed, heq], fillTable_wf hwf₁,
      hquiet₁.trans (fillTable_quiet hwf₁), ?_⟩
    rintro _ ⟨rfl⟩
    refine ⟨hwf₁.frames g (by simp), fun i => ?_⟩
    rw [fillTable_load, if_pos rfl]

omit [Callers] in
/-- A failed allocation writes nothing. -/
theorem allocPagesZeroed_none (h : s.allocPagesZeroed = (none, s')) : s'.mem = s.mem := by
  rw [allocPagesZeroed] at h
  split at h
  · cases h
  · rename_i s₁ heq
    cases h
    rw [allocPages] at heq
    split at heq
    · split at heq <;> cases heq
      rfl
    · cases heq
      rfl
    · cases heq
      rfl

end

/-! ## Descending -/

/-- What splitting and walking down to level `t` for `v` leave behind. Only the page of the leaf of
`v` may be divided. -/
structure Walked (s s' : PageMap) (held : List Nat) (v t : Nat) : Prop where
  wf : WF s' held
  changes : Changes s s' ∅ ∅
  level : ∀ w, t ≤ (s.probe w).level → t ≤ (s'.probe w).level
  away : ∀ w, page s.feat.levels (s.probe v).level w ≠ page s.feat.levels (s.probe v).level v →
    s'.probe w = s.probe w
  beside : ∀ w m, page s.feat.levels m w ≠ page s.feat.levels m v → m ≤ (s.probe w).level →
    m ≤ (s'.probe w).level

section Walking

variable {s s' s'' : PageMap} {held : List Nat} {v l f g t : Nat}

omit [Callers] in
/-- A table that is reached is not above the leaf. -/
theorem Reaches.probe_level_le (hr : Reaches s v l f) : (s.probe v).level ≤ l := by
  rw [hr.probe_eq]
  clear hr
  induction l generalizing f with
  | zero => exact le_rfl
  | succ l ih =>
    rw [probeFrom_succ]
    split
    · exact (ih).trans (Nat.le_succ l)
    · exact le_rfl

/-- No walk gets shorter. -/
theorem Changes.level_le {P Q : Set Nat} (h : Changes s s' P Q) (hL : 1 ≤ s.feat.levels) (v : Nat) :
    (s'.probe v).level ≤ (s.probe v).level := by
  obtain ⟨l, f, -, hr, -, hprobe⟩ := probe_reaches hL v
  rw [hprobe]
  exact (h.tables hr).probe_level_le

theorem Walked.trans {held' : List Nat} (h : Walked s s' held' v t) (h' : Walked s' s'' held v t) :
    Walked s s'' held v t where
  wf := h'.wf
  changes := h.changes.trans_left h'.changes
  level w hw := h'.level w (h.level w hw)
  away w hw := by
    have hlevel := h.changes.level_le (h.changes.feat ▸ h.wf.levels_pos) v
    rw [← h.away w hw]
    apply h'.away
    rw [h.changes.feat]
    exact fun heq => hw (page_eq_of_le hlevel heq)
  beside w m hw hm := by
    apply h'.beside w m _ (h.beside w m hw hm)
    rwa [h.changes.feat]

theorem Walked.of_quiet (hwf : WF s' held) (h : Quiet s s') : Walked s s' held v t where
  wf := hwf
  changes := h.toChanges
  level w hw := by rwa [h.probe]
  away w _ := h.probe w
  beside w m _ hm := by rwa [h.probe]

/-- A new table below a slot, with leaves that say what the slot said. -/
theorem Linkable.walked {d : PTEntry} (hlink : Linkable s held v l f g d) (ht : t ≤ l)
    (hview : ∀ w, s.SamePage (l + 1) v w →
      leafView l (s.load (slotOf w l g)) w = leafView (l + 1) (s.load (slotOf v (l + 1) f)) w) :
    Walked s (s.store (slotOf v (l + 1) f) d) held v t where
  wf := hlink.store_wf
  changes := by
    apply (hlink.changes (P := ∅) ?_).mono le_rfl (by simp)
    intro w hw _
    have hup := page_eq_of_le (Nat.le_succ (l + 1)) hw
    have hslot := slotOf_congr (Nat.le_add_left 1 l) hlink.reach.le hw f
    have hprobe := (hlink.reach.congr hup.symm).probe_of_leaf (Nat.le_add_left 1 l)
        (by rw [hslot]; exact hlink.old)
    rw [view_eq, hprobe, hslot]
    exact hview w hw
  level w hw := by
    by_cases hpage : s.SamePage (l + 1) v w
    · rwa [hlink.probe_same hpage]
    · rwa [hlink.probe_other hpage]
  away w hw := by
    rw [hlink.reach.probe_of_leaf (Nat.le_add_left 1 l) hlink.old] at hw
    exact hlink.probe_other hw
  beside w m hw hm := by
    by_cases hpage : s.SamePage (l + 1) v w
    · -- the new table is for the pages of level `l`, and `w` is in another page of level `m`
      rw [hlink.probe_same hpage]
      by_contra hlt
      exact hw (page_eq_of_le (Nat.lt_of_not_le hlt) hpage)
    · rwa [hlink.probe_other hpage]

omit [Callers] in
/-- The directory entry for a new table. -/
theorem buildDirectory_ok {lvl : Nat} (hlvl : lvl ≠ 1) (hg : g < 2 ^ 40) (user : Bool) :
    IsDirectory lvl (buildDirectory (g <<< 12) user) ∧
    nextTable (buildDirectory (g <<< 12) user) = g ∧
      (buildDirectory (g <<< 12) user).huge = false := by
  obtain ⟨hpresent, hhuge, hpfn⟩ := buildDirectory_fields (g <<< 12) user
  refine ⟨⟨hpresent, ?_⟩, ?_, hhuge⟩
  · rintro (h | ⟨-, h⟩)
    · exact hlvl h
    · rw [hhuge] at h
      cases h
  · rw [nextTable, hpfn, Nat.shiftLeft_eq]
    omega

/-- The leaf of every address has the accessed and the dirty bit it had. -/
def SameHardwareBits (s s' : PageMap) : Prop :=
  ∀ w, (s'.probe w).value.accessed = (s.probe w).value.accessed ∧
    (s'.probe w).value.dirty = (s.probe w).value.dirty

omit [Callers] in
theorem shatteredChild_bits (feat : PagingFeatures) (old : PTEntry) (base : Nat)
    (small : PageSize) (i : Nat) : (shatteredChild feat old base small i).accessed = old.accessed ∧
      (shatteredChild feat old base small i).dirty = old.dirty := by
  simp [shatteredChild, accessed, dirty, setAccessed, setDirty, BitField.flag_setFlag,
    BitField.flag_setFlag_of_ne]

/-- **Splitting a huge page.**  Also when the allocator has no frame, no mapping changes; then
nothing is written at all. -/
theorem shatter_ok (hwf : WF s held) (hl : l = 1 ∨ l = 2) (ht : t ≤ l) (hr : Reaches s v (l + 1) f)
    (hpresent : (s.load (slotOf v (l + 1) f)).present = true)
    (hhuge : (s.load (slotOf v (l + 1) f)).huge = true) :
    ∃ r s', s.shatterHugePage (slotOf v (l + 1) f) v (l + 1) = (r, s') ∧ Walked s s' held v t ∧
    SameHardwareBits s s' ∧
      (r = .ok () → Reaches s' v l (nextTable (s'.load (slotOf v (l + 1) f))) ∧
      (s'.probe v).level = l) ∧ (s.allocPagesZeroed.1.isSome = true ∧ r = .ok () ∨
        s.allocPagesZeroed.1 = none ∧ r = .error .outOfMemory ∧ s'.mem = s.mem) := by
  obtain ⟨big, small, hbig, hsmall, hcurr, hnext⟩ : ∃ big small : PageSize, big.level = l + 1 ∧
      small.level = l ∧ (if l + 1 = 3 then PageSize.size1G else .size2M) = big ∧
        (if l + 1 = 3 then PageSize.size2M else .size4K) = small := by
    rcases hl with rfl | rfl
    · exact ⟨.size2M, .size4K, rfl, rfl, rfl, rfl⟩
    · exact ⟨.size1G, .size2M, rfl, rfl, rfl, rfl⟩
  have hlvl : ¬ (l + 1 ≠ 3 ∧ l + 1 ≠ 2) := by omega
  have hnot1g : small ≠ .size1G := by
    rintro rfl
    rcases hl with rfl | rfl <;> cases hsmall
  have hleaf : ¬ s.DirAt v (l + 1) f :=
    fun hdir => hdir.2 (.inr ⟨by omega, hhuge⟩)
  have hok := (hwf.entries hr).leaf hpresent hleaf
  obtain ⟨base, hbase⟩ := extractAddress_of_not_swapped hok.swapped big
  obtain ⟨r, s₁, halloc, hwf₁, hquiet₁, hzero₁⟩ := allocPagesZeroed_ok hwf
  simp only [shatterHugePage, hpresent, hhuge, Bool.not_true, Bool.or_self,
    Bool.false_eq_true, if_false, hlvl, hcurr, hnext, hbase, halloc]
  cases r with
  | none =>
    exact ⟨_, s₁, rfl, Walked.of_quiet hwf₁ hquiet₁,
      fun w => by rw [hquiet₁.probe]; exact ⟨rfl, rfl⟩,
      nofun, .inr ⟨rfl, rfl, allocPagesZeroed_none halloc⟩⟩
  | some g =>
    have hg := (hzero₁ g rfl).1
    have hfeat₁ : s₁.feat = s.feat := hquiet₁.feat
    obtain ⟨hdir, hnextTable, hreserved⟩ :=
      buildDirectory_ok (show l + 1 ≠ 1 by omega) hg (!isUpperHalf v)
    dsimp only
    generalize buildDirectory (g <<< 12) (!isUpperHalf v) = dir at *
    let s₂ := s₁.fillTable g (shatteredChild s₁.feat (s.load (slotOf v (l + 1) f)) base small)
    have hquiet₂ : Quiet s s₂ := hquiet₁.trans (fillTable_quiet hwf₁)
    have hload₂ : s₂.load (slotOf v (l + 1) f) = s.load (slotOf v (l + 1) f) := hquiet₂.load hr
    have hnew₂ :
        ∀ i, s₂.load ⟨g, i⟩ = shatteredChild s.feat (s.load (slotOf v (l + 1) f)) base small i := by
      intro i
      rw [fillTable_load, if_pos rfl, hfeat₁]
    have hchild : ∀ i, EntryOk s.feat (upperOf s.feat.levels v) l
          (shatteredChild s.feat (s.load (slotOf v (l + 1) f)) base small i) ∧
        ¬ IsDirectory l (shatteredChild s.feat (s.load (slotOf v (l + 1) f)) base small i) := by
      intro i
      have hboth := shatteredChild_ok hok base hnot1g i
      rwa [hsmall] at hboth
    have hlink : Linkable s₂ held v l f g dir :=
      { wf := fillTable_wf hwf₁
        pos := by omega
        reach := hquiet₂.tables hr
        old := by rwa [hload₂]
        new := hdir
        next := hnextTable
        reserved := hreserved
        flat := fun i _ => by
          rw [hnew₂]
          exact (hchild i).2
        ok := fun i _ => by
          rw [hnew₂, hquiet₂.feat]
          exact (hchild i).1 }
    have hwalked : Walked s₂ (s₂.store (slotOf v (l + 1) f) dir) held v t := by
      apply hlink.walked ht
      intro w _
      have hsame :=
        shatteredChild_view (hbig.trans (congrArg (· + 1) hsmall.symm)) hpresent hok hbase w
      rw [hsmall, hbig] at hsame
      rwa [slotOf, hnew₂, hload₂]
    have hsent :=
      Quiet.of_mem (broadcast_changes hwalked.wf (v - v % sizeToBytes big) (sizeToBytes big) big)
      (broadcast_mem _ _ _ _)
    have hbroadcast := Walked.of_quiet (v := v) (t := t)
      (broadcast_wf hwalked.wf (v - v % sizeToBytes big) (sizeToBytes big) big) hsent
    have hold : s₂.probe v = ⟨slotOf v (l + 1) f, l + 1, s.load (slotOf v (l + 1) f)⟩ := by
      rw [hlink.reach.probe_of_leaf (by omega) hlink.old, hload₂]
    have hbits : SameHardwareBits s₂ (s₂.store (slotOf v (l + 1) f) dir) := by
      intro w
      by_cases hpage : s₂.SamePage (l + 1) v w
      · rw [hlink.probe_same hpage,
          (probe_of_page_eq (v := v) hlink.wf.levels_pos (by rwa [hold])).2, hold, slotOf, hnew₂]
        exact shatteredChild_bits ..
      · rw [hlink.probe_other hpage]
        exact ⟨rfl, rfl⟩
    refine ⟨_, _, rfl, ((Walked.of_quiet hlink.wf hquiet₂).trans hwalked).trans hbroadcast,
      fun w => ?_, fun _ => ⟨?_, ?_⟩, .inl ⟨rfl, rfl⟩⟩
    · rw [hsent.probe, ← hquiet₂.probe]
      exact hbits w
    rotate_left
    · rw [hsent.probe, hlink.probe_same rfl]
    have hload :
        ((s₂.store (slotOf v (l + 1) f) dir).broadcast (v - v % sizeToBytes big)
        (sizeToBytes big) big).load (slotOf v (l + 1) f) = dir := by
      rw [load, broadcast_mem, ← load, store_load, if_pos rfl]
    have hreach : Reaches (s₂.store (slotOf v (l + 1) f) dir) v l g :=
      hlink.reaches_iff.2 (.inr ⟨rfl, rfl, rfl⟩)
    show Reaches _ v l (nextTable (load (broadcast (s₂.store _ _) _ _ _) _))
    rw [hload, hnextTable]
    exact hbroadcast.changes.tables hreach

/-- A new empty table in the place of a hole. -/
theorem link_empty (hwf : WF s (g :: held)) (hl : 1 ≤ l) (ht : t ≤ l) (hr : Reaches s v (l + 1) f)
    (hhole : (s.load (slotOf v (l + 1) f)).present = false) (hg : g < 2 ^ 40)
    (hzero : ∀ i, s.load ⟨g, i⟩ = 0) (user : Bool) :
    Walked s (s.store (slotOf v (l + 1) f) (buildDirectory (g <<< 12) user)) held v t ∧
      Reaches (s.store (slotOf v (l + 1) f) (buildDirectory (g <<< 12) user)) v l g := by
  obtain ⟨hdir, hnext, hreserved⟩ := buildDirectory_ok (show l + 1 ≠ 1 by omega) hg user
  have hlink : Linkable s held v l f g (buildDirectory (g <<< 12) user) :=
    { wf := hwf
      pos := hl
      reach := hr
      old := not_isDirectory_of_hole hhole
      new := hdir
      next := hnext
      reserved := hreserved
      flat := fun i _ => by
        rw [hzero]
        exact not_isDirectory_zero l
      ok := fun i _ => by
        rw [hzero]
        exact zero_entryOk _ _ l }
  refine ⟨hlink.walked ht ?_, hlink.reaches_iff.2 (.inr ⟨rfl, rfl, rfl⟩)⟩
  intro w _
  rw [slotOf, hzero, leafView_zero, leafView, hhole]
  rfl

/-- One level further down, the three ways `walk` has. -/
theorem walkFrom_ok (ht : 1 ≤ t) (v : Nat) (alloc : Bool) :
    ∀ (lvl f : Nat) {s : PageMap}, WF s held → t ≤ lvl → Reaches s v lvl f →
      ∃ r s', walkFrom v alloc t lvl f s = (r, s') ∧ Walked s s' held v t ∧
        (∀ pte, r = .ok pte → ∃ g, Reaches s' v t g ∧ pte = slotOf v t g) ∧
          ∀ e, r = .error e → alloc = false ∨ e = .outOfMemory := by
  intro lvl
  induction lvl with
  | zero => exact fun f s _ htl => absurd htl (by omega)
  | succ lvl ih =>
    intro f s hwf htl hr
    rw [walkFrom]
    by_cases hlt : t < lvl + 1
    swap
    · -- arrived
      have heq : t = lvl + 1 := by omega
      subst heq
      refine ⟨_, s, if_neg hlt, Walked.of_quiet hwf (Quiet.of_mem (.refl s) rfl), ?_, nofun⟩
      rintro _ ⟨rfl⟩
      exact ⟨f, hr, rfl⟩
    rw [if_pos hlt]
    have htl' : t ≤ lvl := by omega
    -- the rest of the way, from a table one level down
    have hrest : ∀ {s₁ : PageMap} {g : Nat}, Walked s s₁ held v t → Reaches s₁ v lvl g →
        ∃ r s', walkFrom v alloc t lvl g s₁ = (r, s') ∧ Walked s s' held v t ∧
          (∀ pte, r = .ok pte → ∃ g, Reaches s' v t g ∧ pte = slotOf v t g) ∧
            ∀ e, r = .error e → alloc = false ∨ e = .outOfMemory := by
      intro s₁ g hwalked hg
      obtain ⟨r, s', heq, hwalked', hends⟩ := ih g hwalked.wf htl' hg
      exact ⟨r, s', heq, hwalked.trans hwalked', hends⟩
    cases hpresent : (s.load (slotOf v (lvl + 1) f)).present with
    | false =>
      cases alloc with
      | false =>
        refine ⟨.error .notMapped, s, by simp [hpresent], ?_, nofun, fun _ _ => .inl rfl⟩
        exact Walked.of_quiet hwf (Quiet.of_mem (.refl s) rfl)
      | true =>
        obtain ⟨r, s₁, halloc, hwf₁, hquiet₁, hzero₁⟩ := allocPagesZeroed_ok hwf
        simp only [hpresent, halloc, Bool.not_false, Bool.not_true, Bool.false_eq_true,
          if_true, if_false]
        cases r with
        | none =>
          refine ⟨_, s₁, rfl, Walked.of_quiet hwf₁ hquiet₁, nofun, ?_⟩
          rintro _ ⟨rfl⟩
          exact .inr rfl
        | some g =>
          obtain ⟨hg, hzero⟩ := hzero₁ g rfl
          obtain ⟨hwalked, hreach⟩ := link_empty hwf₁ (by omega) htl' (hquiet₁.tables hr)
            ((congrArg present (hquiet₁.load hr)).trans hpresent) hg hzero (!isUpperHalf v)
          exact hrest ((Walked.of_quiet hwf₁ hquiet₁).trans hwalked) hreach
    | true =>
      cases hhuge : (s.load (slotOf v (lvl + 1) f)).huge with
      | true =>
        have hlvl : lvl = 1 ∨ lvl = 2 := by
          by_contra hne
          have hreserved := (hwf.entries hr).reserved hpresent (by omega)
          rw [hhuge] at hreserved
          cases hreserved
        obtain ⟨r, s₁, hshatter, hwalked, -, hreach, hend⟩ :=
          shatter_ok hwf hlvl htl' hr hpresent hhuge
        simp only [hpresent, hhuge, hshatter, Bool.not_true, Bool.false_eq_true, if_true, if_false]
        cases r with
        | error e =>
          refine ⟨_, s₁, rfl, hwalked, nofun, ?_⟩
          rintro _ ⟨rfl⟩
          exact .inr (Except.error.inj (hend.resolve_left fun hok => nomatch hok.2).2.1)
        | ok _ => exact hrest hwalked (hreach rfl).1
      | false =>
        have hdir : s.DirAt v (lvl + 1) f := by
          refine ⟨hpresent, ?_⟩
          rintro (h1 | ⟨-, h⟩)
          · omega
          · rw [hhuge] at h
            cases h
        simp only [hpresent, hhuge, Bool.not_true, Bool.false_eq_true, if_false]
        exact hrest (Walked.of_quiet hwf (Quiet.of_mem (.refl s) rfl)) (.step hr hdir)

omit [Callers] in
theorem PageSize.level_pos (size : PageSize) : 1 ≤ size.level := by
  cases size <;> decide

omit [Callers] in
theorem PageSize.level_le (size : PageSize) : size.level ≤ 3 := by
  cases size <;> decide

theorem WF.level_le (hwf : WF s held) (size : PageSize) : size.level ≤ s.feat.levels := by
  have h3 := PageSize.level_le size
  rcases hwf.levels with h | h <;> omega

/-- **A walk** changes no mapping, and if it succeeds it comes to the slot at its level. -/
theorem walk_ok (hwf : WF s held) (v : Nat) (alloc : Bool) (size : PageSize) :
    ∃ r s', s.walk v alloc size = (r, s') ∧ Walked s s' held v size.level ∧
      ∀ pte, r = .ok pte → ∃ g, Reaches s' v size.level g ∧ pte = slotOf v size.level g := by
  obtain ⟨r, s', hwalk, hwalked, hreach, -⟩ :=
    walkFrom_ok (PageSize.level_pos size) v alloc _ _ hwf (hwf.level_le size) .root
  exact ⟨r, s', hwalk, hwalked, hreach⟩

/-- A walk that may build tables fails only for want of memory. -/
theorem walk_memory (hwf : WF s held) {v : Nat} {size : PageSize} {e : Error} {s' : PageMap}
    (h : s.walk v true size = (.error e, s')) : e = .outOfMemory := by
  obtain ⟨r, _, hwalk, -, -, hmemory⟩ :=
    walkFrom_ok (PageSize.level_pos size) v true _ _ hwf (hwf.level_le size) .root
  cases hwalk.symm.trans h
  exact (hmemory e rfl).resolve_left Bool.noConfusion

omit [Callers] in
/-- Below every table on the way lies the next one. -/
theorem Reaches.directory (hr : Reaches s v l f) {m : Nat} (hm : Reaches s v m g)
    (hlt : m < l) : s.DirAt v l f := by
  induction hm with
  | root => exact absurd hr.le (by omega)
  | step hm hdir ih =>
    rename_i m h
    by_cases heq : l = m + 1
    · subst heq
      rwa [hr.unique hm]
    · exact ih (by omega)

theorem walkFrom_of_reaches (hwf : WF s held) (alloc : Bool) (ht : Reaches s v t g) :
    ∀ (lvl f : Nat), t ≤ lvl → Reaches s v lvl f →
    walkFrom v alloc t lvl f s = (.ok (slotOf v t g), s) := by
  intro lvl
  induction lvl with
  | zero =>
    intro f htl hr
    exact absurd (hr.pos hwf.levels_pos) (by omega)
  | succ lvl ih =>
    intro f htl hr
    rw [walkFrom]
    by_cases hlt : t < lvl + 1
    · rw [if_pos hlt]
      have hdir := hr.directory ht hlt
      have hhuge : (s.load (slotOf v (lvl + 1) f)).huge = false := by
        by_cases h3 : lvl + 1 ≤ 3
        · have hnot := hdir.2
          push Not at hnot
          simpa using hnot.2 h3
        · exact (hwf.entries hr).reserved hdir.1 (by omega)
      simp only [hdir.1, hhuge, Bool.not_true, Bool.false_eq_true, if_false]
      exact ih _ (by omega) (.step hr hdir)
    · have heq : t = lvl + 1 := by omega
      subst heq
      rw [if_neg hlt, hr.unique ht]

/-- Where the table is there already, a walk changes nothing. -/
theorem walk_of_reaches (hwf : WF s held) (alloc : Bool) {size : PageSize}
    (hr : Reaches s v size.level g) : s.walk v alloc size = (.ok (slotOf v size.level g), s) :=
  walkFrom_of_reaches hwf alloc hr _ _ hr.le .root

end Walking

end PageMap

end Erebus.Vmm
