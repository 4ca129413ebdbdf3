import Erebus.Memory.Vmm.PageMap.Walk

/-!
# Ranges, and flushing them

* `Seg L v n`: the addresses a walk cannot tell from one of the `n` bytes from `v` on.
* `Batch`: consecutive slots of one table, and the pages they are for.
* `broadcast_fresh`: after a shootdown with a 4 KiB stride no TLB holds a stale translation of an
  address of the range, however large the page of the translation is.
* `Flushed`: an operation that leaves nothing stale behind.
-/

namespace Erebus.Vmm

open PTEntry

/-- The addresses that a walk takes for one of the `n` bytes from `v` on. -/
def Seg (L v n : Nat) : Set Nat := {w | ∃ k < n, lin L w = lin L (v + k)}

section Segments

variable {L : Nat} {v w l n : Nat}

@[simp] theorem seg_zero (L v : Nat) : Seg L v 0 = ∅ := by
  ext w
  simp [Seg]

theorem Seg.subset {m : Nat} (h : m ≤ n) : Seg L v m ⊆ Seg L v n := by
  rintro w ⟨k, hk, hlin⟩
  exact ⟨k, lt_of_lt_of_le hk h, hlin⟩

theorem add_mem_seg {k : Nat} (L v : Nat) (hk : k < n) : v + k ∈ Seg L v n := ⟨k, hk, rfl⟩

/-- A range falls into its first part and the rest. -/
theorem seg_add (a b : Nat) : Seg L v (a + b) = Seg L v a ∪ Seg L (v + a) b := by
  ext w
  constructor
  · rintro ⟨k, hk, hlin⟩
    by_cases hlt : k < a
    · exact Or.inl ⟨k, hlt, hlin⟩
    · refine Or.inr ⟨k - a, by omega, ?_⟩
      rwa [Nat.add_assoc, Nat.add_sub_cancel' (Nat.le_of_not_lt hlt)]
  · rintro (⟨k, hk, hlin⟩ | ⟨k, hk, hlin⟩)
    · exact ⟨k, by omega, hlin⟩
    · exact ⟨a + k, by omega, by rwa [← Nat.add_assoc]⟩

theorem lin_add_of_span {k : Nat} (h : lin L v + k < span L) : lin L (v + k) = lin L v + k := by
  rw [lin, Nat.add_mod, Nat.mod_eq_of_lt (show k < span L by omega)]
  exact Nat.mod_eq_of_lt h

/-- Where the translated part does not wrap around, it tells the range. -/
theorem mem_seg (h : lin L v + n ≤ span L) :
    w ∈ Seg L v n ↔ lin L v ≤ lin L w ∧ lin L w < lin L v + n := by
  constructor
  · rintro ⟨k, hk, hlin⟩
    rw [hlin, lin_add_of_span (by omega)]
    omega
  · rintro ⟨hlow, hhigh⟩
    refine ⟨lin L w - lin L v, by omega, ?_⟩
    rw [lin_add_of_span (by omega)]
    omega

/-- Then no address is met twice. -/
theorem seg_apart {a b : Nat} (h : lin L v + (a + b) ≤ span L) (hw : w ∈ Seg L v a) :
    w ∉ Seg L (v + a) b := by
  obtain ⟨k, hk, hlin⟩ := hw
  rintro ⟨j, hj, hlin'⟩
  rw [hlin, Nat.add_assoc, lin_add_of_span (by omega), lin_add_of_span (by omega)] at hlin'
  omega

theorem add_notMem_seg {a : Nat} (h : lin L v + a < span L) (hle : n ≤ a) : v + a ∉ Seg L v n :=
  fun hmem => seg_apart (a := a) (b := 1) h (Seg.subset hle hmem) ⟨0, Nat.one_pos, rfl⟩

/-- A canonical address lies in a range of one half iff a walk takes it for one there. -/
theorem InHalf.mem_iff_seg (hL : L = 4 ∨ L = 5) {start size : Nat} (hin : InHalf L start size)
    (hw : Canonical L w) : (start ≤ w ∧ w < start + size) ↔ w ∈ Seg L start size := by
  constructor
  · intro h
    have hmem := add_mem_seg (n := size) L start (show w - start < size by omega)
    rwa [Nat.add_sub_cancel' h.1] at hmem
  · rintro ⟨k, hk, hlin⟩
    have heq := hw.eq_of_lin hL (hin.canonical hL hk) hlin
    omega

variable (hl : l ≤ L + 1)
include hl

/-- A page ends before the translated part wraps around. -/
theorem lin_le_of_fit (hfit : v % levelCoverage l + n ≤ levelCoverage l) :
    lin L v + n ≤ span L := by
  obtain ⟨m, hm⟩ := levelCoverage_dvd_span hl
  have hmod : lin L v % levelCoverage l = v % levelCoverage l :=
    Nat.mod_mod_of_dvd _ (levelCoverage_dvd_span hl)
  have hlt : lin L v < span L := Nat.mod_lt _ (by rw [span]; positivity)
  have hdiv : lin L v / levelCoverage l < m := by
    apply Nat.div_lt_of_lt_mul
    rwa [← hm]
  have hsplit := Nat.div_add_mod (lin L v) (levelCoverage l)
  have hmul : levelCoverage l * (lin L v / levelCoverage l) + levelCoverage l ≤
      levelCoverage l * m := by
    rw [← Nat.mul_succ]
    exact Nat.mul_le_mul_left _ hdiv
  omega

/-- Inside the page around an address the translated part grows with the address. -/
theorem lin_add_of_lt {k : Nat} (hfit : v % levelCoverage l + k < levelCoverage l) :
    lin L (v + k) = lin L v + k := by
  have hspan := lin_le_of_fit (n := k + 1) hl hfit
  exact lin_add_of_span (by omega)

/-- A range that does not leave the page around its start is in that page. -/
theorem page_of_seg (hfit : v % levelCoverage l + n ≤ levelCoverage l)
    (hw : w ∈ Seg L v n) : page L l w = page L l v := by
  have hlin : lin L v % levelCoverage l = v % levelCoverage l :=
    Nat.mod_mod_of_dvd _ (levelCoverage_dvd_span hl)
  obtain ⟨k, hk, hw⟩ := hw
  rw [lin_add_of_lt hl (by omega)] at hw
  have hsplit := Nat.div_add_mod (lin L v) (levelCoverage l)
  rw [page, page, Nat.div_eq_iff (levelCoverage_pos l), mul_comm (lin L v / _), hw]
  omega

/-- An aligned page is the range of its size. -/
theorem page_eq_iff_seg (hv : v % levelCoverage l = 0) :
    page L l w = page L l v ↔ w ∈ Seg L v (levelCoverage l) := by
  have hpos := levelCoverage_pos l
  constructor
  · intro h
    have hlin : lin L v % levelCoverage l = 0 := by
      rw [lin, Nat.mod_mod_of_dvd _ (levelCoverage_dvd_span hl), hv]
    have hlt := Nat.mod_lt (lin L w) hpos
    refine ⟨lin L w % levelCoverage l, hlt, ?_⟩
    rw [lin_add_of_lt hl (by omega)]
    have hsplit := Nat.div_add_mod (lin L w) (levelCoverage l)
    have hsplit' := Nat.div_add_mod (lin L v) (levelCoverage l)
    rw [page, page] at h
    rw [h] at hsplit
    omega
  · exact page_of_seg hl (by omega)

omit hl

theorem dvd_levelCoverage (l : Nat) : 4096 ∣ levelCoverage l := by
  rw [levelCoverage_eq]
  exact pow_dvd_pow 2 (Nat.le_add_right 12 _)

/-- The 4 KiB page around an address lies in every page around it. -/
theorem page_of_block {u : Nat} (l : Nat) (h : lin L u / 4096 = lin L w / 4096) :
    page L l u = page L l w := by
  obtain ⟨k, hk⟩ := dvd_levelCoverage l
  rw [page, page, hk, ← Nat.div_div_eq_div_mul, ← Nat.div_div_eq_div_mul, h]

/-- The page of a range around one of its addresses starts in it. -/
theorem exists_block (hL : L = 4 ∨ L = 5) {start size : Nat} (hin : InHalf L start size)
    (hstart : start % 4096 = 0) (hsize : size % 4096 = 0) (hw : w ∈ Seg L start size) :
    ∃ j < size / 4096, start + j * 4096 < 2 ^ 64 ∧
    lin L (start + j * 4096) / 4096 = lin L w / 4096 := by
  have hlin : lin L start % 4096 = 0 := by
    rw [lin, Nat.mod_mod_of_dvd _ (by rw [span]; exact pow_dvd_pow 2 (Nat.le_add_right 12 _)),
      hstart]
  obtain ⟨k, hk, hw⟩ := hw
  refine ⟨k / 4096, by omega, hin.lt hL (by omega), ?_⟩
  rw [hw, hin.lin_add hL hk, hin.lin_add hL (by omega)]
  omega

/-- What a round of a range operation takes: up to the end of the range or of the page around
`v`. -/
theorem chunk_ok {r c : Nat} (hv : v % 4096 = 0) (hr : r % 4096 = 0) (hpos : 0 < r) (hc : 4096 ∣ c)
    (hcpos : 0 < c) : 0 < min r (c - v % c) ∧ min r (c - v % c) % 4096 = 0 ∧ min r (c - v % c) ≤ r ∧
      v % c + min r (c - v % c) ≤ c := by
  have hlt : v % c < c := Nat.mod_lt _ hcpos
  have hmod : v % c % 4096 = 0 := by rw [Nat.mod_mod_of_dvd _ hc, hv]
  have hcmod : c % 4096 = 0 := Nat.mod_eq_zero_of_dvd hc
  omega

end Segments

/-! ## Consecutive slots of a table -/

/-- `n` slots of level `l` from that of `v` on lie in one table. -/
structure Batch (L v l n : Nat) : Prop where
  pos : 1 ≤ l
  le : l ≤ L
  aligned : v % levelCoverage l = 0
  fits : v % levelCoverage (l + 1) + n * levelCoverage l ≤ levelCoverage (l + 1)

namespace Batch

variable {L v l n i f : Nat}

variable (h : Batch L v l n)
include h

theorem offset_lt (hi : i < n) :
    v % levelCoverage (l + 1) + i * levelCoverage l < levelCoverage (l + 1) := by
  have hle : i * levelCoverage l + levelCoverage l ≤ n * levelCoverage l := by
    rw [← Nat.succ_mul]
    exact Nat.mul_le_mul_right _ hi
  have hpos := levelCoverage_pos l
  have hfits := h.fits
  omega

theorem lin_le : lin L v + n * levelCoverage l ≤ span L :=
  lin_le_of_fit (Nat.succ_le_succ h.le) h.fits

theorem lin_add (hi : i < n) : lin L (v + i * levelCoverage l) = lin L v + i * levelCoverage l :=
  lin_add_of_lt (Nat.succ_le_succ h.le) (h.offset_lt hi)

theorem table_eq (hi : i < n) : page L (l + 1) (v + i * levelCoverage l) = page L (l + 1) v := by
  have hfit := h.offset_lt hi
  exact page_of_seg (Nat.succ_le_succ h.le) (Nat.succ_le_of_lt hfit)
    (add_mem_seg L v (Nat.lt_succ_self _))

theorem page_add (hi : i < n) : page L l (v + i * levelCoverage l) = page L l v + i := by
  rw [page, page, h.lin_add hi, Nat.add_mul_div_right _ _ (levelCoverage_pos l)]

/-- `pte + i` is the slot of the page `i` pages further. -/
theorem slot_at (hi : i < n) (f : Nat) :
    (slotOf v l f).at i = slotOf (v + i * levelCoverage l) l f := by
  have hindex : tableIndex (v + i * levelCoverage l) l = tableIndex v l + i := by
    have htable := h.table_eq hi
    rw [page_succ h.pos, page_succ h.pos, h.page_add hi] at htable
    rw [tableIndex_eq_page h.pos h.le, tableIndex_eq_page h.pos h.le, h.page_add hi]
    omega
  rw [slotOf, slotOf, Loc.at, hindex]

theorem aligned_add (i : Nat) : (v + i * levelCoverage l) % levelCoverage l = 0 := by
  rw [Nat.add_mul_mod_self_right, h.aligned]

omit h

theorem reaches {s : PageMap} (h : Batch s.feat.levels v l n) (hi : i < n)
    (hr : PageMap.Reaches s v l f) : PageMap.Reaches s (v + i * levelCoverage l) l f :=
  hr.congr (h.table_eq hi).symm

end Batch

namespace PageMap

variable [Callers] {s : PageMap} {held : List Nat} {smp : Smp} {start size w : Nat}

section Shootdown

variable (hs : Tracked smp s) (hin : InHalf s.feat.levels start size) (hstart : start % 4096 = 0)
  (hsize : size % 4096 = 0) (hcanon : Canonical s.feat.levels w)
  (hw : w ∈ Seg s.feat.levels start size)
include hs hin hstart hsize hcanon hw

omit [Callers] in
/-- The shootdown of a range drops every translation of its addresses. -/
theorem broadcast_drops (hL : s.feat.levels = 4 ∨ s.feat.levels = 5) {cpu : Nat} {c : Cached}
    (hmay : smp.MayHold s cpu c s.trace) (hcovers : c.Covers s.feat.levels w)
    (mem : Nat → Nat → PTEntry) :
    smp.Drops s.feat.levels cpu c (.broadcast mem start size .size4K) := by
  have hinside := (hin.mem_iff_seg hL hcanon).2 hw
  -- the whole range, and so `w`, is in the half of its first address
  have hhalf : isUpperHalf w = isUpperHalf start := by
    have hk := hin.isUpperHalf_add hL (show w - start < size by omega)
    rwa [Nat.add_sub_cancel' hinside.1] at hk
  obtain ⟨j, hj, hlt, hblock⟩ := exists_block hL hin hstart hsize hw
  have hpoint : c.Covers s.feat.levels (start + j * 4096) :=
    (page_of_block c.level hblock).trans hcovers
  have hreach := hs.reachable cpu c hmay
  have hpage : ∃ a ∈ (List.range (size / 4096)).map fun i => add64 start (i * 4096),
      c.Covers s.feat.levels a := by
    refine ⟨start + j * 4096, ?_, hpoint⟩
    rw [List.mem_map]
    exact ⟨j, List.mem_range.2 hj, Nat.mod_eq_of_lt hlt⟩
  have hdiv : (if size = flushAll then flushAll else divRoundUp size (sizeToBytes .size4K)) =
      size / 4096 := by
    have hne : size ≠ flushAll := by
      rintro rfl
      exact absurd hsize (by decide)
    rw [if_neg hne, divRoundUp, sizeToBytes_eq]
    simp [hsize]
  simp only [Smp.Drops, Smp.isShootdownTarget, localInvalidate, hdiv]
  cases hup : isUpperHalf start with
  | true =>
    -- kernel translations are global, and INVLPG reaches them whatever is loaded
    have hglobal : c.value.global = true := by
      rcases hreach with ⟨-, hglobal⟩ | ⟨hlower, -⟩
      · exact hglobal
      · exact absurd ((hlower w hcanon hcovers).symm.trans (hhalf.trans hup)) Bool.false_ne_true
    simp only [Bool.or_true, Bool.true_or, Bool.not_true, Bool.false_and, Bool.false_eq_true,
      if_false, if_true, true_and]
    split
    · trivial
    · exact ⟨.inl hglobal, hpage⟩
  | false =>
    obtain ⟨hlower, hglobal, htracked, hloaded⟩ := hreach.resolve_left fun hkernel =>
      Bool.false_ne_true ((hhalf.trans hup).symm.trans (hkernel.1 w hcanon hcovers))
    simp only [htracked, Bool.or_true, Bool.or_false, true_and]
    cases hcur : (smp.cpus cpu).current with
    | true =>
      simp only [Bool.or_true, Bool.not_true, Bool.false_and, Bool.false_eq_true, if_false, if_true]
      split
      · split
        · trivial
        · exact ⟨hlower, hglobal⟩
      · exact ⟨.inr ⟨hlower, hcur⟩, hpage⟩
    | false =>
      obtain ⟨hk, hpcid⟩ := hloaded.resolve_left (by rw [hcur]; exact Bool.false_ne_true)
      simp only [hk, Bool.or_false, Bool.not_false, Bool.true_and, Bool.false_eq_true, if_false,
        beq_iff_eq, hpcid]
      split
      · exact ⟨hlower, hglobal⟩
      · split
        · exact ⟨⟨hlower, hglobal⟩, hpage⟩
        · exact ⟨hlower, hglobal⟩

/-- **After the shootdown** nothing in the range is stale. -/
theorem broadcast_fresh (hwf : WF s held) : ¬ Stale smp (s.broadcast start size .size4K) w := by
  have hne : size ≠ 0 := by
    rintro rfl
    rw [seg_zero] at hw
    exact hw
  rintro ⟨cpu, c, hmay, hcovers, hgrants⟩
  rw [broadcast_feat] at hcovers
  rw [grants_congr
    (view_congr (broadcast_feat ..) (broadcast_root ..) (broadcast_mem ..) w)] at hgrants
  rcases mayHold_event smp rfl (broadcast_feat ..) (broadcast_root ..)
    (broadcast_trace s start hne .size4K) hmay with ⟨hmay, hkept⟩ | ⟨u, -, hcurrent⟩
  · exact hkept (broadcast_drops hs hin hstart hsize hcanon hw hwf.levels hmay hcovers _)
  · exact hgrants (hcurrent.grants hwf hcovers)

end Shootdown

/-! ## Operations that flush what they change -/

/-- No canonical address gets a stale translation. -/
def Flushed (s s' : PageMap) : Prop :=
  Callers.canonical → ∀ smp w, Tracked smp s → Canonical s.feat.levels w →
    Stale smp s' w → Stale smp s w

section

variable {s' s'' : PageMap} {P Q : Set Nat}

theorem Changes.flushed (h : Changes s s' P ∅) : Flushed s s' := by
  intro _ smp w _ _ hstale
  exact (h.stale smp w hstale).resolve_right (Set.notMem_empty w)

theorem Flushed.trans (h : Flushed s s') (hc : Changes s s' P Q)
    (h' : Flushed s' s'') : Flushed s s'' := by
  intro hcallers smp w hs hcanon hstale
  exact h hcallers smp w hs hcanon
    (h' hcallers smp w (hc.tracked hcallers smp hs) (hc.feat ▸ hcanon) hstale)

/-- A shootdown over all that changed. -/
theorem Changes.flush (h : Changes s s' P (Seg s.feat.levels start size)) (hwf : WF s' held)
    (hin : InHalf s.feat.levels start size) (hstart : start % 4096 = 0) (hsize : size % 4096 = 0) :
    Flushed s (s'.broadcast start size .size4K) := by
  intro hcallers smp w hs hcanon hstale
  rcases (broadcast_changes hwf start size .size4K).stale smp w hstale with hstale' | hmem
  · rcases h.stale smp w hstale' with hbefore | hmem
    · exact hbefore
    · rw [← h.feat] at hin hcanon hmem
      exact absurd hstale
        (broadcast_fresh (h.tracked hcallers smp hs) hin hstart hsize hcanon hmem hwf)
  · exact absurd hmem (Set.notMem_empty w)

end

end PageMap

end Erebus.Vmm
