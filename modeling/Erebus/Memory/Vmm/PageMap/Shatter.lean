import Erebus.Memory.Vmm.PageMap.Leftover

/-!
# Shattering, from outside

A huge leaf is divided once, or twice for a 1 GiB leaf that becomes 4 KiB ones.

* `Transparent`: nobody who reads mappings or hardware bits notices, and other pages keep their very
  entries.
* `shatter_transparent`: every call of `shatter_huge_page` on a leaf is; one that the allocator has
  no frame for writes nothing.
-/

namespace Erebus.Vmm.PageMap

attribute [local instance] Callers.any

variable {s s' s'' : PageMap} {held : List Nat} {v n : Nat}

/-- From `s` to `s'` no mapping and no hardware bit changes, and outside the page of `v` at level
`n` no leaf does. -/
structure Transparent (s s' : PageMap) (v n : Nat) : Prop where
  view : ∀ w, s'.view w = s.view w
  bits : SameHardwareBits s s'
  other : ∀ w, page s.feat.levels n w ≠ page s.feat.levels n v → s'.probe w = s.probe w

/-- How a call of `shatter_huge_page` on the leaf of `v` ends: it divides the leaf if the allocator
has a frame for the table, and fails without a write if not. -/
def Shattered (s : PageMap) (v : Nat) (r : Except Error Unit) (s' : PageMap) : Prop :=
  (s.allocPagesZeroed.1.isSome = true ∧ r = .ok () ∧ (s'.probe v).level + 1 = (s.probe v).level ∧
      (s'.probe v).value.present = true) ∨
    (s.allocPagesZeroed.1 = none ∧ r = .error .outOfMemory ∧ s'.mem = s.mem)

/-- One call. -/
theorem shatter_once (hwf : WF s held) (hlevel : (s.probe v).level = 2 ∨ (s.probe v).level = 3)
    (hpresent : (s.probe v).value.present = true) :
    ∃ r s', s.shatterHugePage (s.probe v).entry v (s.probe v).level = (r, s') ∧ WF s' held ∧
    s'.feat = s.feat ∧ Shattered s v r s' ∧ Transparent s s' v (s.probe v).level := by
  obtain ⟨n, f, hn, hr, hleaf, hprobe⟩ := probe_reaches hwf.levels_pos v
  rw [hprobe] at hlevel hpresent
  obtain ⟨l, rfl⟩ : ∃ l, n = l + 1 := ⟨n - 1, by omega⟩
  simp only at hlevel hpresent
  have hhuge : (s.load (slotOf v (l + 1) f)).huge = true := by
    by_contra hno
    refine hleaf ⟨hpresent, ?_⟩
    rintro (h1 | ⟨-, h⟩)
    · omega
    · exact hno h
  obtain ⟨r, s', heq, hwalked, hbits, hok, hend⟩ :=
    shatter_ok (t := l) hwf (by omega) le_rfl hr hpresent hhuge
  have hview := hwalked.changes.quiet
  have haway := hwalked.away
  rw [hprobe] at haway
  refine ⟨r, s', by rw [hprobe]; exact heq, hwalked.wf, hwalked.changes.feat, ?_, hview,
    hbits, by rwa [hprobe]⟩
  refine hend.imp_left fun ⟨hframe, hdone⟩ => ⟨hframe, hdone, by rw [hprobe, (hok hdone).2], ?_⟩
  -- what translates is present
  have hsome : s'.view v ≠ none := by
    rw [hview]
    exact view_ne_none hwf hr hleaf hpresent
  rw [view_eq, leafView] at hsome
  by_contra hno
  exact hsome (if_neg hno)

/-- **Shattering is transparent.**  On every page map, for every present 2 MiB or 1 GiB leaf: a call
leaves every mapping, every accessed and dirty bit and all entries of other pages as they were, and
divides the leaf or, if the allocator has no frame, writes nothing; so does a second call that goes
on to 4 KiB leaves. -/
theorem shatter_transparent (hwf : WF s held)
    (hlevel : (s.probe v).level = 2 ∨ (s.probe v).level = 3)
    (hpresent : (s.probe v).value.present = true) :
    ∃ r s', s.shatterHugePage (s.probe v).entry v (s.probe v).level = (r, s') ∧ Shattered s v r s' ∧
      Transparent s s' v (s.probe v).level ∧ ((s.probe v).level = 3 → r = .ok () →
        ∃ r' s'', s'.shatterHugePage (s'.probe v).entry v (s'.probe v).level = (r', s'') ∧
        Shattered s' v r' s'' ∧ Transparent s s'' v 3) := by
  obtain ⟨r, s', heq, hwf', hfeat, hend, htrans⟩ := shatter_once hwf hlevel hpresent
  refine ⟨r, s', heq, hend, htrans, fun h3 hr => ?_⟩
  obtain ⟨-, -, hlevel', hpresent'⟩ | ⟨-, herror, -⟩ := hend
  · obtain ⟨r', s'', heq', -, -, hend', htrans'⟩ := shatter_once hwf' (by omega) hpresent'
    refine ⟨r', s'', heq', hend', fun w => (htrans'.view w).trans (htrans.view w), fun w => ?_,
      fun w hw => ?_⟩
    · exact ⟨(htrans'.bits w).1.trans (htrans.bits w).1, (htrans'.bits w).2.trans (htrans.bits w).2⟩
    · -- another page of level 3 is another one of level 2
      rw [htrans'.other w, htrans.other w (by rwa [h3])]
      rw [hfeat]
      exact fun heq => hw (page_eq_of_le (by omega) heq)
  · rw [herror] at hr
    cases hr

private def oneHuge : PageMap :=
  ((fresh ⟨true, true, 4⟩ 1 [2, 3, 4] [some 2, some 3, some 4]).run
    [.map 0x400000000000#64 0x200000#64 .write .writeBack 3 .size2M]).getD
      (fresh ⟨true, true, 4⟩ 1 [] [])

/-- A 2 MiB page, and memory for one table: the call succeeds. -/
theorem shatter_transparent_huge :
    ∃ s', oneHuge.shatterHugePage (oneHuge.probe 0x400000000000).entry
    0x400000000000 (oneHuge.probe 0x400000000000).level = (.ok (), s') ∧
      (oneHuge.probe 0x400000000000).level = 2 ∧ (s'.probe 0x400000000000).level = 1 ∧
        Transparent oneHuge s' 0x400000000000 2 := by
  have hrun : (fresh ⟨true, true, 4⟩ 1 [2, 3, 4] [some 2, some 3, some 4]).run
      [.map 0x400000000000#64 0x200000#64 .write .writeBack 3 .size2M] = some oneHuge := by rfl
  have hwf : WF oneHuge [] := run_wf (fresh_wf _ (Or.inl rfl) (by decide) (by decide)) hrun
  have hlevel : (oneHuge.probe 0x400000000000).level = 2 := by decide +kernel
  have hframe : oneHuge.allocPagesZeroed.1 = some 4 := by decide +kernel
  obtain ⟨r, s', heq, hend, htrans, -⟩ :=
    shatter_transparent (v := 0x400000000000) hwf (Or.inl hlevel) (by decide +kernel)
  rw [hlevel] at htrans
  obtain ⟨-, rfl, hdone, -⟩ | ⟨hnone, -⟩ := hend
  · exact ⟨s', heq, hlevel, by omega, htrans⟩
  · rw [hframe] at hnone
    cases hnone

end Erebus.Vmm.PageMap
