import Erebus.Memory.Vmm.Vma.Contents
import Erebus.Memory.Vmm.Vma.Counts

/-!
# Accounts

* `refs`: the references the areas of a space hold.
* `Good E m s ids H D`: the areas of `s` are `ids`, every reference is accounted for if others hold
  `H`, and the descriptors that are in use are those of `s` and `D`.
* `splitVma_ok`, `isolateRange_ok`, `coalesceRange_ok`: cutting and merging keep the accounts.
-/

namespace Erebus.Vmm.AddressSpace

open List (mem_append mem_cons append_assoc append_of_mem perm_middle)
open RefCount Memory

/-- The reference of an area. -/
def ref (o : Option Nat) : Multiset Nat := o.elim 0 fun o => {o}

/-- The references of the areas. -/
def refs (s : AddressSpace) (ids : List Nat) : Multiset Nat :=
  (ids.map fun i => ref (s.area i).vmObject).sum

/-- The space and the memory fit together. -/
structure Good (E : Past) (m : Memory) (s : AddressSpace) (ids : List Nat) (H : Multiset Nat)
    (D : List Nat) : Prop where
  layout : Layout s ids
  sound : Sound E m (refs s ids + H) 0
  areas : m.areas.Perm (ids ++ D)
  nodup : (ids ++ D).Nodup
  fresh : ∀ i ∈ ids ++ D, i < m.nextArea

section Basics

variable {E : Past} {m m' : Memory} {s s' : AddressSpace} {ids ids' a b D : List Nat}
  {H H' : Multiset Nat} {i j o vma : Nat} {v : VMArea}

theorem refs_congr (h : ∀ i ∈ ids, (s'.area i).vmObject = (s.area i).vmObject) :
    refs s' ids = refs s ids := by
  rw [refs, refs]
  exact congrArg List.sum (List.map_congr_left fun i hi => by rw [h i hi])

theorem refs_nil (s : AddressSpace) : refs s [] = 0 := rfl

theorem refs_middle (s : AddressSpace) (a b : List Nat) (i : Nat) :
    refs s (a ++ i :: b) = ref (s.area i).vmObject + refs s (a ++ b) := by
  simp only [refs, List.map_append, List.map_cons, List.sum_append, List.sum_cons]
  exact add_left_comm ..

theorem mem_refs (hi : i ∈ ids) (ho : (s.area i).vmObject = some o) : o ∈ refs s ids := by
  obtain ⟨a, b, rfl⟩ := append_of_mem hi
  rw [refs_middle, ho]
  exact Multiset.mem_add.2 (.inl (Multiset.mem_singleton_self o))

theorem addRef?_sound {X : Multiset (Nat × PageSize)} {x : Option Nat} (h : Sound E m H X)
    (hx : ∀ o, x = some o → o ∈ H) : Sound E (addRef? m x) (ref x + H) X := by
  cases x with
  | none => simpa [ref, addRef?] using h
  | some o => simpa [ref, addRef?] using addRef_sound h (hx o rfl)

theorem dropRef?_sound {X : Multiset (Nat × PageSize)} {x : Option Nat}
    (h : Sound E m (ref x + H) X) : Sound E (dropRef? m x) H X := by
  cases x with
  | none => simpa [ref, dropRef?] using h
  | some o => exact dropRef_sound (by simpa [ref] using h)

theorem addRef?_keeps (m : Memory) (x : Option Nat) : Keeps m (addRef? m x) := by
  cases x with
  | none => exact Keeps.refl m
  | some o => exact addRef_keeps m o

theorem dropRef?_keeps (m : Memory) (x : Option Nat) : Keeps m (dropRef? m x) := by
  cases x with
  | none => exact Keeps.refl m
  | some o => exact dropRef_keeps m o

variable (h : Good E m s ids H D)
include h

/-- Another memory in which the references are right. -/
theorem Good.memory {E' : Past} (hsound : Sound E' m' (refs s ids + H') 0)
    (hareas : m'.areas = m.areas) (hnext : m'.nextArea = m.nextArea) : Good E' m' s ids H' D where
  layout := h.layout
  sound := hsound
  areas := by rw [hareas]; exact h.areas
  nodup := h.nodup
  fresh := by rw [hnext]; exact h.fresh

theorem Good.same (hs : Same m m') : Good E m' s ids H D :=
  h.memory (hs.sound h.sound) hs.areas hs.nextArea

theorem Good.setTables (p : PageMap) : Good E (m.setTables p) s ids H D :=
  h.memory (setTables_sound h.sound p) rfl rfl

theorem Good.fail {f : Fault} (hf : f ∈ E.faults) : Good E (m.fail f) s ids H D :=
  h.memory (fail_sound hf h.sound) rfl rfl

/-- Another space with the same ranges and objects. -/
theorem Good.space (hlayout : Layout s' ids)
    (hobjects : ∀ i ∈ ids, (s'.area i).vmObject = (s.area i).vmObject) : Good E m s' ids H D where
  layout := hlayout
  sound := by rw [refs_congr hobjects]; exact h.sound
  areas := h.areas
  nodup := h.nodup
  fresh := h.fresh

/-- Other attributes for an area. -/
theorem Good.setArea (hstart : v.start = (s.area i).start) (hstop : v.stop = (s.area i).stop)
    (hobject : v.vmObject = (s.area i).vmObject) : Good E m (s.setArea i v) ids H D := by
  have hall : ∀ j, ((s.setArea i v).area j).start = (s.area j).start ∧
      ((s.setArea i v).area j).stop = (s.area j).stop ∧
      ((s.setArea i v).area j).vmObject = (s.area j).vmObject := fun j => by
    rcases eq_or_ne j i with rfl | hne
    · rw [setArea_same]
      exact ⟨hstart, hstop, hobject⟩
    · rw [setArea_other s v hne]
      exact ⟨rfl, rfl, rfl⟩
  exact h.space (h.layout.congr rfl rfl rfl fun j _ => ⟨(hall j).1, (hall j).2.1⟩) fun j _ =>
    (hall j).2.2

/-- `allocate_vma` answers nothing or a descriptor nobody has. -/
theorem Good.allocate : ∃ r m', m.allocateVma = (r, m') ∧ Good E m' s ids H (r.toList ++ D) ∧
    m'.tables = m.tables ∧ m'.objects = m.objects := by
  obtain ⟨answer, m₁, hgrant, hsame⟩ := grant_same m
  have hgood := h.same hsame
  rw [allocateVma, hgrant]
  cases answer with
  | false => exact ⟨_, _, rfl, hgood, hsame.tables, hsame.objects⟩
  | true =>
    refine ⟨_, _, rfl, ⟨hgood.layout, Sound.congr hgood.sound rfl rfl rfl, ?_, ?_, ?_⟩,
      hsame.tables, hsame.objects⟩
    · exact (hgood.areas.cons m₁.nextArea).trans List.perm_middle.symm
    · refine List.nodup_middle.2 (List.nodup_cons.2 ⟨fun hmem => ?_, hgood.nodup⟩)
      exact absurd (hgood.fresh _ hmem) (Nat.lt_irrefl _)
    · intro i hi
      have hi' : i = m₁.nextArea ∨ i ∈ ids ++ D := by
        simp only [Option.toList_some, List.cons_append, List.nil_append, mem_append,
          mem_cons] at hi ⊢
        tauto
      rcases hi' with rfl | hi
      · exact Nat.lt_succ_self _
      · exact Nat.lt_succ_of_lt (hgood.fresh i hi)

omit h

/-- A descriptor that is in no space goes back. -/
theorem Good.release (h : Good E m s ids H (vma :: D)) : Good E (m.releaseVma vma) s ids H D where
  layout := h.layout
  sound := releaseVma_sound h.sound vma
  areas := by
    have hperm := h.areas.trans perm_middle
    exact (hperm.erase vma).trans (by rw [List.erase_cons_head])
  nodup := (List.nodup_cons.1 (List.nodup_middle.1 h.nodup)).2
  fresh i hi := h.fresh i (by
    simp only [mem_append, mem_cons] at hi ⊢
    tauto)

theorem Good.not_mem (h : Good E m s ids H (vma :: D)) : vma ∉ ids := fun hmem =>
  (List.nodup_append.1 h.nodup).2.2 vma hmem vma (by simp) rfl

/-- A descriptor moves from one side to the other. -/
theorem Good.move (h : Good E m s ids H D) (hlayout : Layout s' ids')
    (hsound : Sound E m' (refs s' ids' + H') 0)
    {D' : List Nat} (hperm : (ids' ++ D').Perm (ids ++ D)) (hareas : m'.areas = m.areas)
    (hnext : m'.nextArea = m.nextArea) : Good E m' s' ids' H' D' where
  layout := hlayout
  sound := hsound
  areas := by rw [hareas]; exact h.areas.trans hperm.symm
  nodup := hperm.nodup_iff.2 h.nodup
  fresh i hi := by rw [hnext]; exact h.fresh i (hperm.mem_iff.1 hi)

end Basics

/-! ## Cutting -/

/-- There is a boundary at the point, and otherwise the space is the old one. -/
def Cut (s s' : AddressSpace) (ids ids' : List Nat) (point : Nat) : Prop :=
  (s' = s ∧ ids' = ids ∧ ∀ i ∈ ids, point ≤ (s.area i).start ∨ (s.area i).stop ≤ point) ∨
    ∃ a i b upper, ids = a ++ i :: b ∧ upper ∉ ids ∧ (s.area i).start < point ∧
    point < (s.area i).stop ∧ s' = s.splitAt i point upper ∧ ids' = a ++ i :: upper :: b

section Cutting

variable {E : Past} {m m' : Memory} {s s' : AddressSpace} {ids ids' D : List Nat} {H : Multiset Nat}
  {i point addr start stop first : Nat}

variable (h : Cut s s' ids ids' point)
include h

/-- The parts are in the old areas, and none goes over the point. -/
theorem Cut.part (hl : Layout s ids) (hi : i ∈ ids') :
    (point ≤ (s'.area i).start ∨ (s'.area i).stop ≤ point) ∧
    ∃ j ∈ ids, (s.area j).start ≤ (s'.area i).start ∧ (s'.area i).stop ≤ (s.area j).stop := by
  rcases h with ⟨rfl, rfl, hno⟩ | ⟨a, k, b, upper, rfl, hnew, hlt, hstop, rfl, rfl⟩
  · exact ⟨hno i hi, i, hi, le_rfl, le_rfl⟩
  · have huk : upper ≠ k := fun heq => hnew (by simp [heq])
    obtain ⟨hself, hupper, hother⟩ := splitAt_area (s := s) point huk
    rcases eq_or_ne i upper with rfl | hiu
    · rw [hupper]
      exact ⟨.inl le_rfl, k, by simp, le_of_lt hlt, le_rfl⟩
    rcases eq_or_ne i k with rfl | hik
    · rw [hself]
      exact ⟨.inr le_rfl, i, by simp, le_rfl, le_of_lt hstop⟩
    · rw [hother i hik hiu]
      simp only [mem_append, mem_cons, hik, hiu, false_or] at hi
      refine ⟨?_, i, by simp [hi, hik], le_rfl, le_rfl⟩
      rcases hi with hi | hi
      · exact .inr ((hl.before hi).trans (le_of_lt hlt))
      · exact .inl ((le_of_lt hstop).trans (hl.after hi))

theorem Cut.layout (hl : Layout s ids) : Layout s' ids' := by
  rcases h with ⟨rfl, rfl, -⟩ | ⟨a, k, b, upper, rfl, hnew, hlt, hstop, rfl, rfl⟩
  · exact hl
  · exact hl.split hlt hstop hnew

/-- What was covered is. -/
theorem Cut.covers (hi : i ∈ ids) (hc : (s.area i).contains addr = true) :
    ∃ j ∈ ids', (s'.area j).contains addr = true := by
  rcases h with ⟨rfl, rfl, -⟩ | ⟨a, k, b, upper, rfl, hnew, hlt, hstop, rfl, rfl⟩
  · exact ⟨i, hi, hc⟩
  · have huk : upper ≠ k := fun heq => hnew (by simp [heq])
    have hiu : i ≠ upper := fun heq => hnew (heq ▸ hi)
    obtain ⟨hself, hupper, hother⟩ := splitAt_area (s := s) point huk
    rw [contains_iff] at hc
    rcases eq_or_ne i k with rfl | hik
    · rcases Nat.lt_or_ge addr point with hbelow | habove
      · refine ⟨i, by simp, ?_⟩
        rw [contains_iff, hself]
        exact ⟨hc.1, hbelow⟩
      · refine ⟨upper, by simp, ?_⟩
        rw [contains_iff, hupper]
        exact ⟨habove, hc.2⟩
    · refine ⟨i, ?_, ?_⟩
      · simp only [mem_append, mem_cons] at hi ⊢
        tauto
      · rwa [contains_iff, hother i hik hiu]

/-- Old areas keep their place and their start. -/
theorem Cut.keeps (hi : i ∈ ids) : i ∈ ids' ∧ (s'.area i).start = (s.area i).start := by
  rcases h with ⟨rfl, rfl, -⟩ | ⟨a, k, b, upper, rfl, hnew, hlt, hstop, rfl, rfl⟩
  · exact ⟨hi, rfl⟩
  · have huk : upper ≠ k := fun heq => hnew (by simp [heq])
    have hiu : i ≠ upper := fun heq => hnew (heq ▸ hi)
    obtain ⟨hself, -, hother⟩ := splitAt_area (s := s) point huk
    refine ⟨?_, ?_⟩
    · simp only [mem_append, mem_cons] at hi ⊢
      tauto
    · rcases eq_or_ne i k with rfl | hik
      · rw [hself]
      · rw [hother i hik hiu]

/-- A cut on a page boundary is invisible. -/
theorem Cut.contents (hl : Layout s ids) (haligned : s.Aligned ids)
    (hpoint : ∀ i ∈ ids, (s.area i).start < point → point < (s.area i).stop →
    point % (s.area i).pageBytes = 0) : SameContents s s' ∧ s'.Aligned ids' := by
  rcases h with ⟨rfl, rfl, -⟩ | ⟨a, k, b, upper, rfl, hnew, hlt, hstop, rfl, rfl⟩
  · exact ⟨SameContents.refl _, haligned⟩
  · exact SameContents.split hl hlt hstop hnew haligned (hpoint k (by simp) hlt hstop)

omit h

/-- The half of a cut area has the object of the whole. -/
theorem refs_splitAt {a b : List Nat} {k upper : Nat} (hnew : upper ∉ a ++ k :: b) :
    refs (s.splitAt k point upper) (a ++ k :: upper :: b) = ref (s.area k).vmObject +
      refs s (a ++ k :: b) := by
  have huk : upper ≠ k := fun heq => hnew (by simp [heq])
  obtain ⟨hself, hupper, hother⟩ := splitAt_area (s := s) point huk
  have hsame : refs (s.splitAt k point upper) (a ++ k :: b) = refs s (a ++ k :: b) := by
    refine refs_congr fun i hi => ?_
    rcases eq_or_ne i k with rfl | hik
    · rw [hself]
    · rw [hother i hik fun heq => hnew (heq ▸ hi)]
  have hmiddle := refs_middle (s.splitAt k point upper) (a ++ [k]) b upper
  simp only [append_assoc, List.singleton_append] at hmiddle
  rw [hmiddle, hsame, hupper]

/-- **`split_vma`** makes a boundary, or fails and leaves everything as it was. -/
theorem splitVma_ok (h : Good E m s ids H D) (hi : i ∈ ids) (hlt : (s.area i).start < point)
    (hstop : point < (s.area i).stop) :
    (∃ m', splitVma m s i point = (.error .outOfMemory, m', s) ∧ Good E m' s ids H D ∧
      m'.tables = m.tables) ∨
      ∃ upper m' ids', splitVma m s i point = (.ok upper, m', s.splitAt i point upper) ∧ upper ≠ i ∧
      upper ∈ ids' ∧
        Cut s (s.splitAt i point upper) ids ids' point ∧
        Good E m' (s.splitAt i point upper) ids' H D ∧ m'.tables = m.tables := by
  rw [splitVma, if_neg (by omega)]
  obtain ⟨r, m₁, halloc, hgood₁, htables₁, -⟩ := h.allocate
  rw [halloc]
  cases r with
  | none => exact .inl ⟨m₁, rfl, hgood₁, htables₁⟩
  | some upper =>
    obtain ⟨answer, m₂, hgrant, hsame⟩ := grant_same m₁
    have hgood₂ := hgood₁.same hsame
    have htables₂ := hsame.tables.trans htables₁
    dsimp only
    rw [hgrant]
    cases answer with
    | false => exact .inl ⟨_, rfl, hgood₂.release, htables₂⟩
    | true =>
      have hnew : upper ∉ ids := Good.not_mem hgood₂
      have hui : upper ≠ i := fun heq => hnew (heq ▸ hi)
      obtain ⟨a, b, rfl⟩ := append_of_mem hi
      have hcut : Cut s (s.splitAt i point upper) (a ++ i :: b) (a ++ i :: upper :: b) point :=
        .inr ⟨a, i, b, upper, rfl, hnew, hlt, hstop, rfl, rfl⟩
      have hkeeps := addRef?_keeps m₂ (s.area i).vmObject
      refine .inr ⟨upper, _, a ++ i :: upper :: b, rfl, hui, by simp, hcut, ?_,
        hkeeps.tables.trans htables₂⟩
      refine hgood₂.move (hcut.layout h.layout) ?_ ?_ hkeeps.areas hkeeps.nextArea
      · rw [refs_splitAt hnew, add_assoc]
        exact addRef?_sound hgood₂.sound fun o ho => Multiset.mem_add.2 (.inl (mem_refs hi ho))
      · simp only [append_assoc, List.cons_append]
        exact List.Perm.append_left a (List.Perm.cons i List.perm_middle.symm)

/-- If the check of `isolate_range` passes, the range is covered and fits the pages at its ends. -/
theorem checkCovered_spec :
    ∀ {nodes : List Nat} {covered : Nat}, s.checkCovered stop nodes covered = .ok () →
    covered < stop →
    (∀ addr, covered ≤ addr → addr < stop → ∃ i ∈ nodes, (s.area i).contains addr = true) ∧
      (∃ i ∈ nodes, (s.area i).contains (stop - 1) = true ∧ stop % (s.area i).pageBytes = 0) ∧
      ∃ first rest, nodes = first :: rest ∧ covered % (s.area first).pageBytes = 0
  | [], covered, h, hlt => by
    rw [checkCovered, if_pos hlt] at h
    cases h
  | vma :: rest, covered, h, hlt => by
    rw [checkCovered, if_pos hlt] at h
    split at h
    · cases h
    rename_i hstart
    dsimp only at h
    split at h
    · cases h
    rename_i haligned
    rw [aligned_iff] at haligned
    have hself : ∀ addr, covered ≤ addr → addr < (s.area vma).stop →
        (s.area vma).contains addr = true :=
      fun addr hle hlt => contains_iff.2 ⟨by omega, hlt⟩
    by_cases hreach : stop ≤ (s.area vma).stop
    · -- the area reaches the end of the range
      rw [min_eq_right hreach] at haligned
      exact ⟨fun addr hle hlt' => ⟨vma, by simp, hself addr hle (by omega)⟩,
        ⟨vma, by simp, hself _ (by omega) (by omega), haligned.2⟩, vma, rest, rfl, haligned.1⟩
    · rw [min_eq_left (by omega)] at h
      obtain ⟨hcov, ⟨i, hi, hc, hmod⟩, -⟩ := checkCovered_spec h (by omega)
      refine ⟨fun addr hle hlt' => ?_, ⟨i, by simp [hi], hc, hmod⟩, vma, rest, rfl, haligned.1⟩
      rcases Nat.lt_or_ge addr (s.area vma).stop with hin | hout
      · exact ⟨vma, by simp, hself addr hle hin⟩
      · obtain ⟨j, hj, hcj⟩ := hcov addr hout hlt'
        exact ⟨j, by simp [hj], hcj⟩

/-- Every area lies before, in or behind the range. -/
def Isolated (s : AddressSpace) (ids : List Nat) (start stop : Nat) : Prop :=
  ∀ i ∈ ids, (s.area i).stop ≤ start ∨ (start ≤ (s.area i).start ∧ (s.area i).stop ≤ stop) ∨
    stop ≤ (s.area i).start

/-- Every address of the range lies in an area. -/
def Covered (s : AddressSpace) (ids : List Nat) (start stop : Nat) : Prop :=
  ∀ addr, start ≤ addr → addr < stop → ∃ i ∈ ids, (s.area i).contains addr = true

theorem Cut.covered (h : Cut s s' ids ids' point) (hcov : s.Covered ids start stop) :
    s'.Covered ids' start stop :=
  fun addr hle hlt => by
    obtain ⟨i, hi, hc⟩ := hcov addr hle hlt
    exact h.covers hi hc

/-- Two cuts at the ends of a range isolate it. -/
theorem Cut.isolated {s'' : AddressSpace} {ids'' : List Nat} (h : Cut s s' ids ids' start)
    (hl : Layout s ids) (h' : Cut s' s'' ids' ids'' stop) : s''.Isolated ids'' start stop := by
  intro i hi
  have hproper := (h'.layout (h.layout hl)).proper i hi
  obtain ⟨hstop, j, hj, hle, hge⟩ := h'.part (h.layout hl) hi
  have hstart := (h.part hl hj).1
  omega

/-- What `isolate_range` leaves: an error and everything as it was but for a cut, or an isolated
range. -/
structure IsolateOutcome (E : Past) (m : Memory) (s : AddressSpace) (ids : List Nat)
    (H : Multiset Nat)
    (D : List Nat) (start stop : Nat) (r : Except Error Nat) (m' : Memory) (s' : AddressSpace)
    (ids' : List Nat) : Prop where
  good : Good E m' s' ids' H D
  root : s'.root = s.root
  tables : m'.tables = m.tables
  contents : start < stop → s.Aligned ids → SameContents s s' ∧ s'.Aligned ids'
  mem : ∀ first, r = .ok first → first ∈ ids'
  isolated : ∀ first, r = .ok first → start < stop →
    (s'.area first).start = start ∧ s'.Isolated ids' start stop ∧ s'.Covered ids' start stop

/-- The cut at the end of a range. -/
theorem isolateEnd_ok (h : Good E m s ids H D) (hfirst : first ∈ ids) (hstop : stop < 2 ^ 64)
    (hE : s.findVma (sub64 stop 1) ≠ none ∨ Fault.nullPointer ∈ E.faults) :
    ∃ r m' s' ids', isolateEnd m s first stop = (r, m', s') ∧ Good E m' s' ids' H D ∧
    s'.root = s.root ∧
      m'.tables = m.tables ∧ first ∈ ids' ∧ (s'.area first).start = (s.area first).start ∧
      (∀ f, r = .ok f → f = first) ∧ (s' = s ∧ ids' = ids ∨ Cut s s' ids ids' stop) ∧
      ((∃ f, r = .ok f) → s.findVma (sub64 stop 1) ≠ none → Cut s s' ids ids' stop) := by
  unfold isolateEnd
  cases hfind : s.findVma (sub64 stop 1) with
  | none =>
    refine ⟨_, _, s, ids, rfl, h.fail (hE.resolve_left fun hne => hne hfind), rfl, rfl,
      hfirst, rfl, ?_, .inl ⟨rfl, rfl⟩, fun _ hne => absurd rfl hne⟩
    rintro f ⟨rfl⟩
    rfl
  | some last =>
    obtain ⟨hlast, hle, hlt⟩ := h.layout.findVma_mem hfind
    have hproper := h.layout.proper last hlast
    have hpos : 0 < stop := by
      by_contra hzero
      have hmax : sub64 stop 1 = 2 ^ 64 - 1 := by
        rw [show stop = 0 by omega]
        rfl
      omega
    have hsub : sub64 stop 1 = stop - 1 := by
      rw [sub64]
      omega
    rw [hsub] at hle hlt
    dsimp only
    by_cases hover : stop < (s.area last).stop
    · rw [if_pos hover]
      rcases splitVma_ok h hlast (by omega) hover with ⟨m', heq, hgood, htables⟩ |
        ⟨upper, m', ids', heq, -, -, hcut, hgood, htables⟩
      · rw [heq]
        exact ⟨_, _, s, ids, rfl, hgood, rfl, htables, hfirst, rfl, nofun, .inl ⟨rfl, rfl⟩,
          fun ⟨f, hf⟩ => (nomatch hf)⟩
      · rw [heq]
        refine ⟨_, _, _, ids', rfl, hgood, rfl, htables, (hcut.keeps hfirst).1,
          (hcut.keeps hfirst).2, ?_, .inr hcut, fun _ _ => hcut⟩
        rintro f ⟨rfl⟩
        rfl
    · rw [if_neg hover]
      have hcut : Cut s s ids ids stop := by
        refine .inl ⟨rfl, rfl, fun i hi => ?_⟩
        -- an area over the end would hold the last address of the range, like `last`
        by_contra hno
        have hsame := h.layout.eq_of_contains (stop - 1) hi hlast (contains_iff.2 (by omega))
          (contains_iff.2 (by omega))
        subst hsame
        omega
      refine ⟨_, _, s, ids, rfl, h, rfl, rfl, hfirst, rfl, ?_, .inl ⟨rfl, rfl⟩, fun _ _ => hcut⟩
      rintro f ⟨rfl⟩
      rfl

/-- **`isolate_range`.** -/
theorem isolateRange_ok (h : Good E m s ids H D) (start : Nat) (hstop : stop < 2 ^ 64)
    (hE : start < stop ∨ Fault.nullPointer ∈ E.faults) :
    ∃ r m' s' ids', isolateRange m s start stop = (r, m', s') ∧
      IsolateOutcome E m s ids H D start stop r m' s' ids' := by
  have hfail : ∀ e, IsolateOutcome E m s ids H D start stop (.error e) m s ids := fun e =>
    ⟨h, rfl, rfl, fun _ ha => ⟨SameContents.refl s, ha⟩, (by simp), (by simp)⟩
  unfold isolateRange
  cases hfind : s.findVma start with
  | none => exact ⟨_, m, s, ids, rfl, hfail _⟩
  | some first =>
    obtain ⟨hfirst, hle, hlt⟩ := h.layout.findVma_mem hfind
    dsimp only
    cases hcheck : s.checkCovered stop (s.following (some first)) start with
    | error e => exact ⟨_, m, s, ids, rfl, hfail e⟩
    | ok u =>
      obtain ⟨a, b, rfl⟩ := append_of_mem hfirst
      rw [h.layout.following_eq] at hcheck
      have hsub : ∀ i ∈ first :: b, i ∈ a ++ first :: b := fun i hi => List.mem_append_right a hi
      -- what the check tells about a range that does not wrap
      have hspec : start < stop → s.Covered (a ++ first :: b) start stop ∧
          (∃ i ∈ a ++ first :: b, (s.area i).contains (stop - 1) = true ∧
          stop % (s.area i).pageBytes = 0) ∧ start % (s.area first).pageBytes = 0 := by
        intro hss
        obtain ⟨hcov, ⟨i, hi, hc, hmod⟩, f, rest, heq, hstart⟩ := checkCovered_spec hcheck hss
        cases heq
        refine ⟨fun addr hle hlt => ?_, ⟨i, hsub i hi, hc, hmod⟩, hstart⟩
        obtain ⟨j, hj, hcj⟩ := hcov addr hle hlt
        exact ⟨j, hsub j hj, hcj⟩
      -- the rest, after a cut at the start of the range
      have hend : ∀ {m₁ s₁ ids₁ f}, Good E m₁ s₁ ids₁ H D → s₁.root = s.root →
          m₁.tables = m.tables →
          f ∈ ids₁ → (s₁.area f).start = start → Cut s s₁ (a ++ first :: b) ids₁ start →
          ∃ r m' s' ids', isolateEnd m₁ s₁ f stop = (r, m', s') ∧
            IsolateOutcome E m s (a ++ first :: b) H D start stop r m' s' ids' := by
        intro m₁ s₁ ids₁ f hgood₁ hroot₁ htables₁ hf hfstart hcut₁
        have hlast : start < stop → s₁.findVma (sub64 stop 1) ≠ none := fun hss => by
          have hsub64 : sub64 stop 1 = stop - 1 := by
            rw [sub64]
            omega
          obtain ⟨j, hj, hcj⟩ := hcut₁.covered (hspec hss).1 (stop - 1) (by omega) (by omega)
          rw [hsub64, hgood₁.layout.findVma_iff.2 ⟨hj, hcj⟩]
          exact Option.some_ne_none j
        obtain ⟨r, m', s', ids', heq, hgood', hroot', htables', hf', hstart', hok, hcut, hcutok⟩ :=
          isolateEnd_ok hgood₁ hf hstop (hE.imp_left hlast)
        refine ⟨r, m', s', ids', heq, hgood', hroot'.trans hroot₁, htables'.trans htables₁,
          fun hss haligned => ?_, fun g hg => (hok g hg) ▸ hf', fun g hg hss => ?_⟩
        · obtain ⟨-, ⟨i, hi, hc, hmod⟩, hstart⟩ := hspec hss
          obtain ⟨hsame₁, haligned₁⟩ := hcut₁.contents h.layout haligned fun k hk hk1 hk2 => by
            have :=
              h.layout.eq_of_contains start hk (hsub first (by simp)) (contains_iff.2 (by omega))
              (contains_iff.2 ⟨hle, hlt⟩)
            rw [this]
            exact hstart
          rcases hcut with ⟨rfl, rfl⟩ | hcut
          · exact ⟨hsame₁, haligned₁⟩
          · obtain ⟨hsame', haligned'⟩ :=
              hcut.contents hgood₁.layout haligned₁ fun k hk hk1 hk2 => by
              -- the area at the end has the page size it had before the first cut
              have hck : (s₁.area k).contains (stop - 1) = true := contains_iff.2 (by omega)
              have hattr := hsame₁ (stop - 1)
              rw [hgood₁.layout.attributes_eq hk hck, h.layout.attributes_eq hi hc] at hattr
              have hflags : (s₁.area k).flags = (s.area i).flags :=
                congrArg Attributes.flags (Option.some.inj hattr)
              rw [VMArea.pageBytes, hflags]
              exact hmod
            exact ⟨hsame₁.trans hsame', haligned'⟩
        · have hcut' := hcutok ⟨g, hg⟩ (hlast hss)
          rw [hok g hg, hstart', hfstart]
          exact ⟨rfl, hcut₁.isolated h.layout hcut', hcut'.covered (hcut₁.covered (hspec hss).1)⟩
      dsimp only
      by_cases hbefore : (s.area first).start < start
      · rw [if_pos hbefore]
        rcases splitVma_ok h hfirst hbefore hlt with ⟨m', heq, hgood, htables⟩ |
          ⟨upper, m', ids', heq, hui, hupper, hcut, hgood, htables⟩
        · rw [heq]
          exact ⟨_, m', s, _, rfl, hgood, rfl, htables, fun _ ha => ⟨SameContents.refl s, ha⟩,
            (by simp), (by simp)⟩
        · rw [heq]
          refine hend hgood rfl htables hupper ?_ hcut
          rw [(splitAt_area start hui).2.1]
      · rw [if_neg hbefore]
        have heq : (s.area first).start = start := by omega
        refine hend h rfl rfl hfirst heq (.inl ⟨rfl, rfl, fun k hk => ?_⟩)
        by_contra hno
        have := h.layout.eq_of_contains start hk hfirst (contains_iff.2 (by omega))
            (contains_iff.2 ⟨hle, hlt⟩)
        subst this
        omega

end Cutting

/-! ## Merging -/

/-- The space holds what it held, though its areas may be cut in another way. -/
structure Recut (E : Past) (m : Memory) (s : AddressSpace) (ids : List Nat) (H : Multiset Nat)
    (D : List Nat) (m' : Memory) (s' : AddressSpace) (ids' : List Nat) : Prop where
  good : Good E m' s' ids' H D
  root : s'.root = s.root
  tables : m'.tables = m.tables
  fault : m'.fault = none → m.fault = none
  contents : s.Aligned ids → SameContents s s' ∧ s'.Aligned ids'

section Merging

variable {E : Past} {m m' m'' : Memory} {s s' s'' : AddressSpace} {ids ids' ids'' a b D : List Nat}
  {H : Multiset Nat} {i j : Nat}

theorem Recut.refl (h : Good E m s ids H D) : Recut E m s ids H D m s ids :=
  ⟨h, rfl, rfl, id, fun ha => ⟨SameContents.refl s, ha⟩⟩

theorem Recut.trans (h : Recut E m s ids H D m' s' ids')
    (h' : Recut E m' s' ids' H D m'' s'' ids'') : Recut E m s ids H D m'' s'' ids'' :=
  ⟨h'.good, h'.root.trans h.root, h'.tables.trans h.tables,
    fun hnone => h.fault (h'.fault hnone), fun ha => by
    obtain ⟨hsame, ha'⟩ := h.contents ha
    obtain ⟨hsame', ha''⟩ := h'.contents ha'
    exact ⟨hsame.trans hsame', ha''⟩⟩

/-- **`absorb_next`**, for two areas that fit. -/
theorem absorbNext_ok (h : Good E m s (a ++ i :: j :: b) H D)
    (hmerge : s.canMerge (some i) (some j) = true) : ∃ m', absorbNext m s i = (m', s.absorbed i j) ∧
      Recut E m s (a ++ i :: j :: b) H D m' (s.absorbed i j) (a ++ i :: b) := by
  have hnext : s.links.next i = some j := h.layout.dlist.cells.2
  have hkeeps := dropRef?_keeps m (s.area j).vmObject
  rw [absorbNext, hnext]
  refine ⟨_, rfl, ?_, rfl, hkeeps.tables, hkeeps.fault,
    fun ha => SameContents.absorb h.layout ha hmerge⟩
  have hself : (s.absorbed i j).area i = { s.area i with stop := (s.area j).stop } :=
    setArea_same ..
  have hrefs : refs (s.absorbed i j) (a ++ i :: b) = refs s (a ++ i :: b) := by
    refine refs_congr fun k _ => ?_
    rcases eq_or_ne k i with rfl | hki
    · rw [hself]
    · exact congrArg VMArea.vmObject (setArea_other s _ hki)
  have hmiddle := refs_middle s (a ++ [i]) b j
  simp only [append_assoc, List.singleton_append] at hmiddle
  have hsound :
      Sound E (dropRef? m (s.area j).vmObject) (refs (s.absorbed i j) (a ++ i :: b) + H) 0 := by
    have hold := h.sound
    rw [hmiddle, add_assoc] at hold
    rw [hrefs]
    exact dropRef?_sound hold
  refine Good.release (h.move h.layout.absorb hsound ?_ hkeeps.areas hkeeps.nextArea)
  simp only [append_assoc, List.cons_append]
  exact List.Perm.append_left a (List.Perm.cons i perm_middle)

/-- An area and its successor. -/
theorem mergeInto_ok (h : Good E m s (a ++ i :: b) H D) :
    ∃ m' s' b', mergeInto m s (some i) b.head? = (m', s') ∧ (b' = b ∨ ∃ j, b = j :: b') ∧
      Recut E m s (a ++ i :: b) H D m' s' (a ++ i :: b') := by
  unfold mergeInto
  cases hmerge : s.canMerge (some i) b.head? with
  | false => exact ⟨m, s, b, rfl, .inl rfl, Recut.refl h⟩
  | true =>
    cases b with
    | nil => cases hmerge
    | cons j b =>
      obtain ⟨m', heq, hrecut⟩ := absorbNext_ok h hmerge
      exact ⟨m', _, b, heq, .inr ⟨j, rfl⟩, hrecut⟩

/-- The walk back. -/
theorem coalesceBack_ok (start : Nat) :
    ∀ (fuel : Nat) {m : Memory} {s : AddressSpace} {a b : List Nat} {curr : Nat},
    Good E m s (a ++ curr :: b) H D →
    ∃ m' s' ids', coalesceBack start fuel m s (some curr) = (m', s') ∧
      Recut E m s (a ++ curr :: b) H D m' s' ids'
  | 0, m, s, _, _, _, h => ⟨m, s, _, rfl, Recut.refl h⟩
  | fuel + 1, m, s, a, b, curr, h => by
    rw [coalesceBack]
    split
    swap
    · exact ⟨m, s, _, rfl, Recut.refl h⟩
    have hprev : s.links.prev curr = a.getLast? := h.layout.dlist.cells.1
    dsimp only
    rcases List.eq_nil_or_concat a with rfl | ⟨c, p, rfl⟩
    · -- nothing is in front
      rw [hprev]
      refine ⟨m, s, _, ?_, Recut.refl h⟩
      cases fuel <;> rfl
    · simp only [List.concat_eq_append, append_assoc, List.singleton_append] at h hprev
      have hprev' : s.links.prev curr = some p := by simpa using hprev
      obtain ⟨m₁, s₁, b₁, heq, -, hrecut⟩ := mergeInto_ok h
      rw [List.head?_cons] at heq
      obtain ⟨m', s', ids', hback, hrecut'⟩ := coalesceBack_ok start fuel hrecut.good
      rw [hprev', heq]
      simp only [List.concat_eq_append, append_assoc, List.singleton_append]
      exact ⟨m', s', ids', hback, hrecut.trans hrecut'⟩

/-- **`coalesce_range`.** -/
theorem coalesceRange_ok (h : Good E m s ids H D) {last : Option Nat}
    (hlast : ∀ l, last = some l → l ∈ ids)
    (start : Nat) :
    ∃ m' s' ids', coalesceRange m s last start = (m', s') ∧ Recut E m s ids H D m' s' ids' := by
  cases last with
  | none => exact ⟨m, s, ids, rfl, Recut.refl h⟩
  | some l =>
    obtain ⟨a, b, rfl⟩ := append_of_mem (hlast l rfl)
    obtain ⟨m₁, s₁, b₁, heq, -, hrecut⟩ := mergeInto_ok h
    obtain ⟨m', s', ids', hback, hrecut'⟩ := coalesceBack_ok start maxAreas hrecut.good
    rw [coalesceRange]
    dsimp only
    rw [h.layout.dlist.cells.2, heq]
    exact ⟨m', s', ids', hback, hrecut.trans hrecut'⟩

end Merging

end Erebus.Vmm.AddressSpace
