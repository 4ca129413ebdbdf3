import Erebus.Memory.Vmm.Vma.Accounts

/-!
# Operations on a range

`protect`, `lock_memory` and `unlock_memory` isolate a range, give each of its areas a new
attribute, and merge what fits.

* `Applied upd s s' done`: the areas `done` have got their new flags, and nothing else changed but
  counts of faults.
* `resolveVmaFaultLocked_ok`: a fault changes no area.
* `RangeCall`, `RangeCall.exec_ok`: the three operations keep the accounts.
* `rangeCalls_safe_iff`: they follow no null pointer and refuse what is not covered, exactly if the
  range does not wrap around or does not begin in an area.
-/

namespace Erebus.Vmm.AddressSpace

open RefCount Memory

/-- The areas `done` have got new flags; otherwise only the counts of faults are different. -/
structure Applied (upd : VMAFlags → VMAFlags) (s s' : AddressSpace) (done : List Nat) : Prop where
  links : s'.links = s.links
  ends : s'.ends = s.ends
  tree : s'.tree = s.tree
  root : s'.root = s.root
  area : ∀ i, ∃ n, s'.area i =
    { s.area i with
      flags := if i ∈ done then upd (s.area i).flags else (s.area i).flags, faultCount := n }

/-- Only faults were resolved. -/
abbrev Filled (E : Past) (upd : VMAFlags → VMAFlags) (s : AddressSpace) (ids : List Nat)
    (H : Multiset Nat) (D : List Nat)
    (x : Memory × AddressSpace) : Prop := Applied upd s x.2 [] ∧ Good E x.1 x.2 ids H D

section

variable {E : Past} {m : Memory} {s s' s'' : AddressSpace} {ids done D : List Nat}
  {H : Multiset Nat} {i vma : Nat} {upd : VMAFlags → VMAFlags}

theorem Applied.refl (upd : VMAFlags → VMAFlags) (s : AddressSpace) : Applied upd s s [] :=
  ⟨rfl, rfl, rfl, rfl, fun i => ⟨(s.area i).faultCount, rfl⟩⟩

variable (h : Applied upd s s' done)
include h

theorem Applied.bounds (i : Nat) :
    (s'.area i).start = (s.area i).start ∧ (s'.area i).stop = (s.area i).stop ∧
      (s'.area i).vmObject = (s.area i).vmObject ∧
      (s'.area i).flags = if i ∈ done then upd (s.area i).flags else (s.area i).flags := by
  obtain ⟨n, hn⟩ := h.area i
  rw [hn]
  exact ⟨rfl, rfl, rfl, rfl⟩

theorem Applied.layout (hl : Layout s ids) : Layout s' ids :=
  hl.congr h.links h.ends h.tree fun i _ => ⟨(h.bounds i).1, (h.bounds i).2.1⟩

theorem Applied.good (hg : Good E m s ids H D) : Good E m s' ids H D :=
  hg.space (h.layout hg.layout) fun i _ => (h.bounds i).2.2.1

/-- First some areas, then others. -/
theorem Applied.trans {done' : List Nat} (h' : Applied upd s' s'' done')
    (hdisj : ∀ i ∈ done', i ∉ done) : Applied upd s s'' (done ++ done') := by
  refine ⟨h'.links.trans h.links, h'.ends.trans h.ends, h'.tree.trans h.tree,
    h'.root.trans h.root, fun i => ?_⟩
  obtain ⟨n, hn⟩ := h.area i
  obtain ⟨n', hn'⟩ := h'.area i
  refine ⟨n', ?_⟩
  rw [hn', hn]
  by_cases hd' : i ∈ done'
  · simp [hd', hdisj i hd']
  · simp [hd']

omit h

/-- One more count of faults. -/
theorem Applied.setFaultCount (upd : VMAFlags → VMAFlags) (s : AddressSpace) (vma n : Nat) :
    Applied upd s (s.setArea vma { s.area vma with faultCount := n }) [] := by
  refine ⟨rfl, rfl, rfl, rfl, fun i => ?_⟩
  rcases eq_or_ne i vma with rfl | hne
  · exact ⟨n, by rw [setArea_same]; rfl⟩
  · exact ⟨(s.area i).faultCount, by rw [setArea_other s _ hne]; rfl⟩

/-- One area gets its flags. -/
theorem Applied.setFlags (upd : VMAFlags → VMAFlags) (s : AddressSpace) (vma : Nat) :
    Applied upd s (s.setArea vma { s.area vma with flags := upd (s.area vma).flags }) [vma] := by
  refine ⟨rfl, rfl, rfl, rfl, fun i => ⟨(s.area i).faultCount, ?_⟩⟩
  rcases eq_or_ne i vma with rfl | hne
  · rw [setArea_same]
    simp
  · rw [setArea_other s _ hne]
    simp [hne]

end

/-! ## Faults -/

section

variable {E : Past} {m : Memory} {s : AddressSpace} {ids D : List Nat} {H : Multiset Nat}
  {vma obj faultAddr : Nat} {upd : VMAFlags → VMAFlags}

variable (h : Good E m s ids H D)
include h

theorem mapPage_good (vma virt phys : Nat) (flags : AccessFlags) :
    Good E (mapPage m s vma virt phys flags).2 s ids H D := h.setTables _

theorem remapPage_good (vma virt phys : Nat) (flags : AccessFlags) :
    Good E (remapPage m s vma virt phys flags).2 s ids H D := h.setTables _

variable (hvma : vma ∈ ids)
include hvma

/-- Pages of an object that an area refers to. -/
theorem Good.resolveCowFault (hobj : (s.area vma).vmObject = some obj)
    (n : Nat) : Good E (m.resolveCowFault obj n).2 s ids H D := by
  have hkeeps := resolveCowFault_keeps m obj n
  exact h.memory (resolveCowFault_sound h.sound (Multiset.mem_add.2 (.inl (mem_refs hvma hobj))) n)
    hkeeps.areas hkeeps.nextArea

theorem Good.getPage (hobj : (s.area vma).vmObject = some obj) (n : Nat) :
    Good E (m.getPage obj n).2 s ids H D := by
  have hkeeps := getPage_keeps m obj n
  exact h.memory (getPage_sound h.sound (Multiset.mem_add.2 (.inl (mem_refs hvma hobj))) n)
    hkeeps.areas hkeeps.nextArea

theorem resolveAllowed_ok (hobj : (s.area vma).vmObject = some obj)
    (faultAddr : Nat) (isWrite : Bool) (upd : VMAFlags → VMAFlags) :
    ∃ r x, resolveAllowed m s vma obj faultAddr isWrite = (r, x) ∧ Filled E upd s ids H D x := by
  have hcount := Applied.setFaultCount upd s vma (((s.area vma).faultCount + 1) % 2 ^ 32)
  unfold resolveAllowed
  dsimp only
  split
  · have hcow := h.resolveCowFault hvma hobj (add64 (s.area vma).objectOffset
        (sub64 (alignDown faultAddr (s.area vma).pageBytes) (s.area vma).start /
          (s.area vma).pageBytes))
    split
    · rename_i heq
      rw [heq] at hcow
      exact ⟨_, _, rfl, hcount, hcount.good hcow⟩
    · rename_i heq
      rw [heq] at hcow
      split
      · exact ⟨_, _, rfl, hcount, remapPage_good (hcount.good hcow) ..⟩
      · exact ⟨_, _, rfl, hcount, mapPage_good (hcount.good hcow) ..⟩
  split
  · split
    · exact ⟨_, _, rfl, hcount, hcount.good h⟩
    · exact ⟨_, _, rfl, hcount, hcount.good h⟩
  · have hpage := h.getPage hvma hobj (add64 (s.area vma).objectOffset
        (sub64 (alignDown faultAddr (s.area vma).pageBytes) (s.area vma).start /
          (s.area vma).pageBytes))
    split
    · rename_i heq
      rw [heq] at hpage
      exact ⟨_, _, rfl, hcount, hcount.good hpage⟩
    · rename_i heq
      rw [heq] at hpage
      exact ⟨_, _, rfl, hcount, mapPage_good (hcount.good hpage) ..⟩

/-- **`resolve_vma_fault_locked`** changes no area. -/
theorem resolveVmaFaultLocked_ok (faultAddr : Nat) (faultType : AccessFlags)
    (upd : VMAFlags → VMAFlags) :
    ∃ r x, resolveVmaFaultLocked m s vma faultAddr faultType = (r, x) ∧
    Filled E upd s ids H D x := by
  unfold resolveVmaFaultLocked
  split
  · exact ⟨_, _, rfl, Applied.refl upd s, h⟩
  split
  · exact ⟨_, _, rfl, .refl upd s, h⟩
  · rename_i obj hobj
    exact resolveAllowed_ok h hvma hobj faultAddr _ upd

omit hvma

omit h

theorem lockPage_ok {v : VMArea} {x : Memory × AddressSpace} (h : Filled E upd s ids H D x)
    (hvma : vma ∈ ids) (i : Nat) :
    Sum.elim (Filled E upd s ids H D) (fun x => Filled E upd s ids H D x.2)
      (lockPage vma v i x) := by
  unfold lockPage
  dsimp only
  split
  · exact h
  · obtain ⟨r, x, heq, happ, hgood⟩ :=
      resolveVmaFaultLocked_ok h.2 hvma (v.start + i * v.pageBytes) (fillType v.flags.getAccess) upd
    rw [heq]
    have happ'' := h.1.trans happ fun i hi => absurd hi List.not_mem_nil
    cases r with
    | ok u => exact ⟨happ'', hgood⟩
    | error e => exact ⟨happ'', hgood⟩

/-- A sequence of faults in one area. -/
theorem lockPages_ok (h : Good E m s ids H D) (hvma : vma ∈ ids) (upd : VMAFlags → VMAFlags) :
    ∃ r x, lockPages m s vma = (r, x) ∧ Filled E upd s ids H D x := by
  unfold lockPages
  dsimp only
  generalize ((s.area vma).sizeBytes + ((s.area vma).pageBytes - 1)) / (s.area vma).pageBytes = n
  have hloop := Loop.upTo_ok (n := n) (s := (m, s)) (fun _ => Filled E upd s ids H D) _
    (fun i _ _ hinv => lockPage_ok (v := s.area vma) hinv hvma i) ⟨Applied.refl upd s, h⟩
  split
  · rename_i heq
    rw [heq] at hloop
    exact ⟨_, _, rfl, hloop⟩
  · rename_i heq
    rw [heq] at hloop
    exact ⟨_, _, rfl, hloop⟩

end

/-! ## The loop -/

/-- A step gives an area its new flags, or ends the loop, with or without them. -/
def AreaStep.Sets (E : Past) (upd : VMAFlags → VMAFlags) (step : AreaStep) : Prop :=
  ∀ (m : Memory) (s : AddressSpace) (ids : List Nat) (H : Multiset Nat) (D : List Nat) (vma : Nat),
    Good E m s ids H D → vma ∈ ids →
    Sum.elim (fun x => Applied upd s x.2 [vma] ∧ Good E x.1 x.2 ids H D)
      (fun x => (Applied upd s x.2.2.2 [] ∨ Applied upd s x.2.2.2 [vma]) ∧
        Good E x.2.2.1 x.2.2.2 ids H D ∧ (x.1 = .ok () → x.2.2.1.fault ≠ none)) (step vma m s)

section Sweep

variable {E : Past} {m m' : Memory} {s s' : AddressSpace} {ids nodes D : List Nat}
  {H : Multiset Nat} {upd : VMAFlags → VMAFlags} {step : AreaStep}

theorem protectArea_sets (hE : E.Endless) (newFlags : AccessFlags) :
    AreaStep.Sets E (fun f => f.setAccess (updatedAccess newFlags f.getAccess))
      (protectArea newFlags) := by
  intro m s ids H D vma h hvma
  unfold protectArea
  dsimp only
  split
  · exact ⟨Or.inl (Applied.refl _ s), h.fail hE, fun _ => by simp [Memory.fail]⟩
  · exact ⟨.inl (.refl _ s), h.setTables _, (by simp)⟩
  · have happ := Applied.setFlags (fun f => f.setAccess (updatedAccess newFlags f.getAccess)) s vma
    exact ⟨happ, happ.good (h.setTables _)⟩

theorem setIsLocked_applied (s : AddressSpace) (vma : Nat) (isLocked : Bool) :
    Applied (fun f => { f with isLocked := isLocked }) s (s.setIsLocked vma isLocked) [vma] :=
  Applied.setFlags (fun f => { f with isLocked := isLocked }) s vma

theorem unlockArea_sets : AreaStep.Sets E (fun f => { f with isLocked := false }) unlockArea :=
  fun _ s _ _ _ vma h _ =>
    ⟨setIsLocked_applied s vma false, (setIsLocked_applied s vma false).good h⟩

theorem lockArea_sets : AreaStep.Sets E (fun f => { f with isLocked := true }) lockArea := by
  intro m s ids H D vma h hvma
  have happ := setIsLocked_applied s vma true
  have hgood := happ.good h
  unfold lockArea
  dsimp only
  split
  · exact ⟨happ, hgood⟩
  · obtain ⟨r, x, heq, happ', hgood'⟩ :=
      lockPages_ok hgood hvma (fun f => { f with isLocked := true })
    have happ'' := happ.trans happ' fun i hi => absurd hi List.not_mem_nil
    rw [List.append_nil] at happ''
    rw [heq]
    cases r with
    | ok u => exact ⟨happ'', hgood'⟩
    | error e => exact ⟨.inr happ'', hgood', nofun⟩

/-- **The loop** gives new flags to the areas of a first part, and to all below the end if it does
not fail. -/
theorem sweepAreas_ok (hstep : AreaStep.Sets E upd step) (stop : Nat) :
    ∀ {nodes : List Nat} {m : Memory}
    {s : AddressSpace} (last : Option Nat), Good E m s ids H D →
    (∀ i ∈ nodes, i ∈ ids) → nodes.Nodup →
    ∃ r last' m' s' done rest, sweepAreas step stop nodes m s last = (r, last', m', s') ∧
    nodes = done ++ rest ∧
      Applied upd s s' done ∧ Good E m' s' ids H D ∧
      (∀ l, last' = some l → l ∈ nodes ∨ last = some l) ∧ (∀ i ∈ done, (s.area i).start < stop) ∧
      (r = .ok () → m'.fault = none → ∀ i, rest.head? = some i → stop ≤ (s.area i).start)
  | [], m, s, last, h, _, _ =>
    ⟨_, last, m, s, [], [], rfl, rfl, Applied.refl upd s, h, fun _ hl => Or.inr hl,
      fun _ hi => absurd hi List.not_mem_nil, nofun⟩
  | vma :: rest, m, s, last, h, hsub, hnodup => by
    have hone := hstep m s ids H D vma h (hsub vma (by simp))
    rw [List.nodup_cons] at hnodup
    rw [sweepAreas]
    split
    swap
    · rename_i hstop
      refine ⟨_, last, m, s, [], vma :: rest, rfl, rfl, .refl upd s, h, fun _ hl => .inr hl,
        fun _ hi => absurd hi List.not_mem_nil, fun _ _ i hi => ?_⟩
      cases hi
      omega
    rename_i hstart
    split
    · rename_i m₁ s₁ heq
      rw [heq] at hone
      obtain ⟨r, last', m', s', done, rest', hsweep, rfl, happ, hgood, hlast, hdone, hrest⟩ :=
        sweepAreas_ok hstep stop (some vma) hone.2
          (fun i hi => hsub i (List.mem_cons_of_mem vma hi)) hnodup.2
      have hbounds : ∀ i, (s₁.area i).start = (s.area i).start := fun i => (hone.1.bounds i).1
      refine ⟨r, last', m', s', vma :: done, rest', hsweep, rfl, ?_, hgood, fun l hl => ?_,
        fun i hi => ?_, fun hok hfault i hi => ?_⟩
      · refine hone.1.trans happ fun i hi => ?_
        rw [List.mem_singleton]
        rintro rfl
        exact hnodup.1 (List.mem_append_left rest' hi)
      · rcases hlast l hl with hmem | heq
        · exact .inl (List.mem_cons_of_mem vma hmem)
        · exact .inl (Option.some.inj heq ▸ List.mem_cons_self)
      · rcases List.mem_cons.1 hi with rfl | hi
        · exact hstart
        · exact hbounds i ▸ hdone i hi
      · exact hbounds i ▸ hrest hok hfault i hi
    · rename_i r counts m₁ s₁ heq
      rw [heq] at hone
      obtain ⟨happ, hgood, hok⟩ := hone
      have hlast : ∀ l, (if counts = true then some vma else last) = some l →
          l ∈ vma :: rest ∨ last = some l := by
        intro l hl
        split at hl
        · exact .inl (Option.some.inj hl ▸ List.mem_cons_self)
        · exact .inr hl
      rcases happ with happ | happ
      · exact ⟨r, _, m₁, s₁, [], vma :: rest, rfl, rfl, happ, hgood, hlast,
          fun _ hi => absurd hi List.not_mem_nil, fun hr hfault => absurd hfault (hok hr)⟩
      · refine ⟨r, _, m₁, s₁, [vma], rest, rfl, rfl, happ, hgood, hlast, fun i hi => ?_,
          fun hr hfault => absurd hfault (hok hr)⟩
        rw [List.mem_singleton.1 hi]
        exact hstart

end Sweep

/-! ## The operations -/

/-- New flags for an address. -/
def Attributes.update (upd : VMAFlags → VMAFlags) (a : Attributes) : Attributes :=
  { a with flags := upd a.flags }

/-- `protect`, `lock_memory` and `unlock_memory`. -/
inductive RangeCall where
  | protect (newFlags : AccessFlags)
  | lockMemory
  | unlockMemory

namespace RangeCall

def exec : RangeCall → Memory → AddressSpace → Nat → Nat → Except Error Unit × Memory × AddressSpace
  | .protect newFlags, m, s, addr, size => AddressSpace.protect m s addr size newFlags
  | .lockMemory, m, s, addr, size => AddressSpace.lockMemory m s addr size
  | .unlockMemory, m, s, addr, size => AddressSpace.unlockMemory m s addr size

/-- What an area of the range goes through. -/
def step : RangeCall → AreaStep
  | .protect newFlags => protectArea newFlags
  | .lockMemory => lockArea
  | .unlockMemory => unlockArea

/-- The attribute that is set. -/
def update : RangeCall → VMAFlags → VMAFlags
  | .protect newFlags => fun f => f.setAccess (updatedAccess newFlags f.getAccess)
  | .lockMemory => fun f => { f with isLocked := true }
  | .unlockMemory => fun f => { f with isLocked := false }

theorem exec_eq (call : RangeCall) (m : Memory) (s : AddressSpace) (addr size : Nat) :
    call.exec m s addr size = onRange m s addr size call.step := by
  cases call <;> rfl

theorem step_sets {E : Past} (hE : E.Endless) (call : RangeCall) :
    AreaStep.Sets E call.update call.step := by
  cases call with
  | protect newFlags => exact protectArea_sets hE newFlags
  | lockMemory => exact lockArea_sets
  | unlockMemory => exact unlockArea_sets

theorem update_pageSize (call : RangeCall) (f : VMAFlags) :
    (call.update f).pageSize = f.pageSize := by
  cases call <;> rfl

end RangeCall

section Calls

variable {E : Past} {m m' : Memory} {s s' : AddressSpace} {ids done D : List Nat} {H : Multiset Nat}
  {i addr size start stop : Nat} {upd : VMAFlags → VMAFlags}

variable (h : Applied upd s s' done) (hpage : ∀ f, (upd f).pageSize = f.pageSize)
include h hpage

/-- The abstract map after a sweep. -/
theorem Applied.attributes (hl : Layout s ids) (hi : i ∈ ids)
    (hc : (s.area i).contains addr = true) :
    s'.attributes addr = if i ∈ done then (s.attributes addr).map (Attributes.update upd)
      else s.attributes addr := by
  obtain ⟨n, hn⟩ := h.area i
  have hc' : (s'.area i).contains addr = true := by
    rw [hn]
    exact hc
  rw [(h.layout hl).attributes_eq hi hc', hl.attributes_eq hi hc, hn]
  by_cases hd : i ∈ done
  · simp only [hd, if_true, Option.map_some, VMArea.attributes, Attributes.update,
      VMArea.pageBytes, hpage]
  · simp only [hd, if_false]
    rfl

theorem Applied.aligned (ha : s.Aligned ids) : s'.Aligned ids := by
  intro i hi
  obtain ⟨n, hn⟩ := h.area i
  have hbytes : (s'.area i).pageBytes = (s.area i).pageBytes := by
    rw [hn, VMArea.pageBytes, VMArea.pageBytes]
    dsimp only
    split
    · rw [hpage]
    · rfl
  rw [hbytes, (h.bounds i).1, (h.bounds i).2.1]
  exact ha i hi

omit h hpage

/-- What an operation on a range leaves. -/
structure RangeOutcome (upd : VMAFlags → VMAFlags) (s : AddressSpace) (start stop : Nat)
    (r : Except Error Unit) (m' : Memory) (s' : AddressSpace) : Prop where
  outside : ∀ x, x < start ∨ stop ≤ x → s'.attributes x = s.attributes x
  inside : ∀ x, start ≤ x → x < stop →
    s'.attributes x = s.attributes x ∨ s'.attributes x =
      (s.attributes x).map (Attributes.update upd)
  success : r = .ok () → m'.fault = none → ∀ x, start ≤ x → x < stop →
    s'.attributes x = (s.attributes x).map (Attributes.update upd)

theorem RangeOutcome.of_same (h : SameContents s s') {e : Error} :
    RangeOutcome upd s start stop (.error e) m' s' :=
  ⟨fun x _ => h x, fun x _ _ => .inl (h x), nofun⟩

/-- A sweep over an isolated range, followed by a merge. -/
theorem RangeOutcome.of_sweep {m₂ : Memory} {s₁ s₂ : AddressSpace} {a done rest ids' : List Nat}
    {r : Except Error Unit} (hpage : ∀ f, (upd f).pageSize = f.pageSize) (hsame : SameContents s s₁)
    (ha : s₁.Aligned (a ++ (done ++ rest))) (hl : Layout s₁ (a ++ (done ++ rest)))
    (hbefore : ∀ i ∈ a, (s₁.area i).stop ≤ start)
    (hfrom : ∀ i ∈ done ++ rest, start ≤ (s₁.area i).start)
    (hiso : s₁.Isolated (a ++ (done ++ rest)) start stop) (happ : Applied upd s₁ s₂ done)
    (hdone : ∀ i ∈ done, (s₁.area i).start < stop)
    (hrest : r = .ok () → m₂.fault = none → ∀ i, rest.head? = some i → stop ≤ (s₁.area i).start)
    (hrecut : Recut E m₂ s₂ (a ++ (done ++ rest)) H D m' s' ids') :
    RangeOutcome upd s start stop r m' s' ∧ s'.Aligned ids' := by
  obtain ⟨hsame', haligned'⟩ := hrecut.contents (happ.aligned hpage ha)
  -- the new flags are in the range
  have hin : ∀ i ∈ done, start ≤ (s₁.area i).start ∧ (s₁.area i).stop ≤ stop := by
    intro i hi
    have hmem : i ∈ done ++ rest := List.mem_append_left rest hi
    have hproper := hl.proper i (List.mem_append_right a hmem)
    have hge := hfrom i hmem
    have hlt := hdone i hi
    have hcases := hiso i (List.mem_append_right a hmem)
    omega
  have hattr : ∀ x, (∃ i ∈ a ++ (done ++ rest), (s₁.area i).contains x = true ∧ s'.attributes x =
      if i ∈ done then (s.attributes x).map (Attributes.update upd) else s.attributes x) ∨
      (s'.attributes x = none ∧ s.attributes x = none) := by
    intro x
    by_cases hx : ∃ i ∈ a ++ (done ++ rest), (s₁.area i).contains x = true
    · obtain ⟨i, hi, hc⟩ := hx
      refine .inl ⟨i, hi, hc, ?_⟩
      rw [hsame' x, happ.attributes hpage hl hi hc, hsame x]
    · have hnone : ∀ i ∈ a ++ (done ++ rest), (s₁.area i).contains x = false := fun i hi =>
        Bool.eq_false_iff.2 fun hc => hx ⟨i, hi, hc⟩
      refine .inr ⟨?_, ?_⟩
      · rw [hsame' x]
        refine (happ.layout hl).attributes_none fun i hi => ?_
        obtain ⟨n, hn⟩ := happ.area i
        rw [hn]
        exact hnone i hi
      · rw [← hsame x]
        exact hl.attributes_none hnone
  refine ⟨⟨fun x hx => ?_, fun x hge hlt => ?_, fun hok hfault x hge hlt => ?_⟩, haligned'⟩
  · rcases hattr x with ⟨i, -, hc, heq⟩ | ⟨heq, heq'⟩
    · rw [contains_iff] at hc
      rw [heq, if_neg fun hi => by have := hin i hi; omega]
    · rw [heq, heq']
  · rcases hattr x with ⟨i, -, -, heq⟩ | ⟨heq, heq'⟩
    · rw [heq]
      split
      · exact .inr rfl
      · exact .inl rfl
    · exact .inl (heq.trans heq'.symm)
  · rcases hattr x with ⟨i, hi, hc, heq⟩ | ⟨heq, heq'⟩
    · rw [contains_iff] at hc
      rw [heq, if_pos]
      rcases List.mem_append.1 hi with hi | hi
      · have := hbefore i hi
        omega
      rcases List.mem_append.1 hi with hi | hi
      · exact hi
      · -- the rest lies behind the range
        exfalso
        cases rest with
        | nil => exact List.not_mem_nil hi
        | cons j rest =>
          have hj := hrest hok (hrecut.fault hfault) j rfl
          rcases List.mem_cons.1 hi with rfl | hi
          · omega
          · have hl' : Layout s₁ ((a ++ done) ++ j :: rest) := by
              rw [List.append_assoc]
              exact hl
            have hafter := hl'.after hi
            have hproper := hl'.proper j (by simp)
            omega
    · rw [heq, heq', Option.map_none]

/-- **The three operations** keep the accounts, and where the range does not wrap, they change its
attributes only. -/
theorem RangeCall.exec_ok (h : Good E m s ids H D) (hE : E.Endless) (call : RangeCall)
    (hwrap : addr + size < 2 ^ 64 ∨ Fault.nullPointer ∈ E.faults) :
    ∃ r m' s' ids', call.exec m s addr size = (r, m', s') ∧ Good E m' s' ids' H D ∧
    s'.root = s.root ∧ (addr + size < 2 ^ 64 → s.Aligned ids →
        RangeOutcome call.update s addr (addr + size) r m' s' ∧ s'.Aligned ids') := by
  have hfail : ∀ e, (addr + size < 2 ^ 64 → s.Aligned ids →
      RangeOutcome call.update s addr (addr + size) (.error e) m s ∧ s.Aligned ids) :=
    fun e _ ha => ⟨RangeOutcome.of_same (SameContents.refl s), ha⟩
  rw [RangeCall.exec_eq, onRange]
  split
  · exact ⟨_, m, s, ids, rfl, h, rfl, hfail _⟩
  split
  · rename_i hzero
    refine ⟨_, m, s, ids, rfl, h, rfl, fun _ ha =>
      ⟨⟨fun _ _ => rfl, fun _ _ _ => .inl rfl, fun _ _ x hge hlt => ?_⟩, ha⟩⟩
    omega
  rename_i hsize
  have hmod : add64 addr size < 2 ^ 64 := Nat.mod_lt _ (by decide)
  have hstop : addr + size < 2 ^ 64 → add64 addr size = addr + size := Nat.mod_eq_of_lt
  obtain ⟨r, m₁, s₁, ids₁, heq, hout⟩ := isolateRange_ok h addr hmod (hwrap.imp_left fun hw => by
    rw [hstop hw]
    omega)
  dsimp only
  rw [heq]
  cases r with
  | error e =>
    refine ⟨_, m₁, s₁, ids₁, rfl, hout.good, hout.root, fun hw ha => ?_⟩
    rw [hstop hw] at hout
    obtain ⟨hsame, ha'⟩ := hout.contents (by omega) ha
    exact ⟨RangeOutcome.of_same hsame, ha'⟩
  | ok first =>
    obtain ⟨a, b, rfl⟩ := List.append_of_mem (hout.mem first rfl)
    have hnodup : (first :: b).Nodup :=
      (List.nodup_append.1 (List.nodup_append.1 hout.good.nodup).1).2.1
    obtain ⟨r, last, m₂, s₂, done, rest, hsweep, hsplit, happ, hgood₂, hlast, hdone, hrest⟩ :=
      sweepAreas_ok (call.step_sets hE) (add64 addr size) none hout.good
        (fun i hi => List.mem_append_right a hi) hnodup
    obtain ⟨m', s', ids', hmerge, hrecut⟩ := coalesceRange_ok hgood₂ (fun l (hl : last = some l) =>
      (hlast l hl).elim (fun hmem => List.mem_append_right a hmem) nofun) addr
    dsimp only
    rw [hout.good.layout.following_eq, hsweep]
    dsimp only
    rw [hmerge]
    refine ⟨r, m', s', ids', rfl, hrecut.good, hrecut.root.trans (happ.root.trans hout.root),
      fun hw ha => ?_⟩
    rw [hstop hw] at hout hdone hrest
    obtain ⟨hsame, ha₁⟩ := hout.contents (by omega) ha
    obtain ⟨hstart, hiso, -⟩ := hout.isolated first rfl (by omega)
    have hl := hout.good.layout
    have hfrom : ∀ i ∈ first :: b, addr ≤ (s₁.area i).start := by
      intro i hi
      rcases List.mem_cons.1 hi with rfl | hi
      · exact le_of_eq hstart.symm
      · have hproper := hl.proper first (by simp)
        have hafter := hl.after hi
        omega
    rw [hsplit] at ha₁ hl hiso hrecut hfrom
    exact RangeOutcome.of_sweep call.update_pageSize hsame ha₁ hl
      (fun i hi => hstart ▸ hout.good.layout.before hi) hfrom hiso happ hdone hrest hrecut

end Calls

/-! ## Ranges that are not covered -/

/-- No null pointer is followed, and a range that is not covered is refused with everything as it
was. -/
def RangeCall.Safe (call : RangeCall) (m : Memory) (s : AddressSpace) (addr size : Nat) : Prop :=
  ∃ r m' s', call.exec m s addr size = (r, m', s') ∧ m'.fault ≠ some .nullPointer ∧
    (¬ s.Covered s.areas addr (addr + size) → (∃ e, r = .error e) ∧ s' = s ∧ m'.tables = m.tables)

section Uncovered

variable {m : Memory} {s : AddressSpace} {ids D : List Nat} {H : Multiset Nat}
  {addr size start stop first : Nat}

theorem isolateRange_uncovered (hl : Layout s ids) (hlt : start < stop)
    (hun : ¬ s.Covered ids start stop)
    (m : Memory) : ∃ e, isolateRange m s start stop = (.error e, m, s) := by
  unfold isolateRange
  cases hfind : s.findVma start with
  | none => exact ⟨_, rfl⟩
  | some first =>
    obtain ⟨a, b, rfl⟩ := List.append_of_mem (hl.findVma_mem hfind).1
    dsimp only
    rw [hl.following_eq]
    cases hcheck : s.checkCovered stop (first :: b) start with
    | error e => exact ⟨e, rfl⟩
    | ok u =>
      refine absurd (fun addr hle hlt' => ?_) hun
      obtain ⟨i, hi, hc⟩ := (checkCovered_spec hcheck hlt).1 addr hle hlt'
      exact ⟨i, List.mem_append_right a hi, hc⟩

/-- No range up to the end of the address space is covered. -/
theorem Layout.not_covered (hl : Layout s ids) (haddr : addr < 2 ^ 64)
    (hwrap : 2 ^ 64 ≤ addr + size) : ¬ s.Covered ids addr (addr + size) := by
  intro hcov
  obtain ⟨i, hi, hc⟩ := hcov (2 ^ 64 - 1) (by omega) (by omega)
  have hproper := hl.proper i hi
  rw [contains_iff] at hc
  omega

/-- A split with all the memory it needs. -/
theorem splitVma_granted {rest : List Bool} (hg : m.grants = true :: true :: rest)
    (s : AddressSpace) (i point : Nat) :
    ∃ upper m' s', splitVma m s i point = (.ok upper, m', s') ∧
    (m'.grants = m.grants ∨ m'.grants = rest) := by
  have hkeep : ∀ (m : Memory) o, (addRef? m o).grants = m.grants := by
    intro m o
    cases o with
    | none => rfl
    | some o =>
      rw [addRef?, Option.elim_some, Memory.addRef]
      split <;> rfl
  by_cases hin : point ≤ (s.area i).start ∨ (s.area i).stop ≤ point
  · rw [splitVma, if_pos hin]
    exact ⟨_, _, _, rfl, .inl rfl⟩
  · rw [splitVma, if_neg hin]
    simp only [Memory.allocateVma, Memory.grant, hg]
    exact ⟨_, _, _, rfl, .inr (hkeep _ _)⟩

theorem isolateEnd_granted {rest : List Bool} (hg : m.grants = true :: true :: rest)
    (s : AddressSpace)
    (first stop : Nat) : ∃ m' s', isolateEnd m s first stop = (.ok first, m', s') := by
  unfold isolateEnd
  split
  · exact ⟨_, _, rfl⟩
  rename_i last _
  split
  · obtain ⟨upper, m', s', heq, -⟩ := splitVma_granted hg s last stop
    rw [heq]
    exact ⟨_, _, rfl⟩
  · exact ⟨_, _, rfl⟩

/-- A range that wraps passes the check as soon as it begins in an area. -/
theorem isolateRange_wrapped (hl : Layout s ids) (hfind : s.findVma start = some first)
    (hle : stop ≤ start)
    (hg : m.grants = [true, true, true, true]) :
    ∃ f m' s', isolateRange m s start stop = (.ok f, m', s') := by
  obtain ⟨a, b, rfl⟩ := List.append_of_mem (hl.findVma_mem hfind).1
  have hcheck : s.checkCovered stop (first :: b) start = .ok () := by
    rw [checkCovered, if_neg (by omega)]
  rw [isolateRange, hfind]
  dsimp only
  rw [hl.following_eq, hcheck]
  dsimp only
  split
  · obtain ⟨upper, m₁, s₁, heq, hg₁⟩ := splitVma_granted hg s first start
    obtain ⟨rest, hrest⟩ : ∃ rest, m₁.grants = true :: true :: rest := by
      rcases hg₁ with hg₁ | hg₁
      · exact ⟨_, hg₁.trans hg⟩
      · exact ⟨_, hg₁⟩
    obtain ⟨m', s', hend⟩ := isolateEnd_granted hrest s₁ upper stop
    rw [heq]
    exact ⟨_, m', s', hend⟩
  · obtain ⟨m', s', hend⟩ := isolateEnd_granted hg s first stop
    exact ⟨_, m', s', hend⟩

theorem sweepAreas_unlock :
    ∀ (nodes : List Nat) (m : Memory) (s : AddressSpace) (last : Option Nat),
    (sweepAreas unlockArea stop nodes m s last).1 = .ok ()
  | [], _, _, _ => rfl
  | vma :: rest, m, s, last => by
    rw [sweepAreas]
    split
    · exact sweepAreas_unlock rest m _ _
    · rfl

/-- `unlock_memory` of such a range answers with success. -/
theorem unlockMemory_wrapped (hl : Layout s ids) (hfind : s.findVma addr = some first)
    (haddr : isAligned addr pageSize = true) (hsize : isAligned size pageSize = true)
    (hne : size ≠ 0) (hle : add64 addr size ≤ addr) (hg : m.grants = [true, true, true, true]) :
    (unlockMemory m s addr size).1 = .ok () := by
  obtain ⟨f, m', s', heq⟩ := isolateRange_wrapped hl hfind hle hg
  rw [unlockMemory, onRange, haddr, hsize]
  simp only [Bool.not_true, Bool.or_self, Bool.false_eq_true, if_false, hne, heq]
  exact sweepAreas_unlock ..

/-- What `isolate_range` refuses is refused. -/
theorem RangeCall.exec_refused (call : RangeCall) {e : Error} (hne : size ≠ 0)
    (heq : isolateRange m s addr (add64 addr size) = (.error e, m, s)) :
    ∃ e, call.exec m s addr size = (.error e, m, s) := by
  rw [RangeCall.exec_eq, onRange]
  simp only [hne, if_false, heq]
  split
  · exact ⟨_, rfl⟩
  · exact ⟨e, rfl⟩

/-- **The three operations are safe, whatever the allocators answer, exactly if the range stays
below the end of the address space or does not begin in an area.** -/
theorem rangeCalls_safe_iff (h : Good ⟨∅, ∅⟩ m s ids H D) (haddr : addr % pageSize = 0)
    (hsize : size % pageSize = 0) (haddr64 : addr < 2 ^ 64) (hsize64 : size < 2 ^ 64) :
    (∀ (call : RangeCall) (grants : List Bool), call.Safe { m with grants := grants } s addr size) ↔
      addr + size < 2 ^ 64 ∨ s.findVma addr = none := by
  have hareas := h.layout.areas_eq
  constructor
  · intro hsafe
    by_contra hno
    rw [not_or] at hno
    obtain ⟨first, hfind⟩ := Option.ne_none_iff_exists'.1 hno.2
    obtain ⟨r, m', s', heq, -, hun⟩ := hsafe .unlockMemory [true, true, true, true]
    rw [hareas] at hun
    obtain ⟨⟨e, he⟩, -⟩ := hun (h.layout.not_covered haddr64 (by omega))
    have hle : add64 addr size ≤ addr := by
      rw [add64]
      omega
    have hok :=
      unlockMemory_wrapped (m := { m with grants := [true, true, true, true] }) h.layout hfind
      (decide_eq_true haddr) (decide_eq_true hsize) (by omega) hle rfl
    rw [RangeCall.exec] at heq
    rw [heq] at hok
    exact absurd (hok.symm.trans he) (by simp)
  · intro hcond call grants
    have hgood : Good ⟨{.endlessLoop}, ∅⟩ { m with grants := grants } s ids H D := by
      refine h.memory ?_ rfl rfl
      exact ⟨h.sound.counted, h.sound.frames, fun f hf =>
        absurd (h.sound.fault f hf) (Set.notMem_empty f), h.sound.gone⟩
    have hfault : m.fault ≠ some .nullPointer := fun hf => h.sound.fault _ hf
    rcases hcond with hw | hnone
    · obtain ⟨r, m', s', ids', heq, hgood', -⟩ := RangeCall.exec_ok hgood rfl call (.inl hw)
      refine ⟨r, m', s', heq, fun hf => absurd (hgood'.sound.fault _ hf) (by decide), fun hun => ?_⟩
      rw [hareas] at hun
      have hne : size ≠ 0 := by
        rintro rfl
        exact hun fun x hle hlt => by omega
      have hstop : add64 addr size = addr + size := Nat.mod_eq_of_lt hw
      obtain ⟨e, hiso⟩ := isolateRange_uncovered h.layout (by omega) hun { m with grants := grants }
      rw [← hstop] at hiso
      obtain ⟨e', hrefused⟩ := call.exec_refused hne hiso
      rw [heq] at hrefused
      cases hrefused
      exact ⟨⟨e', rfl⟩, rfl, rfl⟩
    · rcases Nat.eq_zero_or_pos size with rfl | hpos
      · refine ⟨.ok (), { m with grants := grants }, s, ?_, hfault,
          fun hun => absurd (fun x hle hlt => by omega) hun⟩
        rw [RangeCall.exec_eq, onRange]
        simp [isAligned, haddr]
      · have hiso : isolateRange { m with grants := grants } s addr (add64 addr size) =
            (.error .notMapped, { m with grants := grants }, s) := by
          rw [isolateRange, hnone]
        obtain ⟨e', hrefused⟩ := call.exec_refused (Nat.pos_iff_ne_zero.1 hpos) hiso
        exact ⟨_, _, _, hrefused, hfault, fun _ => ⟨⟨e', rfl⟩, rfl, rfl⟩⟩

/-- A space with one wired page at `0x1000`. -/
def onePage : AddressSpace where
  area _ :=
    ⟨0x1000, 0x2000, none, 0,
      ⟨0, .writeBack, .size4K, .anonymous, .firstTouch, false, true, 0⟩, 0, 0⟩
  links := ⟨fun _ => none, fun _ => none⟩
  ends := ⟨some 0, some 0⟩
  tree := [(0x1000, 0)]
  root := 1
  heapRegion := ⟨0, 0, 0⟩
  mmapRegion := ⟨0, 0, 0⟩

def onePageMemory : Memory where
  tables := { feat := ⟨true, true, 4⟩, root := 1 }
  areas := [0]
  nextArea := 1

theorem onePage_good : Good ⟨∅, ∅⟩ onePageMemory onePage [0] 0 [] where
  layout :=
    { dlist := ⟨rfl, rfl, ⟨rfl, rfl, trivial⟩, by decide⟩
      tree := rfl
      ordered := List.pairwise_singleton ..
      proper := fun i _ => ⟨show 0x1000 < 0x2000 by decide, show 0x2000 < 2 ^ 64 by decide⟩ }
  sound :=
    { counted := ⟨nofun, fun h => absurd h (Nat.lt_irrefl 0), nofun, nofun⟩
      frames := rfl
      fault := nofun
      gone := fun o h => absurd h (Set.notMem_empty o) }
  areas := .refl _
  nodup := by decide
  fresh := by decide

theorem rangeCalls_safe_iff_onePage :
    RangeCall.lockMemory.Safe onePageMemory onePage 0x2000 0x1000 :=
  (rangeCalls_safe_iff onePage_good (show 0x2000 % pageSize = 0 by decide)
    (show 0x1000 % pageSize = 0 by decide)
      (by decide) (by decide)).2 (.inl (by decide)) .lockMemory []

/-- A range from the page to the very end of the address space: its end is 0, and the area that
holds the address before it does not exist. -/
theorem protect_follows_null :
    (protect onePageMemory onePage 0x1000 (2 ^ 64 - 0x1000) .write).2.1.fault = some .nullPointer ∧
      (lockMemory onePageMemory onePage 0x1000 (2 ^ 64 - 0x1000)).2.1.fault = some .nullPointer ∧
      (unlockMemory onePageMemory onePage 0x1000 (2 ^ 64 - 0x1000)).2.1.fault =
        some .nullPointer := by
  decide

end Uncovered

end Erebus.Vmm.AddressSpace
