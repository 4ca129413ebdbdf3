import Erebus.Utils.AvlTree

/-!
# Earliest Eligible Virtual Deadline First

The fair queue of one CPU. Queued entities sit in a tree sorted by deadline, of which every node
knows the lowest virtual runtime below it; the running one is outside. Totals over all of them are
kept up to date step by step.

* `enqueue`, `dequeue`, `setCurrent`, `requeueCurrent`, `retireCurrent`, `charge`, `yieldCurrent`,
  `pick`: the operations; `none` is a failed assertion.
* `Inv`: the tree is sorted, balanced and up to date, and the totals are the sums over the members.
* `search_spec`: the walk of `pick` finds the first eligible entity in the order of deadlines.
* `exists_le_average`: somebody is not past the average.
* `enqueue_lag`: who leaves and joins again is owed what it was owed before.
* `Reachable`, `reachable_pick`: what `pick` answers in every reachable state.

Sums and counters are natural numbers: with fewer than 2^32 members none of them wraps
(`Inv.no_wrap`).
-/

namespace Erebus.Sched

/-- `MAX_LAG_SLICES`. -/
def maxLagSlices : Nat := 2

/-- `RATE_SHIFT`. -/
def rateShift : Nat := 32

/-- `NICE_0_WEIGHT`. -/
def nice0Weight : Nat := 1024

theorem nice0Weight_pos : 0 < nice0Weight := by decide

/-- `Entity`; the node's links and its `m_subtree_min_vruntime` are in the tree. -/
structure Entity where
  id : Nat
  weight : Nat
  weight_pos : 0 < weight
  rate : Nat
  sliceNs : Nat
  vruntime : Nat
  vdeadline : Nat
  vlag : Int

namespace Entity

/-- `Entity::to_virtual`. -/
def toVirtual (e : Entity) (ns : Nat) : Nat := ((ns * e.rate) >>> rateShift) % 2 ^ 64

/-- `Entity::set_weight`: a weight of 0 counts as 1. -/
def setWeight (e : Entity) (weight : Nat) : Entity :=
  { e with
    weight := if weight ≠ 0 then weight else 1
    weight_pos := by split <;> omega
    rate := nice0Weight <<< rateShift / (if weight ≠ 0 then weight else 1) }

end Entity

/-- A 64-bit pattern read as a signed number. -/
def toSigned (n : Nat) : Int := (n : Int).bmod (2 ^ 64)

/-- `std::clamp`. -/
def clamp (x low high : Int) : Int := if x < low then low else if high < x then high else x

/-- `EevdfQueue::TreeTraits`. -/
def treeTraits : AvlTraits Entity Nat where
  less a b := a.vdeadline < b.vdeadline
  update e left right :=
    let lowest := e.vruntime
    let lowest := left.elim lowest (min lowest)
    right.elim lowest (min lowest)

structure EevdfQueue where
  tree : AvlTree Entity Nat := .nil
  current : Option Entity := none
  weightedVruntime : Nat := 0
  totalWeight : Nat := 0
  queued : Nat := 0
  lastVirtualTime : Nat := 0

namespace EevdfQueue

/-! ## Operations -/

/-- `EevdfQueue::virtual_time`. -/
def virtualTime (q : EevdfQueue) : Nat :=
  if q.totalWeight = 0 then q.lastVirtualTime else q.weightedVruntime / q.totalWeight % 2 ^ 64

/-- `EevdfQueue::is_eligible_at`. -/
def isEligibleAt (q : EevdfQueue) (vruntime : Nat) : Bool :=
  q.totalWeight * vruntime ≤ q.weightedVruntime

/-- `EevdfQueue::is_eligible`. -/
def isEligible (q : EevdfQueue) (e : Entity) : Bool := q.isEligibleAt e.vruntime

/-- `EevdfQueue::account_join`. -/
def accountJoin (q : EevdfQueue) (e : Entity) : EevdfQueue :=
  { q with
    weightedVruntime := q.weightedVruntime + e.weight * e.vruntime
    totalWeight := q.totalWeight + e.weight }

/-- `EevdfQueue::account_leave`. -/
def accountLeave (q : EevdfQueue) (e : Entity) : EevdfQueue × Entity :=
  let now := q.virtualTime
  let limit := toSigned (e.toVirtual (maxLagSlices * e.sliceNs % 2 ^ 64))
  let lag := (toSigned now - toSigned e.vruntime).bmod (2 ^ 64)
  ({ q with
      weightedVruntime := q.weightedVruntime - e.weight * e.vruntime
      totalWeight := q.totalWeight - e.weight
      lastVirtualTime := now },
    { e with vlag := clamp lag (-limit) limit })

/-- Whether the entity waits in the tree of this queue. -/
def isQueued (q : EevdfQueue) (id : Nat) : Bool := q.tree.toList.any (·.id == id)

/-- Where `enqueue` places an entity, and what its first deadline is. -/
def place (q : EevdfQueue) (e : Entity) : Entity :=
  let now := q.virtualTime
  let magnitude := e.vlag.natAbs % 2 ^ 64
  let lag :=
    if q.totalWeight = 0 then magnitude
    else magnitude * (q.totalWeight + e.weight) / q.totalWeight % 2 ^ 64
  let vruntime := if e.vlag < 0 then (now + lag) % 2 ^ 64 else now - min now lag
  { e with vruntime := vruntime, vdeadline := (vruntime + e.toVirtual e.sliceNs) % 2 ^ 64 }

/-- `EevdfQueue::enqueue`. -/
def enqueue (q : EevdfQueue) (e : Entity) : Option EevdfQueue :=
  if q.isQueued e.id || q.current.any (·.id == e.id) then
    none
  else
    let e := q.place e
    let q := q.accountJoin e
    some { q with tree := q.tree.insert treeTraits e, queued := q.queued + 1 }

/-- Takes a waiting entity out of the tree. -/
def takeOut (q : EevdfQueue) (id : Nat) : Option (Entity × EevdfQueue) :=
  match q.tree.toList.find? (·.id == id) with
  | none => none
  | some e =>
    some (e, { q with tree := q.tree.erase treeTraits (·.id == id), queued := q.queued - 1 })

/-- `EevdfQueue::dequeue`, with the entity that left. -/
def dequeue (q : EevdfQueue) (id : Nat) : Option (EevdfQueue × Entity) :=
  match q.takeOut id with
  | none => none
  | some (e, q) => some (q.accountLeave e)

/-- `EevdfQueue::set_current`. -/
def setCurrent (q : EevdfQueue) (id : Nat) : Option EevdfQueue :=
  match q.current with
  | some _ => none
  | none =>
    match q.takeOut id with
    | none => none
    | some (e, q) => some { q with current := some e }

/-- `EevdfQueue::requeue_current`. -/
def requeueCurrent (q : EevdfQueue) : Option EevdfQueue :=
  match q.current with
  | none => none
  | some e =>
    some { q with tree := q.tree.insert treeTraits e, queued := q.queued + 1, current := none }

/-- `EevdfQueue::retire_current`, with the entity that left. -/
def retireCurrent (q : EevdfQueue) : Option (EevdfQueue × Entity) :=
  match q.current with
  | none => none
  | some e =>
    let (q, e) := q.accountLeave e
    some ({ q with current := none }, e)

/-- `EevdfQueue::charge`. -/
def charge (q : EevdfQueue) (deltaNs : Nat) : Bool × EevdfQueue :=
  match q.current with
  | none => (false, q)
  | some e =>
    let delta := e.toVirtual deltaNs
    let e := { e with vruntime := (e.vruntime + delta) % 2 ^ 64 }
    let q := { q with weightedVruntime := q.weightedVruntime + e.weight * delta }
    if e.vruntime < e.vdeadline then
      (false, { q with current := some e })
    else
      let e := { e with vdeadline := (e.vruntime + e.toVirtual e.sliceNs) % 2 ^ 64 }
      (true, { q with current := some e })

/-- `EevdfQueue::yield_current`. -/
def yieldCurrent (q : EevdfQueue) : EevdfQueue :=
  match q.current with
  | none => q
  | some e =>
    let e := { e with vdeadline := (e.vdeadline + e.toVirtual e.sliceNs) % 2 ^ 64 }
    { q with current := some e }

/-- The walk of `pick` from a node. -/
def search (q : EevdfQueue) : AvlTree Entity Nat → Option Entity
  | .nil => none
  | .node left e _ _ right =>
    if left.data.any q.isEligibleAt then
      search q left
    else if q.isEligible e then
      some e
    else
      search q right

/-- `EevdfQueue::pick`. -/
def pick (q : EevdfQueue) : Option (Option Entity) :=
  let best := q.search q.tree
  match q.current, best with
  | none, some best => some (some best)
  | none, none => if q.tree.toList.isEmpty then some none else none
  | some current, none => some (some current)
  | some current, some best =>
    if q.isEligible current && decide (current.vdeadline ≤ best.vdeadline) then
      some (some current)
    else
      some (some best)

/-- `EevdfQueue::find_latest`. -/
def findLatest (q : EevdfQueue) (pred : Entity → Bool) (budget : Nat) : Option Entity :=
  (q.tree.toList.reverse.take budget).find? pred

/-- `EevdfQueue::preempts_current`. -/
def preemptsCurrent (q : EevdfQueue) (e : Entity) : Bool :=
  q.current.any fun current => q.isEligible e && decide (e.vdeadline < current.vdeadline)

/-! ## The invariant -/

/-- Everybody in the competition. -/
def members (q : EevdfQueue) : List Entity := q.tree.toList ++ q.current.toList

/-- Who waits, in the order of deadlines. -/
def waiting (q : EevdfQueue) : List Nat := q.tree.toList.map Entity.id

end EevdfQueue

def weightSum (l : List Entity) : Nat := (l.map Entity.weight).sum

def vruntimeSum (l : List Entity) : Nat := (l.map fun e => e.weight * e.vruntime).sum

namespace EevdfQueue

/-- The tree of a queue between two operations. -/
structure TreeInv (t : AvlTree Entity Nat) : Prop where
  sorted : AvlTree.Sorted treeTraits t.toList
  balanced : t.Balanced
  updated : t.Updated treeTraits

/-- What holds whatever the numbers are. -/
structure Shape (q : EevdfQueue) : Prop where
  tree : TreeInv q.tree
  distinct : (q.members.map Entity.id).Nodup

structure Inv (q : EevdfQueue) : Prop extends Shape q where
  weight : q.totalWeight = weightSum q.members
  vruntime : q.weightedVruntime = vruntimeSum q.members
  count : q.queued = q.tree.toList.length

end EevdfQueue

section

variable {l l' : List Entity}

@[simp] theorem weightSum_cons (e : Entity) (l : List Entity) :
    weightSum (e :: l) = e.weight + weightSum l :=
  rfl

@[simp] theorem vruntimeSum_cons (e : Entity) (l : List Entity) :
    vruntimeSum (e :: l) = e.weight * e.vruntime + vruntimeSum l := rfl

theorem weightSum_perm (h : l.Perm l') : weightSum l = weightSum l' := (h.map _).sum_eq

theorem vruntimeSum_perm (h : l.Perm l') : vruntimeSum l = vruntimeSum l' := (h.map _).sum_eq

/-- If everybody is past `v`, so is the sum. -/
theorem vruntimeSum_gt {S W : Nat} (h : ∀ e ∈ l, S < W * e.vruntime) (hne : l ≠ []) :
    S * weightSum l < W * vruntimeSum l := by
  induction l with
  | nil => exact absurd rfl hne
  | cons e l ih =>
    have he := Nat.mul_lt_mul_of_pos_right (h e List.mem_cons_self) e.weight_pos
    have hrest : S * weightSum l ≤ W * vruntimeSum l := by
      by_cases hl : l = []
      · subst hl
        exact le_rfl
      · exact (ih (fun e' he' => h e' (List.mem_cons_of_mem _ he')) hl).le
    calc S * weightSum (e :: l) = S * e.weight + S * weightSum l := by
          rw [weightSum_cons, Nat.mul_add]
      _ < W * e.vruntime * e.weight + W * vruntimeSum l := by omega
      _ = W * vruntimeSum (e :: l) := by rw [vruntimeSum_cons]; ring

/-- **The averaging argument**: somebody's virtual runtime is not past the average. -/
theorem exists_le_average (hne : l ≠ []) : ∃ e ∈ l, weightSum l * e.vruntime ≤ vruntimeSum l := by
  by_contra hall
  push Not at hall
  have hlt := vruntimeSum_gt hall hne
  rw [Nat.mul_comm] at hlt
  exact Nat.lt_irrefl _ hlt

end

namespace EevdfQueue

section

theorem less_asymm (x y : Entity) (h : treeTraits.less x y = true) :
    treeTraits.less y x = false := by
  simp only [treeTraits, decide_eq_true_eq, decide_eq_false_iff_not] at *
  omega

theorem less_split (x y z : Entity) (h : treeTraits.less x y = true) :
    treeTraits.less x z = true ∨ treeTraits.less z y = true := by
  simp only [treeTraits, decide_eq_true_eq] at *
  omega

theorem not_less {x y : Entity} : treeTraits.less y x = false ↔ x.vdeadline ≤ y.vdeadline := by
  simp [treeTraits]

end

/-! ## `pick` -/

section

variable {q : EevdfQueue} {t : AvlTree Entity Nat}

/-- The subtree's lowest virtual runtime. -/
def IsLowest (l : List Entity) (m : Nat) : Prop :=
  (∃ e ∈ l, e.vruntime = m) ∧ ∀ e ∈ l, m ≤ e.vruntime

/-- One child taken into account, as `update` does. -/
theorem lowest_child (low : Nat) (h : ∀ m, t.data = some m → IsLowest t.toList m) :
    (t.data.elim low (min low) = low ∨ ∃ e ∈ t.toList, e.vruntime = t.data.elim low (min low)) ∧
      t.data.elim low (min low) ≤ low ∧ ∀ e ∈ t.toList, t.data.elim low (min low) ≤ e.vruntime := by
  cases t with
  | nil => exact ⟨.inl rfl, le_rfl, nofun⟩
  | node l e height data r =>
    obtain ⟨⟨e', he', heq⟩, hle⟩ := h data rfl
    rw [show (AvlTree.node l e height data r).data = some data from rfl, Option.elim_some]
    refine ⟨?_, min_le_left _ _, fun e'' h => (min_le_right _ _).trans (hle e'' h)⟩
    rcases min_choice low data with h | h
    · exact .inl h
    · exact .inr ⟨e', he', heq.trans h.symm⟩

/-- **What a node keeps** is the lowest virtual runtime below it. -/
theorem data_spec {m : Nat} (h : t.Updated treeTraits) (hdata : t.data = some m) :
    IsLowest t.toList m := by
  induction t generalizing m with
  | nil => cases hdata
  | node l e height data r ihl ihr =>
    obtain ⟨rfl, hl, hr⟩ := h
    cases hdata
    obtain ⟨hl₁, hl₂, hl₃⟩ := lowest_child e.vruntime fun m hm => ihl hl hm
    obtain ⟨hr₁, hr₂, hr₃⟩ :=
      lowest_child (l.data.elim e.vruntime (min e.vruntime)) fun m hm => ihr hr hm
    show IsLowest (l.toList ++ e :: r.toList) (r.data.elim _ (min _))
    constructor
    · rcases hr₁ with hr₁ | ⟨e', he', heq⟩
      · rw [hr₁]
        rcases hl₁ with hl₁ | ⟨e', he', heq⟩
        · exact ⟨e, by simp, hl₁.symm⟩
        · exact ⟨e', by simp [he'], heq⟩
      · exact ⟨e', by simp [he'], heq⟩
    · intro e' he'
      rcases List.mem_append.1 he' with he' | he'
      · exact hr₂.trans (hl₃ e' he')
      · rcases List.mem_cons.1 he' with rfl | he'
        · exact hr₂.trans hl₂
        · exact hr₃ e' he'

theorem isEligibleAt_mono {a b : Nat} (hab : a ≤ b) (h : q.isEligibleAt b = true) :
    q.isEligibleAt a = true := by
  simp only [isEligibleAt, decide_eq_true_eq] at *
  exact (Nat.mul_le_mul_left _ hab).trans h

/-- The number a node keeps tells whether anything below it is eligible. -/
theorem data_eligible (h : t.Updated treeTraits) :
    t.data.any q.isEligibleAt = true ↔ ∃ e ∈ t.toList, q.isEligible e = true := by
  cases hdata : t.data with
  | none =>
    cases t with
    | nil => simp
    | node l e height data r => cases hdata
  | some m =>
    obtain ⟨⟨e, he, rfl⟩, hle⟩ := data_spec h hdata
    simp only [Option.any_some]
    exact ⟨fun helig => ⟨e, he, helig⟩, fun ⟨e', he', helig⟩ =>
      isEligibleAt_mono (hle e' he') helig⟩

/-- The walk of `pick` is a search of the list. -/
theorem search_eq (h : t.Updated treeTraits) : q.search t = t.toList.find? q.isEligible := by
  induction t with
  | nil => rfl
  | node l e height data r ihl ihr =>
    obtain ⟨-, hl, hr⟩ := h
    have hany := data_eligible (q := q) hl
    rw [search, ihl hl, ihr hr, AvlTree.toList, List.find?_append, List.find?_cons]
    by_cases hdown : l.data.any q.isEligibleAt = true
    · rw [if_pos hdown]
      obtain ⟨e', he'⟩ := Option.isSome_iff_exists.1 (List.find?_isSome.2 (hany.1 hdown))
      rw [he', Option.some_or]
    · rw [hany] at hdown
      rw [if_neg (mt hany.1 hdown), List.find?_eq_none.2 fun e he helig => hdown ⟨e, he, helig⟩,
        Option.none_or]
      cases q.isEligible e <;> rfl

/-- **The walk of `pick`** finds the first eligible entity in the order of deadlines, if there is
one. -/
theorem search_spec (h : t.Updated treeTraits) (hsorted : AvlTree.Sorted treeTraits t.toList) :
    match q.search t with
    | none => ∀ e ∈ t.toList, q.isEligible e = false
    | some e => e ∈ t.toList ∧ q.isEligible e = true ∧
        ∀ e' ∈ t.toList, q.isEligible e' = true → e.vdeadline ≤ e'.vdeadline := by
  rw [search_eq h]
  cases hfound : t.toList.find? q.isEligible with
  | none => simpa using hfound
  | some e =>
    obtain ⟨helig, before, after, hlist, hbefore⟩ := List.find?_eq_some_iff_append.1 hfound
    rw [AvlTree.Sorted, hlist] at hsorted
    refine ⟨List.mem_of_find?_eq_some hfound, helig, fun e' he' helig' => ?_⟩
    rw [hlist] at he'
    rcases List.mem_append.1 he' with he' | he'
    · simpa [helig'] using hbefore e' he'
    · rcases List.mem_cons.1 he' with rfl | he'
      · exact le_rfl
      · exact not_less.1 ((List.pairwise_cons.1 (List.pairwise_append.1 hsorted).2.1).1 e' he')

end

end EevdfQueue

/-! ## What `pick` is for -/

/-- The weighted average of the virtual runtimes. -/
def average (l : List Entity) : ℚ := vruntimeSum l / weightSum l

/-- The entity has received no more than its share. -/
def Eligible (l : List Entity) (e : Entity) : Prop := (e.vruntime : ℚ) ≤ average l

theorem weightSum_pos {l : List Entity} (hne : l ≠ []) : 0 < weightSum l := by
  cases l with
  | nil => exact absurd rfl hne
  | cons e l =>
    rw [weightSum_cons]
    exact Nat.add_pos_left e.weight_pos _

namespace EevdfQueue

/-- The entity that should run: eligible, with the earliest deadline among the eligible ones, and
the current one if that is as good. -/
structure ShouldRun (q : EevdfQueue) (e : Entity) : Prop where
  member : e ∈ q.members
  eligible : Eligible q.members e
  earliest : ∀ e' ∈ q.members, Eligible q.members e' → e.vdeadline ≤ e'.vdeadline
  tie : ∀ c, q.current = some c → Eligible q.members c → c.vdeadline ≤ e.vdeadline → e = c

section Spec

variable {q : EevdfQueue} {e : Entity}

theorem Inv.isEligible_iff (h : Inv q) (hne : q.members ≠ []) :
    q.isEligible e = true ↔ Eligible q.members e := by
  have hpos : (0 : ℚ) < weightSum q.members := by exact_mod_cast weightSum_pos hne
  rw [Eligible, average, le_div_iff₀ hpos, isEligible, isEligibleAt, decide_eq_true_eq,
    h.weight, h.vruntime, Nat.mul_comm]
  exact_mod_cast Iff.rfl

theorem Inv.exists_eligible (h : Inv q) (hne : q.members ≠ []) :
    ∃ e ∈ q.members, q.isEligible e = true := by
  obtain ⟨e, he, hle⟩ := exists_le_average hne
  refine ⟨e, he, ?_⟩
  rw [isEligible, isEligibleAt, decide_eq_true_eq, h.weight, h.vruntime]
  exact hle

/-- What `pick` answers, whatever the totals are. -/
theorem Shape.pick_cases (h : Shape q) : match q.pick with
    | none => q.members ≠ [] ∧ ∀ e ∈ q.members, q.isEligible e = false
    | some none => q.current = none ∧ q.tree.toList = []
    | some (some e) => e ∈ q.members ∧
        (∀ e' ∈ q.members, q.isEligible e' = true → q.isEligible e = true ∧
          e.vdeadline ≤ e'.vdeadline) ∧
        ∀ c, q.current = some c → q.isEligible c = true → c.vdeadline ≤ e.vdeadline → e = c := by
  have hsearch := search_spec (q := q) h.tree.updated h.tree.sorted
  unfold EevdfQueue.pick members
  cases hcurrent : q.current with
  | none =>
    rw [Option.toList_none, List.append_nil]
    cases hbest : q.search q.tree with
    | none =>
      rw [hbest] at hsearch
      by_cases hempty : q.tree.toList = []
      · simp [hempty]
      · simpa [hempty] using hsearch
    | some best =>
      rw [hbest] at hsearch
      obtain ⟨hmem, helig, hmin⟩ := hsearch
      exact ⟨hmem, fun e' he' helig' => ⟨helig, hmin e' he' helig'⟩, nofun⟩
  | some current =>
    have hcases : ∀ e ∈ q.tree.toList ++ [current], e ∈ q.tree.toList ∨ e = current := by simp
    cases hbest : q.search q.tree with
    | none =>
      rw [hbest] at hsearch
      refine ⟨by simp, fun e' he' helig' => ?_, fun c hc _ _ => Option.some.inj hc⟩
      rcases hcases e' he' with he' | rfl
      · rw [hsearch e' he'] at helig'
        cases helig'
      · exact ⟨helig', le_rfl⟩
    | some best =>
      rw [hbest] at hsearch
      obtain ⟨hmem, helig, hmin⟩ := hsearch
      simp only
      by_cases hties : (q.isEligible current && decide (current.vdeadline ≤ best.vdeadline)) = true
      · rw [if_pos hties]
        simp only [Bool.and_eq_true, decide_eq_true_eq] at hties
        refine ⟨by simp, fun e' he' helig' => ⟨hties.1, ?_⟩, fun c hc _ _ => Option.some.inj hc⟩
        rcases hcases e' he' with he' | rfl
        · exact hties.2.trans (hmin e' he' helig')
        · exact le_rfl
      · rw [if_neg hties]
        simp only [Bool.and_eq_true, decide_eq_true_eq, not_and, not_le] at hties
        refine ⟨by simp [hmem], fun e' he' helig' => ⟨helig, ?_⟩, ?_⟩
        · rcases hcases e' he' with he' | rfl
          · exact hmin e' he' helig'
          · exact (hties helig').le
        · rintro c ⟨⟩ helig' hle
          exact absurd (hties helig') (not_lt.2 hle)

/-- **`pick`.** -/
theorem Inv.pick (h : Inv q) :
    ∃ r, q.pick = some r ∧ (r = none → q.members = []) ∧ ∀ e, r = some e → ShouldRun q e := by
  have hcases := h.toShape.pick_cases
  cases hpick : q.pick with
  | none =>
    rw [hpick] at hcases
    obtain ⟨e, he, helig⟩ := h.exists_eligible hcases.1
    rw [hcases.2 e he] at helig
    cases helig
  | some r =>
    rw [hpick] at hcases
    cases r with
    | none => exact ⟨none, rfl, fun _ => by rw [members, hcases.1, hcases.2]; rfl, nofun⟩
    | some e =>
      obtain ⟨hmem, hbest, htie⟩ := hcases
      have hiff (e' : Entity) := h.isEligible_iff (e := e') (List.ne_nil_of_mem hmem)
      -- somebody is eligible, so this one is
      obtain ⟨e₀, he₀, helig₀⟩ := h.exists_eligible (List.ne_nil_of_mem hmem)
      refine ⟨some e, rfl, nofun, ?_⟩
      rintro _ ⟨⟩
      exact ⟨hmem, (hiff e).1 (hbest e₀ he₀ helig₀).1, fun e' he' helig' =>
        (hbest e' he' ((hiff e').2 helig')).2, fun c hc helig' => htie c hc ((hiff c).2 helig')⟩

/-- **`preempts_current`**: a waiting entity it answers for is reason enough to pick another than
the current one. -/
theorem Shape.preemptsCurrent (h : Shape q) (he : e ∈ q.members)
    (hpreempts : q.preemptsCurrent e = true) :
    ∃ best ∈ q.tree.toList, q.pick = some (some best) ∧ q.current ≠ some best := by
  have hcases := h.pick_cases
  obtain ⟨current, hcurrent, hpreempts⟩ := Option.any_eq_true _ _ |>.1 hpreempts
  rw [Bool.and_eq_true, decide_eq_true_eq] at hpreempts
  cases hpick : q.pick with
  | none =>
    rw [hpick] at hcases
    rw [hcases.2 e he] at hpreempts
    cases hpreempts.1
  | some r =>
    rw [hpick] at hcases
    cases r with
    | none =>
      rw [hcurrent] at hcases
      cases hcases.1
    | some best =>
      obtain ⟨hmem, hbest, -⟩ := hcases
      have hlt := (hbest e he hpreempts.1).2.trans_lt hpreempts.2
      have hne : q.current ≠ some best := by
        rw [hcurrent]
        rintro ⟨⟩
        exact Nat.lt_irrefl _ hlt
      exact ⟨best, (List.mem_append.1 hmem).resolve_right fun hmem =>
        hne (Option.mem_toList.1 hmem), rfl, hne⟩

end Spec

/-! ## The operations keep the invariant -/

section

variable {q q' : EevdfQueue} {e c : Entity} {t : AvlTree Entity Nat} {p : Entity → Bool} {id : Nat}
variable {gone : Entity}

theorem insert_perm (h : TreeInv t) (e : Entity) :
    (t.insert treeTraits e).toList.Perm (e :: t.toList) := by
  obtain ⟨a, b, heq, hins, -, -⟩ := AvlTree.insert_toList treeTraits less_split e h.sorted
  rw [hins, heq]
  exact List.perm_middle

theorem TreeInv.insert (h : TreeInv t) (e : Entity) : TreeInv (t.insert treeTraits e) :=
  ⟨AvlTree.insert_sorted treeTraits less_asymm less_split e h.sorted, (h.balanced.insert e).1,
    h.updated.insert e⟩

theorem TreeInv.erase (h : TreeInv t) (hany : t.toList.any p = true) :
    TreeInv (t.erase treeTraits p) ∧ ∃ e, p e = true ∧
    t.toList.Perm (e :: (t.erase treeTraits p).toList) := by
  obtain ⟨a, e, b, heq, hp, herase⟩ := AvlTree.erase_toList treeTraits hany
  have hsorted : AvlTree.Sorted treeTraits (t.erase treeTraits p).toList := by
    rw [herase]
    refine h.sorted.sublist ?_
    rw [heq]
    exact (List.Sublist.refl a).append (List.sublist_cons_self e b)
  refine ⟨⟨hsorted, (h.balanced.erase p).1, h.updated.erase p⟩, e, hp, ?_⟩
  rw [heq, herase]
  exact List.perm_middle

/-- The queue's members after an entity came to the tree. -/
theorem members_insert (h : q'.tree.toList.Perm (e :: q.tree.toList))
    (hcurrent : q'.current = q.current) : q'.members.Perm (e :: q.members) := by
  rw [members, members, hcurrent, ← List.cons_append]
  exact h.append_right _

theorem members_current (h : q.current = some e) : q.members.Perm (e :: q.tree.toList) := by
  rw [members, h]
  exact List.perm_append_singleton e _

theorem members_idle (h : q.current = none) : q.members = q.tree.toList := by
  rw [members, h, Option.toList_none, List.append_nil]

/-! How the sums and the distinctness follow a change of the members. -/

theorem Shape.of_perm (h : Shape q) (htree : TreeInv q'.tree)
    (hperm : q'.members.Perm q.members) : Shape q' :=
  ⟨htree, (hperm.map Entity.id).nodup_iff.2 h.distinct⟩

theorem Shape.join (h : Shape q) (htree : TreeInv q'.tree)
    (hperm : q'.members.Perm (e :: q.members))
    (hfresh : ∀ e' ∈ q.members, e'.id ≠ e.id) : Shape q' := by
  refine ⟨htree, ?_⟩
  rw [(hperm.map Entity.id).nodup_iff, List.map_cons, List.nodup_cons]
  refine ⟨fun hmem => ?_, h.distinct⟩
  obtain ⟨e', he', heq⟩ := List.mem_map.1 hmem
  exact hfresh e' he' heq

theorem Shape.leave (h : Shape q) (htree : TreeInv q'.tree)
    (hperm : q.members.Perm (e :: q'.members)) : Shape q' := by
  have hdistinct := (hperm.map Entity.id).nodup_iff.1 h.distinct
  rw [List.map_cons, List.nodup_cons] at hdistinct
  exact ⟨htree, hdistinct.2⟩

/-- The running entity changes, its identity staying. -/
theorem Shape.replace (h : Shape q) (hcurrent : q.current = some c)
    (hcurrent' : q'.current = some e)
    (hid : e.id = c.id) (htree : q'.tree = q.tree) : Shape q' := by
  refine ⟨htree ▸ h.tree, ?_⟩
  have hdistinct := ((members_current hcurrent).map Entity.id).nodup_iff.1 h.distinct
  rw [((members_current hcurrent').map Entity.id).nodup_iff, List.map_cons, htree, hid]
  rwa [List.map_cons] at hdistinct

theorem Inv.of_perm (h : Inv q) (hshape : Shape q') (hperm : q'.members.Perm q.members)
    (hweight : q'.totalWeight = q.totalWeight)
    (hvruntime : q'.weightedVruntime = q.weightedVruntime)
    (hcount : q'.queued = q'.tree.toList.length) : Inv q' where
  toShape := hshape
  weight := by rw [hweight, h.weight, weightSum_perm hperm]
  vruntime := by rw [hvruntime, h.vruntime, vruntimeSum_perm hperm]
  count := hcount

theorem Inv.join (h : Inv q) (hshape : Shape q') (hperm : q'.members.Perm (e :: q.members))
    (hweight : q'.totalWeight = q.totalWeight + e.weight)
    (hvruntime : q'.weightedVruntime = q.weightedVruntime + e.weight * e.vruntime)
    (hcount : q'.queued = q'.tree.toList.length) : Inv q' where
  toShape := hshape
  weight := by rw [hweight, h.weight, weightSum_perm hperm, weightSum_cons, Nat.add_comm]
  vruntime := by rw [hvruntime, h.vruntime, vruntimeSum_perm hperm, vruntimeSum_cons, Nat.add_comm]
  count := hcount

theorem Inv.leave (h : Inv q) (hshape : Shape q') (hperm : q.members.Perm (e :: q'.members))
    (hweight : q'.totalWeight = q.totalWeight - e.weight)
    (hvruntime : q'.weightedVruntime = q.weightedVruntime - e.weight * e.vruntime)
    (hcount : q'.queued = q'.tree.toList.length) : Inv q' where
  toShape := hshape
  weight := by rw [hweight, h.weight, weightSum_perm hperm, weightSum_cons, Nat.add_sub_cancel_left]
  vruntime := by
    rw [hvruntime, h.vruntime, vruntimeSum_perm hperm, vruntimeSum_cons, Nat.add_sub_cancel_left]
  count := hcount

theorem Inv.replace (h : Inv q) (hcurrent : q.current = some c) (hcurrent' : q'.current = some e)
    (hid : e.id = c.id) (hw : e.weight = c.weight) (htree : q'.tree = q.tree)
    (hqueued : q'.queued = q.queued) (hweight : q'.totalWeight = q.totalWeight)
    (hvruntime : q'.weightedVruntime + e.weight * c.vruntime = q.weightedVruntime +
    e.weight * e.vruntime) : Inv q' := by
  have hmembers := members_current hcurrent
  have hmembers' := members_current hcurrent'
  refine ⟨h.toShape.replace hcurrent hcurrent' hid htree, ?_, ?_, by rw [hqueued, htree, h.count]⟩
  · rw [hweight, h.weight, weightSum_perm hmembers, weightSum_perm hmembers', weightSum_cons,
      weightSum_cons, hw, htree]
  · rw [h.vruntime, vruntimeSum_perm hmembers, vruntimeSum_cons] at hvruntime
    rw [vruntimeSum_perm hmembers', vruntimeSum_cons, htree]
    rw [hw] at hvruntime ⊢
    omega

/-! What each operation does to the members. -/

/-- **One waiting entity is taken out**, and nothing else changes. -/
theorem takeOut_spec (h : Shape q) (hq : q.takeOut id = some (e, q')) :
    e.id = id ∧ TreeInv q'.tree ∧ q.tree.toList.Perm (e :: q'.tree.toList) ∧
    q'.queued = q.queued - 1 ∧ q' = { q with tree := q'.tree, queued := q'.queued } := by
  unfold takeOut at hq
  split at hq
  · cases hq
  · rename_i found hfound
    cases hq
    have hmem := List.mem_of_find?_eq_some hfound
    have hid := List.find?_some hfound
    obtain ⟨htree, x, hx, hperm⟩ :=
      h.tree.erase (p := fun e => e.id == id) (List.any_eq_true.2 ⟨e, hmem, hid⟩)
    have hxmem : x ∈ q.tree.toList := hperm.mem_iff.2 List.mem_cons_self
    obtain rfl : e = x :=
      List.inj_on_of_nodup_map h.distinct (List.mem_append_left _ hmem)
        (List.mem_append_left _ hxmem) ((beq_iff_eq.1 hid).trans (beq_iff_eq.1 hx).symm)
    exact ⟨beq_iff_eq.1 hid, htree, hperm, rfl, rfl⟩

/-- The count of waiting entities after one was taken out. -/
theorem Inv.takeOut_count (h : Inv q) (hperm : q.tree.toList.Perm (e :: q'.tree.toList))
    (hqueued : q'.queued = q.queued - 1) : q'.queued = q'.tree.toList.length := by
  have hlength := hperm.length_eq
  rw [List.length_cons] at hlength
  rw [hqueued, h.count, hlength, Nat.add_sub_cancel]

theorem enqueue_spec (h : Shape q) (hq : q.enqueue e = some q') :
    (∀ e' ∈ q.members, e'.id ≠ e.id) ∧ TreeInv q'.tree ∧
    q'.tree.toList.Perm (q.place e :: q.tree.toList) ∧
      q' = { q.accountJoin (q.place e) with tree := q'.tree, queued := q.queued + 1 } := by
  unfold enqueue at hq
  split at hq
  · cases hq
  · rename_i hfresh
    cases hq
    refine ⟨fun e' he' heq => hfresh ?_, h.tree.insert _, insert_perm h.tree _, rfl⟩
    rw [Bool.or_eq_true]
    rcases List.mem_append.1 he' with he' | he'
    · exact .inl (List.any_eq_true.2 ⟨e', he', beq_iff_eq.2 heq⟩)
    · rw [Option.mem_toList] at he'
      rw [he']
      exact .inr (beq_iff_eq.2 heq)

theorem dequeue_spec (h : Shape q) (hq : q.dequeue id = some (q', gone)) :
    ∃ e : Entity, e.id = id ∧ TreeInv q'.tree ∧ q.tree.toList.Perm (e :: q'.tree.toList) ∧
      q'.queued = q.queued - 1 ∧
      q' = { (q.accountLeave e).1 with tree := q'.tree, queued := q'.queued } ∧
      gone = (q.accountLeave e).2 := by
  unfold dequeue at hq
  split at hq
  · cases hq
  · rename_i e q₁ htake
    cases hq
    obtain ⟨hid, htree, hperm, hqueued, hsame⟩ := takeOut_spec h htake
    refine ⟨e, hid, htree, hperm, hqueued, ?_, ?_⟩ <;> rw [hsame] <;> rfl

theorem setCurrent_spec (h : Shape q) (hq : q.setCurrent id = some q') :
    q.current = none ∧ ∃ e : Entity, e.id = id ∧ TreeInv q'.tree ∧
    q.tree.toList.Perm (e :: q'.tree.toList) ∧
      q'.queued = q.queued - 1 ∧
      q' = { q with tree := q'.tree, queued := q'.queued, current := some e } := by
  unfold setCurrent at hq
  split at hq
  · cases hq
  · rename_i hnone
    split at hq
    · cases hq
    · rename_i e q₁ htake
      cases hq
      obtain ⟨hid, htree, hperm, hqueued, hsame⟩ := takeOut_spec h htake
      refine ⟨hnone, e, hid, htree, hperm, hqueued, ?_⟩
      rw [hsame]

theorem requeueCurrent_spec (h : Shape q) (hq : q.requeueCurrent = some q') :
    ∃ e, q.current = some e ∧ TreeInv q'.tree ∧ q'.tree.toList.Perm (e :: q.tree.toList) ∧
      q' = { q with tree := q'.tree, queued := q.queued + 1, current := none } := by
  unfold requeueCurrent at hq
  split at hq
  · cases hq
  · rename_i e hcurrent
    cases hq
    exact ⟨e, hcurrent, h.tree.insert e, insert_perm h.tree e, rfl⟩

theorem retireCurrent_spec (hq : q.retireCurrent = some (q', gone)) :
    ∃ e, q.current = some e ∧ q' = { (q.accountLeave e).1 with current := none } ∧
    gone = (q.accountLeave e).2 := by
  unfold retireCurrent at hq
  split at hq
  · cases hq
  · rename_i e hcurrent
    cases hq
    exact ⟨e, hcurrent, rfl, rfl⟩

/-! Shape. -/

theorem empty_shape : Shape {} := ⟨⟨List.Pairwise.nil, trivial, trivial⟩, List.nodup_nil⟩

section

variable (h : Shape q)
include h

theorem Shape.enqueue (hq : q.enqueue e = some q') : Shape q' := by
  obtain ⟨hfresh, htree, hperm, hsame⟩ := enqueue_spec h hq
  exact h.join htree (members_insert hperm (by rw [hsame]; rfl)) hfresh

theorem Shape.dequeue (hq : q.dequeue id = some (q', gone)) : Shape q' := by
  obtain ⟨e, -, htree, hperm, -, hsame, -⟩ := dequeue_spec h hq
  exact h.leave htree (members_insert hperm (by rw [hsame]; rfl))

theorem Shape.setCurrent (hq : q.setCurrent id = some q') : Shape q' := by
  obtain ⟨hnone, e, -, htree, hperm, -, hsame⟩ := setCurrent_spec h hq
  refine h.of_perm htree ?_
  rw [members_idle hnone]
  exact (members_current (by rw [hsame])).trans hperm.symm

theorem Shape.requeueCurrent (hq : q.requeueCurrent = some q') : Shape q' := by
  obtain ⟨e, hcurrent, htree, hperm, hsame⟩ := requeueCurrent_spec h hq
  refine h.of_perm htree ?_
  rw [members_idle (q := q') (by rw [hsame])]
  exact hperm.trans (members_current hcurrent).symm

theorem Shape.retireCurrent (hq : q.retireCurrent = some (q', gone)) : Shape q' := by
  obtain ⟨e, hcurrent, rfl, -⟩ := retireCurrent_spec hq
  refine h.leave (e := e) h.tree ?_
  rw [members_idle (q := { (q.accountLeave e).1 with current := none }) rfl]
  exact members_current hcurrent

theorem Shape.charge (delta : Nat) : Shape (q.charge delta).2 := by
  unfold EevdfQueue.charge
  split
  · exact h
  · rename_i c hcurrent
    simp only
    split <;> exact h.replace hcurrent rfl rfl rfl

theorem Shape.yieldCurrent : Shape q.yieldCurrent := by
  unfold EevdfQueue.yieldCurrent
  split
  · exact h
  · rename_i c hcurrent
    exact h.replace hcurrent rfl rfl rfl

end

theorem charge_tree (delta : Nat) : (q.charge delta).2.tree = q.tree := by
  unfold charge
  split
  · rfl
  · simp only
    split <;> rfl

theorem charge_current (delta : Nat) :
    (q.charge delta).2.current.map Entity.id = q.current.map Entity.id := by
  unfold charge
  split
  · rfl
  · rename_i c hcurrent
    rw [hcurrent]
    simp only
    split <;> rfl

theorem yieldCurrent_tree : q.yieldCurrent.tree = q.tree := by
  unfold yieldCurrent
  split <;> rfl

theorem yieldCurrent_current : q.yieldCurrent.current.map Entity.id = q.current.map Entity.id := by
  unfold yieldCurrent
  split
  · rfl
  · rename_i c hcurrent
    rw [hcurrent]
    rfl

theorem isQueued_iff : q.isQueued id = true ↔ id ∈ q.waiting := by
  simp [isQueued, waiting]

/-- Whatever the numbers are, an answer of `pick` that is not the current entity waits. -/
theorem Shape.pick_waits (h : Shape q) (hpick : q.pick = some (some e))
    (hother : ¬ q.current.any (·.id == e.id) = true) : e.id ∈ q.waiting := by
  have hcases := h.pick_cases
  rw [hpick] at hcases
  rcases List.mem_append.1 hcases.1 with hmem | hmem
  · exact List.mem_map_of_mem hmem
  · rw [Option.mem_toList] at hmem
    rw [hmem, Option.any_some, beq_self_eq_true] at hother
    exact absurd rfl hother

theorem Shape.pick_none (h : Shape q) (hpick : q.pick = some none) :
    q.current = none ∧ q.tree.toList = [] := by
  have hcases := h.pick_cases
  rwa [hpick] at hcases

/-! The whole invariant. -/

theorem empty_inv : Inv {} := ⟨empty_shape, rfl, rfl, rfl⟩

variable (h : Inv q)
include h

theorem Inv.enqueue (hq : q.enqueue e = some q') : Inv q' := by
  obtain ⟨-, -, hperm, hsame⟩ := enqueue_spec h.toShape hq
  refine h.join (e := q.place e) (h.toShape.enqueue hq) (members_insert hperm (by rw [hsame]; rfl))
    (by rw [hsame]; rfl) (by rw [hsame]; rfl) ?_
  rw [hperm.length_eq, List.length_cons, ← h.count, hsame]

theorem Inv.dequeue (hq : q.dequeue id = some (q', gone)) : Inv q' := by
  obtain ⟨e, -, -, hperm, hqueued, hsame, -⟩ := dequeue_spec h.toShape hq
  exact h.leave (h.toShape.dequeue hq) (members_insert hperm (by rw [hsame]; rfl))
    (by rw [hsame]; rfl) (by rw [hsame]; rfl) (h.takeOut_count hperm hqueued)

theorem Inv.setCurrent (hq : q.setCurrent id = some q') : Inv q' := by
  obtain ⟨hnone, e, -, -, hperm, hqueued, hsame⟩ := setCurrent_spec h.toShape hq
  refine h.of_perm (h.toShape.setCurrent hq) ?_ (by rw [hsame]) (by rw [hsame])
    (h.takeOut_count hperm hqueued)
  rw [members_idle hnone]
  exact (members_current (by rw [hsame])).trans hperm.symm

theorem Inv.requeueCurrent (hq : q.requeueCurrent = some q') : Inv q' := by
  obtain ⟨e, hcurrent, -, hperm, hsame⟩ := requeueCurrent_spec h.toShape hq
  refine h.of_perm (h.toShape.requeueCurrent hq) ?_ (by rw [hsame]) (by rw [hsame]) ?_
  · rw [members_idle (q := q') (by rw [hsame])]
    exact hperm.trans (members_current hcurrent).symm
  · rw [hperm.length_eq, List.length_cons, ← h.count, hsame]

theorem Inv.retireCurrent (hq : q.retireCurrent = some (q', gone)) : Inv q' := by
  have hshape := h.toShape.retireCurrent hq
  obtain ⟨e, hcurrent, rfl, -⟩ := retireCurrent_spec hq
  refine h.leave (e := e) hshape ?_ rfl rfl h.count
  rw [members_idle (q := { (q.accountLeave e).1 with current := none }) rfl]
  exact members_current hcurrent

theorem Inv.charge {delta : Nat}
    (hwrap : ∀ c, q.current = some c → c.vruntime + c.toVirtual delta < 2 ^ 64) :
    Inv (q.charge delta).2 := by
  unfold EevdfQueue.charge
  split
  · exact h
  · rename_i c hcurrent
    have hsum : (c.vruntime + c.toVirtual delta) % 2 ^ 64 = c.vruntime + c.toVirtual delta :=
      Nat.mod_eq_of_lt (hwrap c hcurrent)
    have hvruntime : q.weightedVruntime + c.weight * c.toVirtual delta + c.weight * c.vruntime =
        q.weightedVruntime + c.weight * ((c.vruntime + c.toVirtual delta) % 2 ^ 64) := by
      rw [hsum]
      ring
    simp only
    split <;> exact h.replace hcurrent rfl rfl rfl rfl rfl rfl hvruntime

theorem Inv.yieldCurrent : Inv q.yieldCurrent := by
  unfold EevdfQueue.yieldCurrent
  split
  · exact h
  · rename_i c hcurrent
    exact h.replace hcurrent rfl rfl rfl rfl rfl rfl rfl

/-- The machine's words are wide enough: with fewer than 2^32 members, the totals fit the 64 and 128
bits they are kept in. -/
theorem Inv.no_wrap (hlength : q.members.length < 2 ^ 32)
    (hsmall : ∀ e ∈ q.members, e.weight < 2 ^ 32 ∧ e.vruntime < 2 ^ 64) :
    q.totalWeight < 2 ^ 64 ∧ q.weightedVruntime < 2 ^ 128 := by
  have hweight : weightSum q.members ≤ q.members.length • 2 ^ 32 := by
    rw [← List.length_map (f := Entity.weight)]
    refine List.sum_le_card_nsmul _ _ fun w hw => ?_
    obtain ⟨e, he, rfl⟩ := List.mem_map.1 hw
    exact (hsmall e he).1.le
  have hvruntime : vruntimeSum q.members ≤ q.members.length • 2 ^ 96 := by
    rw [← List.length_map (f := fun e : Entity => e.weight * e.vruntime)]
    refine List.sum_le_card_nsmul _ _ fun w hw => ?_
    obtain ⟨e, he, rfl⟩ := List.mem_map.1 hw
    calc e.weight * e.vruntime ≤ 2 ^ 32 * 2 ^ 64 :=
      Nat.mul_le_mul (hsmall e he).1.le (hsmall e he).2.le
      _ = 2 ^ 96 := by norm_num
  rw [smul_eq_mul] at hweight hvruntime
  rw [h.weight, h.vruntime]
  omega

omit h

end

/-! ## Lag -/

section

variable {q q' : EevdfQueue} {e : Entity}

/-- A lag scaled by `(W + w) / W` is back at its own size, up to one, once its owner is part of the
average. -/
theorem rejoin {A W w v : Nat} {lag : Int} (hW : 0 < W)
    (hv : v = (A / W : Nat) - lag.sign * (lag.natAbs * (W + w) / W : Nat)) :
    |(((A + w * v) / (W + w) : Nat) : Int) - v - lag| ≤ 1 := by
  have hA := Nat.div_add_mod A W
  have hscaled := Nat.div_add_mod (lag.natAbs * (W + w)) W
  have hA' := Nat.mod_lt A hW
  have hscaled' := Nat.mod_lt (lag.natAbs * (W + w)) hW
  generalize A / W = now at hA hv
  generalize lag.natAbs * (W + w) / W = scaled at hscaled hv
  generalize A % W = r at hA hA'
  generalize lag.natAbs * (W + w) % W = t at hscaled hscaled'
  -- What the average is away from `v + lag` comes from the two remainders alone.
  have hsplit : ((A + w * v : Nat) : Int) = (r - lag.sign * t) + (W + w : Nat) * (v + lag) := by
    have hcast : (W * scaled + t : Int) = lag.natAbs * (W + w) := by exact_mod_cast hscaled
    rw [Nat.cast_add, ← hA]
    push_cast
    linear_combination lag.sign * hcast + (W + w) * Int.sign_mul_natAbs lag - W * hv
  have hr : -(W : Int) < r - lag.sign * t ∧ r - lag.sign * t < 2 * W := by
    rcases lt_trichotomy lag 0 with h | rfl | h
    · rw [Int.sign_eq_neg_one_of_neg h]
      omega
    · rw [Int.sign_zero]
      omega
    · rw [Int.sign_eq_one_of_pos h]
      omega
  rw [Int.natCast_ediv, hsplit, Int.add_mul_ediv_left _ _ (by omega), abs_le]
  have hlow : -1 ≤ (r - lag.sign * t) / (W + w : Nat) :=
    (Int.le_ediv_iff_mul_le (by omega)).2 (by omega)
  have hhigh : (r - lag.sign * t) / (W + w : Nat) < 2 :=
    (Int.ediv_lt_iff_lt_mul (by omega)).2 (by omega)
  omega

theorem virtualTime_eq (hW : 0 < q.totalWeight)
    (hfits : q.weightedVruntime / q.totalWeight < 2 ^ 64) :
    q.virtualTime = q.weightedVruntime / q.totalWeight := by
  rw [virtualTime, if_neg hW.ne', Nat.mod_eq_of_lt hfits]

/-- The lag the way `enqueue` scales it. -/
def scaledLag (q : EevdfQueue) (e : Entity) : Nat :=
  e.vlag.natAbs * (q.totalWeight + e.weight) / q.totalWeight

theorem place_vruntime (hW : 0 < q.totalWeight) (hlag : q.scaledLag e < 2 ^ 64)
    (hfits : e.vlag < 0 → q.virtualTime + q.scaledLag e < 2 ^ 64)
    (hclamp : 0 ≤ e.vlag → q.scaledLag e ≤ q.virtualTime) :
    (q.place e).vruntime = (q.virtualTime : Int) - e.vlag.sign * q.scaledLag e := by
  have hmagnitude : e.vlag.natAbs < 2 ^ 64 :=
    ((Nat.le_div_iff_mul_le hW).2 (Nat.mul_le_mul_left _ (Nat.le_add_right _ _))).trans_lt hlag
  simp only [place, if_neg hW.ne', Nat.mod_eq_of_lt hmagnitude]
  rw [← scaledLag, Nat.mod_eq_of_lt hlag]
  rcases lt_trichotomy e.vlag 0 with h | h | h
  · rw [if_pos h, Nat.mod_eq_of_lt (hfits h), Int.sign_eq_neg_one_of_neg h]
    omega
  · simp [h, scaledLag]
  · have := hclamp h.le
    rw [if_neg h.not_gt, Int.sign_eq_one_of_pos h]
    omega

/-- **Leaving and joining keep the lag.**  An entity that left with some lag and joins a queue with
members, where neither its scaled lag nor a sum leaves the 64 bits and nothing is cut at 0, has that
lag again, up to one. -/
theorem enqueue_lag (h : q.Inv) (hne : q.members ≠ []) (hq : q.enqueue e = some q')
    (hnow : q.weightedVruntime / q.totalWeight < 2 ^ 64) (hlag : q.scaledLag e < 2 ^ 64)
    (hfits : e.vlag < 0 → q.virtualTime + q.scaledLag e < 2 ^ 64)
    (hclamp : 0 ≤ e.vlag → q.scaledLag e ≤ q.virtualTime) :
    ∃ e' ∈ q'.members, e'.id = e.id ∧ |(q'.virtualTime : Int) - e'.vruntime - e.vlag| ≤ 1 := by
  obtain ⟨-, -, hperm, hjoin⟩ := enqueue_spec h.toShape hq
  refine ⟨q.place e, List.mem_append_left _ (hperm.mem_iff.2 List.mem_cons_self), rfl, ?_⟩
  have hW : 0 < q.totalWeight := h.weight ▸ weightSum_pos hne
  have hv := place_vruntime hW hlag hfits hclamp
  have hweight : q'.totalWeight = q.totalWeight + e.weight := by rw [hjoin]; rfl
  have hsum : q'.weightedVruntime = q.weightedVruntime + e.weight * (q.place e).vruntime := by
    rw [hjoin]; rfl
  rw [virtualTime_eq hW hnow] at hv hfits
  have hplace : (q.place e).vruntime < 2 ^ 64 := by
    rcases lt_or_ge e.vlag 0 with hneg | hpos
    · have := hfits hneg
      rw [Int.sign_eq_neg_one_of_neg hneg] at hv
      omega
    · have := mul_nonneg (Int.sign_nonneg_iff.2 hpos) (Int.natCast_nonneg (q.scaledLag e))
      omega
  have hfits' : q'.weightedVruntime / q'.totalWeight < 2 ^ 64 := by
    rw [Nat.div_lt_iff_lt_mul hW] at hnow
    rw [Nat.div_lt_iff_lt_mul (by omega), hsum, hweight, Nat.mul_add, Nat.mul_comm _ e.weight]
    have := Nat.mul_le_mul_left e.weight hplace.le
    omega
  rw [virtualTime_eq (by omega) hfits', hsum, hweight]
  exact rejoin hW hv

/-- A thread that has had too much, and one that is owed 7. -/
def behind : Entity := ⟨1, 1024, by decide, 2 ^ 32, 2000, 0, 0, -5000⟩
def owed : Entity := ⟨2, 2048, by decide, 2 ^ 31, 2000, 0, 0, 7⟩

theorem enqueue_lag_owed :
    ∃ q q' : EevdfQueue, EevdfQueue.enqueue {} behind = some q ∧ q.enqueue owed = some q' ∧
      ∃ e' ∈ q'.members, e'.id = owed.id ∧ |(q'.virtualTime : Int) - e'.vruntime -
        owed.vlag| ≤ 1 := by
  refine ⟨_, _, rfl, rfl,
    enqueue_lag (e := owed) (empty_inv.enqueue (e := behind) rfl) (List.cons_ne_nil _ _) rfl
    ?_ ?_ ?_ ?_⟩ <;> decide

end

/-! ## Reachable states -/

/-- The states a queue goes through. A failed assertion stops the machine; virtual runtimes stay
below 2^64. -/
inductive Reachable : EevdfQueue → Prop
  | empty : Reachable {}
  | enqueue {q q' : EevdfQueue} (e : Entity) : Reachable q → q.enqueue e = some q' → Reachable q'
  | dequeue {q q' : EevdfQueue} {e : Entity} (id : Nat) :
      Reachable q → q.dequeue id = some (q', e) → Reachable q'
  | setCurrent {q q' : EevdfQueue} (id : Nat) : Reachable q →
      q.setCurrent id = some q' → Reachable q'
  | requeueCurrent {q q' : EevdfQueue} : Reachable q → q.requeueCurrent = some q' → Reachable q'
  | retireCurrent {q q' : EevdfQueue} {e : Entity} :
      Reachable q → q.retireCurrent = some (q', e) → Reachable q'
  | charge {q : EevdfQueue} (delta : Nat) :
      Reachable q → (∀ c, q.current = some c → c.vruntime + c.toVirtual delta < 2 ^ 64) →
      Reachable (q.charge delta).2
  | yieldCurrent {q : EevdfQueue} : Reachable q → Reachable q.yieldCurrent

theorem Reachable.inv {q : EevdfQueue} (h : Reachable q) : Inv q := by
  induction h with
  | empty => exact empty_inv
  | enqueue e _ hq ih => exact ih.enqueue hq
  | dequeue id _ hq ih => exact ih.dequeue hq
  | setCurrent id _ hq ih => exact ih.setCurrent hq
  | requeueCurrent _ hq ih => exact ih.requeueCurrent hq
  | retireCurrent _ hq ih => exact ih.retireCurrent hq
  | charge delta _ hwrap ih => exact ih.charge hwrap
  | yieldCurrent _ ih => exact ih.yieldCurrent

/-- **`pick` in every reachable state** answers with the entity that should run, and the totals and
the numbers in the tree it decides by are exact. -/
theorem reachable_pick (q : EevdfQueue) (h : Reachable q) :
    (∃ r, q.pick = some r ∧ (r = none → q.members = []) ∧ ∀ e, r = some e → ShouldRun q e) ∧
      q.totalWeight = weightSum q.members ∧ q.weightedVruntime = vruntimeSum q.members ∧
      q.queued = q.tree.toList.length ∧ ∀ s ∈ q.tree.subtrees, ∀ m, s.data = some m →
      IsLowest s.toList m :=
  ⟨h.inv.pick, h.inv.weight, h.inv.vruntime, h.inv.count,
    fun _ hs _ hm => data_spec (h.inv.tree.updated.subtrees hs) hm⟩

/-- Two threads, of which the second runs and uses up more than its slice. -/
def busy : Option EevdfQueue := do
  let q ← EevdfQueue.enqueue {} ⟨1, 1024, by decide, 2 ^ 32, 2000, 0, 0, 0⟩
  let q ← q.enqueue ⟨2, 1024, by decide, 2 ^ 32, 1000, 0, 0, 0⟩
  let q ← q.setCurrent 2
  pure (q.charge 1500).2

/-- After that the first one is picked. -/
theorem reachable_pick_busy :
    ∃ q e, busy = some q ∧ q.pick = some (some e) ∧ e.id = 1 ∧ ShouldRun q e := by
  have hreach : ∃ q, busy = some q ∧ Reachable q := by
    refine ⟨_, rfl, ?_⟩
    refine .charge 1500 (.setCurrent 2 (.enqueue ⟨2, 1024, by decide, 2 ^ 32, 1000, 0, 0, 0⟩
      (.enqueue ⟨1, 1024, by decide, 2 ^ 32, 2000, 0, 0, 0⟩ .empty rfl) rfl) rfl) ?_
    rintro c ⟨⟩
    decide
  obtain ⟨q, hq, hreach⟩ := hreach
  obtain ⟨⟨r, hpick, -, hrun⟩, -⟩ := reachable_pick q hreach
  have hid : (busy.bind pick).map (Option.map Entity.id) = some (some 1) := by decide
  rw [hq, Option.bind_some, hpick] at hid
  simp only [Option.map_some, Option.some.injEq, Option.map_eq_some_iff] at hid
  obtain ⟨e, rfl, hid⟩ := hid
  exact ⟨q, e, hq, hpick, hid, hrun e rfl⟩

/-- **The tree is shallow**: a height fits the 8 bits it is kept in. -/
theorem reachable_height (q : EevdfQueue) (h : Reachable q) :
    Nat.fib (q.tree.height + 2) ≤ q.queued + 1 ∧ (q.queued < 2 ^ 64 → q.tree.height < 2 ^ 7) := by
  have hfib := h.inv.tree.balanced.fib_le
  rw [← h.inv.count] at hfib
  refine ⟨hfib, fun hlt => ?_⟩
  by_contra hdeep
  have hmono : Nat.fib 94 ≤ Nat.fib (q.tree.height + 2) := Nat.fib_mono (by omega)
  have hbig : 2 ^ 64 < Nat.fib 94 := by norm_num
  omega

/-- Thread `i` of several with ever later deadlines. -/
def later (i : Nat) : Entity := ⟨i, 1024, by decide, 2 ^ 32, 2000 * i, 0, 0, 0⟩

/-- Four threads are the fewest for a height of 3. -/
theorem reachable_height_four : ∃ q, (EevdfQueue.enqueue {} (later 1) >>= (·.enqueue (later 2)) >>=
    (·.enqueue (later 3)) >>= (·.enqueue (later 4))) = some q ∧ q.tree.height = 3 ∧ q.queued = 4 ∧
      Nat.fib 5 ≤ 4 + 1 ∧ q.tree.height < 2 ^ 7 := by
  have hreach := Reachable.enqueue (later 4) (.enqueue (later 3) (.enqueue (later 2)
    (.enqueue (later 1) .empty rfl) rfl) rfl) rfl
  obtain ⟨hfib, hheight⟩ := reachable_height _ hreach
  exact ⟨_, rfl, by decide, rfl, hfib, hheight (by decide)⟩

end EevdfQueue

end Erebus.Sched
