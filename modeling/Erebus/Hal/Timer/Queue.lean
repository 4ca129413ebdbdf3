import Erebus.Utils.AvlTree

/-!
# The timers of one CPU

A queue orders its timers by the moment the hardware has to go off, and remembers the first.

* `Timer`, `TimerQueue`: the data; `Entry` is what the tree orders, fixed while a timer waits.
* `linkLocked`, `unlinkLocked`: onto the queue and off it.
* `TimerQueue.Inv`: the tree is in order, no timer is in it twice, and the first is its first; both
  operations keep it, and `mem_linkLocked`, `mem_unlinkLocked` say what they do to the timers that
  wait.

What the latency estimate is, is left open.
-/

namespace Erebus.Timers

inductive TimerPrecision
  | normal
  | exact
  deriving DecidableEq

/-- `Timer`; a queue is named by its CPU. -/
structure Timer where
  deadlineNs : Nat
  slackNs : Nat
  precision : TimerPrecision
  queue : Option Nat
  runningOn : Option Nat

/-- What a queue knows about a timer that waits on it. -/
structure Entry where
  timer : Nat
  fireNs : Nat
  earliestNs : Nat
  deriving DecidableEq

structure TimerQueue where
  tree : AvlTree Entry Unit := .nil
  first : Option Entry := none
  hasHardware : Bool

/-- `Timer::forward`. -/
def Timer.forward (t : Timer) (periodNs nowNs : Nat) : Nat × Timer :=
  if periodNs = 0 then
    (0, t)
  else
    let periods := if t.deadlineNs ≤ nowNs then (nowNs - t.deadlineNs) / periodNs + 1 else 1
    (periods, { t with deadlineNs := (t.deadlineNs + periods * periodNs) % 2 ^ 64 })

theorem Timer.forward_queue (timer : Timer) (periodNs nowNs : Nat) :
    (timer.forward periodNs nowNs).2.queue = timer.queue ∧
      (timer.forward periodNs nowNs).2.runningOn = timer.runningOn := by
  unfold Timer.forward
  split <;> exact ⟨rfl, rfl⟩

/-- `TimerQueue::Order`. -/
def order : AvlTraits Entry Unit where
  less a b := a.fireNs < b.fireNs
  update _ _ _ := ()

namespace TimerQueue

/-- The timers that wait, in order. -/
def waiting (q : TimerQueue) : List Entry := q.tree.toList

/-- When a timer goes off, and when it may. -/
def entry (q : TimerQueue) (id : Nat) (t : Timer) (advanceNs : Nat) : Entry :=
  let slack := if t.precision = .exact then 0 else t.slackNs
  let advance := if t.precision = .exact ∧ q.hasHardware = true then advanceNs else 0
  let fireNs := (t.deadlineNs + slack - min advance t.deadlineNs) % 2 ^ 64
  { timer := id
    fireNs := fireNs
    earliestNs := if t.precision = .exact then fireNs else t.deadlineNs }

/-- `TimerQueue::link_locked`. -/
def linkLocked (q : TimerQueue) (id : Nat) (t : Timer) (advanceNs : Nat) : TimerQueue :=
  let e := q.entry id t advanceNs
  { q with
    tree := q.tree.insert order e
    first := if q.first.all fun first => e.fireNs < first.fireNs then some e else q.first }

/-- `TimerQueue::unlink_locked`. -/
def unlinkLocked (q : TimerQueue) (id : Nat) : TimerQueue :=
  { q with
    first :=
      if q.first.any fun first => first.timer == id then q.tree.next (fun e => e.timer == id) none
      else q.first
    tree := q.tree.erase order fun e => e.timer == id }

/-- `TimerQueue::is_consistent`, on the tree's side. -/
structure Inv (q : TimerQueue) : Prop where
  sorted : AvlTree.Sorted order q.waiting
  distinct : (q.waiting.map Entry.timer).Nodup
  first : q.first = q.waiting.head?

variable {q : TimerQueue} {id : Nat} {t : Timer} {advanceNs : Nat} {e : Entry}

theorem order_split (x y z : Entry) (h : order.less x y = true) :
    order.less x z = true ∨ order.less z y = true := by
  simp only [order, decide_eq_true_eq] at h ⊢
  omega

theorem order_asymm (x y : Entry) (h : order.less x y = true) : order.less y x = false := by
  simp only [order, decide_eq_true_eq, decide_eq_false_iff_not] at h ⊢
  omega

variable (h : q.Inv)
include h

theorem mem_linkLocked :
    e ∈ (q.linkLocked id t advanceNs).waiting ↔ e = q.entry id t advanceNs ∨ e ∈ q.waiting := by
  obtain ⟨a, b, heq, hins, -, -⟩ :=
    AvlTree.insert_toList order order_split (q.entry id t advanceNs) h.sorted
  have hwaiting : q.waiting = a ++ b := heq
  have hlinked : (q.linkLocked id t advanceNs).waiting = a ++ q.entry id t advanceNs :: b := hins
  rw [hwaiting, hlinked]
  simp only [List.mem_append, List.mem_cons]
  tauto

/-- A timer that waits nowhere comes to the queue. -/
theorem Inv.linkLocked (hfresh : ∀ e ∈ q.waiting, e.timer ≠ id) :
    (q.linkLocked id t advanceNs).Inv := by
  obtain ⟨a, b, heq, hins, ha, hb⟩ :=
    AvlTree.insert_toList order order_split (q.entry id t advanceNs) h.sorted
  have hwaiting : q.waiting = a ++ b := heq
  have hlinked : (q.linkLocked id t advanceNs).waiting = a ++ q.entry id t advanceNs :: b := hins
  refine ⟨AvlTree.insert_sorted order order_asymm order_split _ h.sorted, ?_, ?_⟩
  · have hdistinct := h.distinct
    rw [hlinked]
    rw [hwaiting] at hdistinct hfresh
    rw [List.map_append, List.map_cons, List.nodup_middle, List.nodup_cons, ← List.map_append]
    refine ⟨fun hmem => ?_, hdistinct⟩
    obtain ⟨e, he, heq⟩ := List.mem_map.1 hmem
    exact hfresh e he heq
  · -- the new timer is the first only if it comes before the first so far
    rw [hlinked]
    show (if q.first.all _ then _ else _) = _
    rw [h.first, hwaiting]
    cases a with
    | nil =>
      rw [List.nil_append, List.nil_append, if_pos]
      · rfl
      · cases b with
        | nil => rfl
        | cons y b => exact hb y List.mem_cons_self
    | cons x a =>
      rw [if_neg]
      · rfl
      · have hx := ha x List.mem_cons_self
        simp only [order, decide_eq_false_iff_not] at hx
        simpa using hx

/-- What comes after the first timer. -/
theorem Inv.next_head {x : Entry} {b : List Entry} (hwaiting : q.waiting = x :: b) :
    q.tree.next (fun e => e.timer == x.timer) none = b.head? := by
  have hx : x ∈ q.waiting := hwaiting ▸ List.mem_cons_self
  have hany : q.tree.toList.any (fun e => e.timer == x.timer) = true :=
    List.any_eq_true.2 ⟨x, hx, beq_self_eq_true _⟩
  obtain ⟨a, y, b', heq, hy, hnext⟩ := AvlTree.next_eq hany none
  have hdistinct := h.distinct
  have hsame : x :: b = a ++ y :: b' := hwaiting.symm.trans heq
  rw [hwaiting, List.map_cons, List.nodup_cons] at hdistinct
  cases a with
  | nil =>
    obtain ⟨-, rfl⟩ := List.cons.inj hsame
    rw [hnext, Option.or_none]
  | cons z a =>
    -- no timer waits twice
    obtain ⟨-, rfl⟩ := List.cons.inj hsame
    refine absurd (List.mem_map.2 ⟨y, ?_, beq_iff_eq.1 hy⟩) hdistinct.1
    exact List.mem_append_right _ List.mem_cons_self

variable (hmem : ∃ e ∈ q.waiting, e.timer = id)
include hmem

/-- A waiting timer, and what is around it. -/
theorem Inv.unlinkLocked_waiting :
    ∃ a x b, q.waiting = a ++ x :: b ∧ x.timer = id ∧ (q.unlinkLocked id).waiting = a ++ b ∧
    ∀ y ∈ a, y.timer ≠ id := by
  obtain ⟨e, he, rfl⟩ := hmem
  have hany : q.tree.toList.any (fun y => y.timer == e.timer) = true :=
    List.any_eq_true.2 ⟨e, he, beq_self_eq_true _⟩
  obtain ⟨a, x, b, heq, hx, herase⟩ := AvlTree.erase_toList order hany
  have hwaiting : q.waiting = a ++ x :: b := heq
  refine ⟨a, x, b, heq, beq_iff_eq.1 hx, herase, fun y hy htimer => ?_⟩
  have hdistinct := h.distinct
  rw [hwaiting, List.map_append, List.map_cons, List.nodup_append] at hdistinct
  exact hdistinct.2.2 y.timer (List.mem_map_of_mem hy) x.timer List.mem_cons_self
    (htimer.trans (beq_iff_eq.1 hx).symm)

theorem mem_unlinkLocked : e ∈ (q.unlinkLocked id).waiting ↔ e ∈ q.waiting ∧ e.timer ≠ id := by
  obtain ⟨a, x, b, hwaiting, rfl, hunlinked, -⟩ := h.unlinkLocked_waiting hmem
  have hdistinct := h.distinct
  rw [hwaiting, List.map_append, List.map_cons, List.nodup_middle,
    List.nodup_cons, ← List.map_append] at hdistinct
  rw [hwaiting, hunlinked, List.mem_append, List.mem_append, List.mem_cons, ← List.mem_append]
  constructor
  · intro he
    refine ⟨?_, fun heq => hdistinct.1 (List.mem_map.2 ⟨e, he, heq⟩)⟩
    rcases List.mem_append.1 he with he | he
    · exact .inl he
    · exact .inr (.inr he)
  · rintro ⟨he | rfl | he, hne⟩
    · exact List.mem_append_left _ he
    · exact absurd rfl hne
    · exact List.mem_append_right _ he

/-- A waiting timer leaves. -/
theorem Inv.unlinkLocked : (q.unlinkLocked id).Inv := by
  obtain ⟨a, x, b, hwaiting, rfl, hunlinked, hbefore⟩ := h.unlinkLocked_waiting hmem
  have hsub : (a ++ b).Sublist (a ++ x :: b) :=
    (List.Sublist.refl a).append (List.sublist_cons_self x b)
  refine ⟨?_, ?_, ?_⟩
  · rw [hunlinked]
    exact List.Pairwise.sublist hsub (hwaiting ▸ h.sorted)
  · rw [hunlinked]
    exact (hwaiting ▸ h.distinct).sublist (hsub.map Entry.timer)
  · rw [hunlinked]
    show (if q.first.any _ then q.tree.next _ none else q.first) = _
    rw [h.first, hwaiting]
    cases a with
    | nil =>
      rw [if_pos (by simp)]
      exact h.next_head hwaiting
    | cons y a =>
      have hy : (y.timer == x.timer) = false := beq_false_of_ne (hbefore y List.mem_cons_self)
      simp [hy]

omit hmem

/-- The first timer waits. -/
theorem Inv.first_mem (hfirst : q.first = some e) : e ∈ q.waiting := by
  rw [h.first] at hfirst
  exact List.mem_of_mem_head? hfirst

/-- The first timer is the first to go off. -/
theorem Inv.first_le {e' : Entry} (hfirst : q.first = some e) (he' : e' ∈ q.waiting) :
    e.fireNs ≤ e'.fireNs := by
  have hsorted := h.sorted
  rw [h.first] at hfirst
  cases hlist : q.waiting with
  | nil =>
    rw [hlist] at he'
    cases he'
  | cons x rest =>
    rw [hlist] at hfirst he' hsorted
    obtain rfl : x = e := Option.some.inj hfirst
    rcases List.mem_cons.1 he' with rfl | he'
    · exact le_rfl
    · have hless := List.rel_of_pairwise_cons hsorted he'
      simp only [order, decide_eq_false_iff_not, not_lt] at hless
      exact hless

omit h

theorem empty_inv (hasHardware : Bool) : Inv { hasHardware } :=
  ⟨List.Pairwise.nil, List.nodup_nil, rfl⟩

end TimerQueue

end Erebus.Timers
