import Erebus.Hal.Timer.Model

/-!
# Who may touch a queue

* `Order`: whoever is in a lock section holds the lock, a timer is in the tree of the queue it says
  it waits on, and in no other, and only somebody in a lock section can be about to make it so.
* `Effect`: the seven things a step can do to locks, queues and `m_queue`.
* `Order.effect`: all of them keep it.
* `reachable_order`: it holds in every reachable state.
-/

namespace Erebus.Timers

open Function (update update_self update_of_ne)

/-! ## What a place means -/

/-- The queue whose lock a call holds. -/
def Call.holds (call : Call) : Option Nat :=
  match call.phase, call.goal with
  | .check q, _ | .store q, _ | .unlock q _, _ => some q
  | .claim, .add q _ _ | .release, .add q _ _ | .link, .add q _ _ | .finish, .add q _ _ => some q
  | _, _ => none

/-- The timer that is between its place in a tree and what it says about it. -/
def Call.amid (call : Call) : Option (Nat × Nat) :=
  match call.phase, call.goal with
  | .store q, _ => some (call.timer, q)
  | .link, .add q _ _ => some (call.timer, q)
  | _, _ => none

namespace Expiry

def call : Expiry → Option Call
  | callback _ call => call
  | _ => none

/-- The queue whose lock a pass of CPU `c` holds. -/
def holds (c : Nat) : Expiry → Option Nat
  | look | taken _ | cleared _ | marked _ | requeue _ _ | relink _ | clear _ => some c
  | callback _ call => call.bind Call.holds
  | _ => none

def amid (c : Nat) : Expiry → Option (Nat × Nat)
  | taken t | relink t => some (t, c)
  | callback _ call => call.bind Call.amid
  | _ => none

end Expiry

namespace Machine

variable {s s' : Machine}

def holds (s : Machine) : Agent → Option Nat
  | .caller a => (s.callers a).call.bind Call.holds
  | .pass c => (s.passes c).bind fun p => p.place.holds c

def amid (s : Machine) : Agent → Option (Nat × Nat)
  | .caller a => (s.callers a).call.bind Call.amid
  | .pass c => (s.passes c).bind fun p => p.place.amid c

/-- A timer is in no tree. -/
def Unlinked (s : Machine) (t : Nat) : Prop := ∀ q, ∀ e ∈ (s.queues q).waiting, e.timer ≠ t

structure Order (s : Machine) : Prop where
  lock : ∀ ag q, s.holds ag = some q → s.locks q = some ag
  amid : ∀ ag t q, s.amid ag = some (t, q) → s.holds ag = some q ∧
    (s.timers t).queue = some q ∧ s.Unlinked t
  tree : ∀ q, ∀ e ∈ (s.queues q).waiting, (s.timers e.timer).queue = some q
  linked : ∀ t q, (s.timers t).queue = some q →
    (∃ e ∈ (s.queues q).waiting, e.timer = t) ∨ ∃ ag, s.amid ag = some (t, q)
  queues : ∀ q, (s.queues q).Inv

/-- What a step can do, with what its agent holds and is amid of before and after. -/
inductive Effect (s s' : Machine) (me : Agent) :
    Option Nat → Option Nat → Option (Nat × Nat) → Option (Nat × Nat) → Prop
  | control {h : Option Nat} {m : Option (Nat × Nat)} :
      s'.locks = s.locks → s'.queues = s.queues → (∀ u, (s'.timers u).queue = (s.timers u).queue) →
        Effect s s' me h h m m
  | acquire (q : Nat) : s.locks q = none → s'.locks = Function.update s.locks q (some me) →
      s'.queues = s.queues → s'.timers = s.timers → Effect s s' me none (some q) none none
  | release (q : Nat) : s'.locks = Function.update s.locks q none → s'.queues = s.queues →
      s'.timers = s.timers → Effect s s' me (some q) none none none
  | unlink (t q : Nat) : s'.locks = s.locks →
      s'.queues = Function.update s.queues q ((s.queues q).unlinkLocked t) →
        s'.timers = s.timers → (s.timers t).queue = some q →
        Effect s s' me (some q) (some q) none (some (t, q))
  | clear (t q : Nat) : s'.locks = s.locks → s'.queues = s.queues → (s'.timers t).queue = none →
        (∀ u, u ≠ t → (s'.timers u).queue = (s.timers u).queue) →
        Effect s s' me (some q) (some q) (some (t, q)) none
  | claim (t q : Nat) :
      s'.locks = s.locks → s'.queues = s.queues → (s.timers t).queue = none →
      (s'.timers t).queue = some q →
        (∀ u, u ≠ t → (s'.timers u).queue = (s.timers u).queue) →
        Effect s s' me (some q) (some q) none (some (t, q))
  | link (t q advanceNs : Nat) (timer : Timer) :
      s'.locks = s.locks →
      s'.queues = Function.update s.queues q ((s.queues q).linkLocked t timer advanceNs) →
        (∀ u, (s'.timers u).queue = (s.timers u).queue) →
        Effect s s' me (some q) (some q) (some (t, q)) none

section Effects

variable {me : Agent} {h h' : Option Nat} {m m' : Option (Nat × Nat)}

/-- Only locks, queues and timers matter. -/
theorem Effect.congr {s₁ : Machine} (e : Effect s s₁ me h h' m m') (hl : s'.locks = s₁.locks)
    (hq : s'.queues = s₁.queues) (ht : s'.timers = s₁.timers) : Effect s s' me h h' m m' := by
  cases e with
  | control h₁ h₂ h₃ => exact .control (hl.trans h₁) (hq.trans h₂) (by rw [ht]; exact h₃)
  | acquire q h₁ h₂ h₃ h₄ => exact .acquire q h₁ (hl.trans h₂) (hq.trans h₃) (ht.trans h₄)
  | release q h₁ h₂ h₃ => exact .release q (hl.trans h₁) (hq.trans h₂) (ht.trans h₃)
  | unlink t q h₁ h₂ h₃ h₄ => exact .unlink t q (hl.trans h₁) (hq.trans h₂) (ht.trans h₃) h₄
  | clear t q h₁ h₂ h₃ h₄ =>
    exact .clear t q (hl.trans h₁) (hq.trans h₂) (by rw [ht]; exact h₃) (by rw [ht]; exact h₄)
  | claim t q h₁ h₂ h₃ h₄ h₅ =>
    exact .claim t q (hl.trans h₁) (hq.trans h₂) h₃ (by rw [ht]; exact h₄) (by rw [ht]; exact h₅)
  | link t q advanceNs timer h₁ h₂ h₃ =>
    exact .link t q advanceNs timer (hl.trans h₁) (hq.trans h₂) (by rw [ht]; exact h₃)

/-- Whoever else is in a lock section of a queue is not there while `me` is. -/
theorem Order.amid_ne (hord : s.Order) {ag ag' : Agent} {t q : Nat} (hag : s.holds ag' = some q)
    (hne : ag ≠ ag') : s.amid ag ≠ some (t, q) := by
  intro hamid
  have hlock := hord.lock ag q (hord.amid ag t q hamid).1
  rw [hord.lock ag' q hag] at hlock
  exact hne (Option.some.inj hlock).symm

/-- The lock of a queue changes hands, or nobody's does. -/
theorem Order.of_locks (hord : s.Order) (hq : s'.queues = s.queues)
    (ht : ∀ u, (s'.timers u).queue = (s.timers u).queue) (hamid : ∀ ag, s'.amid ag = s.amid ag)
    (hlock : ∀ ag q, s'.holds ag = some q → s'.locks q = some ag)
    (hholds : ∀ ag q, s.holds ag = some q → (∃ t, s.amid ag = some (t, q)) → s'.holds ag = some q) :
    s'.Order := by
  refine ⟨hlock, fun ag t q hm => ?_, fun q e he => ?_,
    fun t q hqueue => ?_, by rw [hq]; exact hord.queues⟩
  · rw [hamid] at hm
    obtain ⟨hag, hqueue, hun⟩ := hord.amid ag t q hm
    refine ⟨hholds ag q hag ⟨t, hm⟩, (ht t).trans hqueue, ?_⟩
    unfold Unlinked
    rw [hq]
    exact hun
  · rw [hq] at he
    rw [ht]
    exact hord.tree q e he
  · rw [ht] at hqueue
    simp only [hq, hamid]
    exact hord.linked t q hqueue

section Sections

variable {t q : Nat}

variable (hord : s.Order) (hl : s'.locks = s.locks) (hholds : ∀ ag, s'.holds ag = s.holds ag)
  (hothers : ∀ ag, ag ≠ me → s'.amid ag = s.amid ag)
include hord hl hholds hothers

/-- While it holds the lock of a queue, `me` changes what concerns one timer of that queue and
nothing else. -/
theorem Order.touches (hh : s.holds me = some q)
    (hbefore : ∀ u q', s.amid me = some (u, q') → u = t)
    (hqueue : ∀ q', (s.timers t).queue = some q' → q' = q)
    (hothersT : ∀ u, u ≠ t → (s'.timers u).queue = (s.timers u).queue)
    (hwaiting : ∀ q' e, e.timer ≠ t → (e ∈ (s'.queues q').waiting ↔ e ∈ (s.queues q').waiting))
    (hamid : ∀ p, s'.amid me = some p → p = (t, q) ∧ (s'.timers t).queue = some q ∧ s'.Unlinked t)
    (htree : ∀ q', ∀ e ∈ (s'.queues q').waiting, e.timer = t → (s'.timers t).queue = some q')
    (hlinked : ∀ q', (s'.timers t).queue = some q' →
      (∃ e ∈ (s'.queues q').waiting, e.timer = t) ∨ ∃ ag, s'.amid ag = some (t, q'))
    (hqueues : ∀ q', (s'.queues q').Inv) : s'.Order := by
  refine ⟨fun ag q' hag => ?_, fun ag u q' hag => ?_, fun q' e he => ?_, fun u q' hu => ?_, hqueues⟩
  · rw [hl]
    rw [hholds] at hag
    exact hord.lock ag q' hag
  · rw [hholds]
    by_cases heq : ag = me
    · subst heq
      obtain ⟨⟨⟩, hrest⟩ := hamid _ hag
      exact ⟨hh, hrest⟩
    · rw [hothers ag heq] at hag
      obtain ⟨h₁, h₂, h₃⟩ := hord.amid ag u q' hag
      -- nobody else is amid of anything on this queue
      have hut : u ≠ t := by
        rintro rfl
        obtain rfl := hqueue q' h₂
        exact hord.amid_ne hh heq hag
      refine ⟨h₁, (hothersT u hut).trans h₂, fun q'' e he heq => ?_⟩
      exact h₃ q'' e ((hwaiting q'' e (heq ▸ hut)).1 he) heq
  · by_cases het : e.timer = t
    · rw [het]
      exact htree q' e he het
    · rw [hothersT _ het]
      exact hord.tree q' e ((hwaiting q' e het).1 he)
  · by_cases hut : u = t
    · subst hut
      exact hlinked q' hu
    · rw [hothersT u hut] at hu
      rcases hord.linked u q' hu with ⟨e, he, rfl⟩ | ⟨ag, hag⟩
      · exact .inl ⟨e, (hwaiting q' e hut).2 he, rfl⟩
      · refine .inr ⟨ag, ?_⟩
        rw [hothers ag fun heq => hut (hbefore u q' (heq ▸ hag))]
        exact hag

/-- A timer leaves its tree while the queue is locked. -/
theorem Order.unlink (hq : s'.queues = update s.queues q ((s.queues q).unlinkLocked t))
    (ht : s'.timers = s.timers)
    (hqueue : (s.timers t).queue = some q) (hh : s.holds me = some q) (hm : s.amid me = none)
    (hm' : s'.amid me = some (t, q)) : s'.Order := by
  have hmem : ∃ e ∈ (s.queues q).waiting, e.timer = t := by
    refine (hord.linked t q hqueue).resolve_right fun ⟨ag, hag⟩ => ?_
    by_cases heq : ag = me
    · rw [heq, hm] at hag
      cases hag
    · exact hord.amid_ne hh heq hag
  have hwaiting : ∀ q' e, e ∈ (s'.queues q').waiting ↔ e ∈ (s.queues q').waiting ∧ e.timer ≠ t := by
    intro q' e
    rw [hq]
    by_cases hqq : q' = q
    · subst hqq
      rw [update_self]
      exact TimerQueue.mem_unlinkLocked (hord.queues q') hmem
    · rw [update_of_ne hqq]
      refine (and_iff_left_of_imp fun he heq => hqq ?_).symm
      have := hord.tree q' e he
      rw [heq, hqueue] at this
      exact (Option.some.inj this).symm
  have hown : ∀ q', (s.timers t).queue = some q' → q' = q :=
    fun q' h => Option.some.inj (h.symm.trans hqueue)
  refine hord.touches hl hholds hothers hh (by rw [hm]; nofun) hown (fun u _ => by rw [ht])
    (fun q' e hne => by rw [hwaiting, and_iff_left hne]) (fun p hp => ?_)
    (fun q' e he heq => absurd heq ((hwaiting q' e).1 he).2) (fun q' h => ?_) ?_
  · cases hm'.symm.trans hp
    exact ⟨rfl, by rw [ht, hqueue], fun q' e he => ((hwaiting q' e).1 he).2⟩
  · rw [ht] at h
    rw [hown q' h]
    exact .inr ⟨me, hm'⟩
  · rw [hq]
    exact update_forall ((hord.queues q).unlinkLocked hmem) hord.queues

/-- A timer that left its tree says so. -/
theorem Order.clear (hq : s'.queues = s.queues)
    (hnone : (s'.timers t).queue = none)
    (hothersT : ∀ u, u ≠ t → (s'.timers u).queue = (s.timers u).queue)
    (hm : s.amid me = some (t, q)) (hm' : s'.amid me = none) : s'.Order := by
  obtain ⟨hh, hqueue, hun⟩ := hord.amid me t q hm
  refine hord.touches hl hholds hothers hh (fun u q' h => ?_)
    (fun q' h => Option.some.inj (h.symm.trans hqueue))
    hothersT (fun q' e _ => by rw [hq]) (by rw [hm']; nofun) (fun q' e he heq => ?_)
    (by rw [hnone]; nofun) (by rw [hq]; exact hord.queues)
  · cases hm.symm.trans h
    rfl
  · rw [hq] at he
    exact absurd heq (hun q' e he)

/-- A timer that waits nowhere is claimed for a queue. -/
theorem Order.claim (hq : s'.queues = s.queues)
    (hnone : (s.timers t).queue = none) (hsome : (s'.timers t).queue = some q)
    (hothersT : ∀ u, u ≠ t → (s'.timers u).queue = (s.timers u).queue) (hh : s.holds me = some q)
    (hm : s.amid me = none) (hm' : s'.amid me = some (t, q)) : s'.Order := by
  have hun : s'.Unlinked t := by
    rintro q' e he rfl
    rw [hq] at he
    rw [hord.tree q' e he] at hnone
    cases hnone
  refine hord.touches hl hholds hothers hh (by rw [hm]; nofun) (by rw [hnone]; nofun) hothersT
    (fun q' e _ => by rw [hq]) (fun p hp => ?_) (fun q' e he heq => absurd heq (hun q' e he))
    (fun q' h => ?_) (by rw [hq]; exact hord.queues)
  · cases hm'.symm.trans hp
    exact ⟨rfl, hsome, hun⟩
  · cases hsome.symm.trans h
    exact .inr ⟨me, hm'⟩

/-- A claimed timer comes to its tree. -/
theorem Order.link {timer : Timer} {advanceNs : Nat}
    (hq : s'.queues = update s.queues q ((s.queues q).linkLocked t timer advanceNs))
    (ht : ∀ u, (s'.timers u).queue = (s.timers u).queue) (hm : s.amid me = some (t, q))
    (hm' : s'.amid me = none) : s'.Order := by
  obtain ⟨hh, hqueue, hun⟩ := hord.amid me t q hm
  have hwaiting : ∀ q' e, e ∈ (s'.queues q').waiting ↔
      q' = q ∧ e = (s.queues q).entry t timer advanceNs ∨ e ∈ (s.queues q').waiting := by
    intro q' e
    rw [hq]
    by_cases hqq : q' = q
    · subst hqq
      rw [update_self, TimerQueue.mem_linkLocked (hord.queues q'), and_iff_right rfl]
    · rw [update_of_ne hqq, or_iff_right fun h => hqq h.1]
  refine hord.touches hl hholds hothers hh (fun u q' h => ?_)
    (fun q' h => Option.some.inj (h.symm.trans hqueue))
    (fun u _ => ht u) (fun q' e hne => ?_) (by rw [hm']; nofun) (fun q' e he heq => ?_)
      (fun q' h => ?_) ?_
  · cases hm.symm.trans h
    rfl
  · rw [hwaiting, or_iff_right]
    rintro ⟨-, rfl⟩
    exact hne rfl
  · rw [ht, hqueue]
    obtain ⟨rfl, -⟩ | he := (hwaiting q' e).1 he
    · rfl
    · exact absurd heq (hun q' e he)
  · rw [ht] at h
    cases hqueue.symm.trans h
    exact .inl ⟨_, (hwaiting q _).2 (.inl ⟨rfl, rfl⟩), rfl⟩
  · rw [hq]
    exact update_forall ((hord.queues q).linkLocked fun e he => hun q e he) hord.queues

end Sections

/-- **Every step keeps the order.** -/
theorem Order.effect (hord : s.Order) (e : Effect s s' me h h' m m') (hh : s.holds me = h)
    (hh' : s'.holds me = h') (hm : s.amid me = m) (hm' : s'.amid me = m')
    (hothers : ∀ ag, ag ≠ me → s'.holds ag = s.holds ag ∧ s'.amid ag = s.amid ag) : s'.Order := by
  have hall : ∀ {α : Type} {F F' : Agent → α}, F' me = F me → (∀ ag, ag ≠ me → F' ag = F ag) →
      ∀ ag, F' ag = F ag := by
    intro α F F' hme hag ag
    by_cases heq : ag = me
    · rw [heq]
      exact hme
    · exact hag ag heq
  have hholds : h' = h → ∀ ag, s'.holds ag = s.holds ag := fun heq =>
    hall (by rw [hh, hh', heq]) fun ag hne => (hothers ag hne).1
  have hamids : ∀ ag, ag ≠ me → s'.amid ag = s.amid ag := fun ag hne => (hothers ag hne).2
  have hamid : m' = m → ∀ ag, s'.amid ag = s.amid ag :=
    fun heq => hall (by rw [hm, hm', heq]) hamids
  cases e with
  | control hl hq ht =>
    refine hord.of_locks hq ht (hamid rfl) (fun ag q hag => ?_) fun ag q hag _ => by
      rwa [hholds rfl]
    rw [hholds rfl] at hag
    rw [hl]
    exact hord.lock ag q hag
  | acquire q hfree hl hq ht =>
    refine hord.of_locks hq (fun u => by rw [ht]) (hamid rfl) (fun ag q' hag => ?_)
      fun ag q' hag ⟨t, ht⟩ => ?_
    · rw [hl]
      by_cases heq : ag = me
      · rw [heq, hh'] at hag
        rw [← Option.some.inj hag, update_self, heq]
      · rw [(hothers ag heq).1] at hag
        have hlock := hord.lock ag q' hag
        rw [update_of_ne fun hqq => by rw [hqq, hfree] at hlock; cases hlock]
        exact hlock
    · rw [(hothers ag fun heq => by rw [heq, hm] at ht; cases ht).1]
      exact hag
  | release q hl hq ht =>
    refine hord.of_locks hq (fun u => by rw [ht]) (hamid rfl) (fun ag q' hag => ?_)
      fun ag q' hag ⟨t, ht⟩ => ?_
    · have heq : ag ≠ me := fun heq => by
        rw [heq, hh'] at hag
        cases hag
      rw [(hothers ag heq).1] at hag
      have hlock := hord.lock ag q' hag
      rw [hl, update_of_ne fun hqq => ?_]
      · exact hlock
      · rw [hqq, hord.lock me q hh] at hlock
        exact heq (Option.some.inj hlock).symm
    · rw [(hothers ag fun heq => by rw [heq, hm] at ht; cases ht).1]
      exact hag
  | unlink t q hl hq ht hqueue => exact hord.unlink hl (hholds rfl) hamids hq ht hqueue hh hm hm'
  | clear t q hl hq hnone hothersT =>
    exact hord.clear hl (hholds rfl) hamids hq hnone hothersT hm hm'
  | claim t q hl hq hnone hsome hothersT =>
    exact hord.claim hl (hholds rfl) hamids hq hnone hsome hothersT hh hm hm'
  | link t q advanceNs timer hl hq ht => exact hord.link hl (hholds rfl) hamids hq ht hm hm'

end Effects

/-! ## The steps -/

theorem storeQueue_self (s : Machine) (t : Nat) (queue : Option Nat) :
    ((s.storeQueue t queue).timers t).queue = queue := by
  show (update s.timers t _ t).queue = _
  rw [update_self]

theorem storeQueue_of_ne (s : Machine) {t u : Nat} (queue : Option Nat) (hu : u ≠ t) :
    (s.storeQueue t queue).timers u = s.timers u := update_of_ne hu ..

/-- A field that a store leaves alone. -/
theorem setTimer_field {α : Type*} (s : Machine) (t : Nat) (f : Timer → Timer) (F : Timer → α)
    (hF : F (f (s.timers t)) = F (s.timers t)) (u : Nat) :
    F ((s.setTimer t f).timers u) = F (s.timers u) := by
  exact update_keeps F hF u

theorem holds_cancelled (goal : Goal) (t : Nat) : (goal.cancelled t).bind Call.holds = none := by
  cases goal <;> rfl

theorem amid_cancelled (goal : Goal) (t : Nat) : (goal.cancelled t).bind Call.amid = none := by
  cases goal <;> rfl

section

variable {me : Agent} {cpu : Nat} {call : Call} {next : Option Call} {note : Note}

theorem CallStep.effect (h : CallStep s me cpu call next note s') :
    Effect s s' me call.holds (next.bind Call.holds) call.amid (next.bind Call.amid) := by
  cases h with
  | loadNull _ =>
    rw [holds_cancelled, amid_cancelled]
    exact .control rfl rfl fun _ => rfl
  | load _ => exact .control rfl rfl fun _ => rfl
  | lock hfree => exact .acquire _ hfree rfl rfl rfl
  | check hqueue => exact .unlink _ _ rfl rfl rfl hqueue
  | checkMoved _ => exact .control rfl rfl fun _ => rfl
  | store =>
    exact .clear _ _ rfl rfl (storeQueue_self ..) fun u hu => by rw [storeQueue_of_ne s _ hu]
  | unlock =>
    rw [holds_cancelled, amid_cancelled]
    exact .release _ rfl rfl rfl
  | unlockMoved => exact .release _ rfl rfl rfl
  | runningNull _ => exact .control rfl rfl fun _ => rfl
  | running _ => exact .control rfl rfl fun _ => rfl
  | queueNull _ => exact .control rfl rfl fun _ => rfl
  | queue _ => exact .control rfl rfl fun _ => rfl
  | compareSelf => exact .control rfl rfl fun _ => rfl
  | compare _ => exact .control rfl rfl fun _ => rfl
  | claimLock hfree => exact .acquire _ hfree rfl rfl rfl
  | claim hnone =>
    exact .claim _ _ rfl rfl hnone (storeQueue_self ..) fun u hu => by rw [storeQueue_of_ne s _ hu]
  | claimLost _ => exact .control rfl rfl fun _ => rfl
  | release => exact .release _ rfl rfl rfl
  | @link t q deadlineNs slackNs advanceNs =>
    exact .link t q advanceNs _ rfl rfl fun u => setTimer_field s t
      (fun timer => { timer with deadlineNs := deadlineNs, slackNs := slackNs }) Timer.queue rfl u
  | finish => exact .release _ rfl rfl rfl

/-- A call touches locks, queues and timers only. -/
theorem CallStep.frame (h : CallStep s me cpu call next note s') :
    s'.callers = s.callers ∧ s'.passes = s.passes ∧ s'.stopped = s.stopped := by
  cases h <;> exact ⟨rfl, rfl, rfl⟩

end

theorem noted_frame (s : Machine) (inside : Option Nat) (note : Note) :
    (s.noted inside note).timers = s.timers ∧ (s.noted inside note).queues = s.queues ∧
      (s.noted inside note).locks = s.locks ∧ (s.noted inside note).callers = s.callers ∧
      (s.noted inside note).passes = s.passes := by
  cases note with
  | stops t =>
    by_cases hin : inside = some t
    · rw [noted, if_pos hin]
      exact ⟨rfl, rfl, rfl, rfl, rfl⟩
    · rw [noted, if_neg hin]
      exact ⟨rfl, rfl, rfl, rfl, rfl⟩
  | _ => exact ⟨rfl, rfl, rfl, rfl, rfl⟩

section

/-- A caller makes a step. -/
theorem Order.caller (hord : s.Order) {a : Nat} {call next : Option Call} {cpu : Nat}
    (hcall : (s.callers a).call = call) (hcallers : s'.callers = update s.callers a ⟨cpu, next⟩)
    (hpasses : s'.passes = s.passes)
    (e : Effect s s' (.caller a) (call.bind Call.holds) (next.bind Call.holds) (call.bind Call.amid)
      (next.bind Call.amid)) : s'.Order := by
  refine hord.effect e (by rw [Machine.holds, hcall]) ?_ (by rw [Machine.amid, hcall]) ?_
    fun ag hne => ?_
  · rw [holds, hcallers, update_self]
  · rw [Machine.amid, hcallers, update_self]
  · cases ag with
    | caller b =>
      have hb : b ≠ a := fun heq => hne (heq ▸ rfl)
      simp only [Machine.holds, Machine.amid, hcallers, update_of_ne hb]
      exact ⟨trivial, trivial⟩
    | pass c =>
      simp only [Machine.holds, Machine.amid, hpasses]
      exact ⟨trivial, trivial⟩

/-- The pass of a CPU makes a step. -/
theorem Order.pass (hord : s.Order) {c : Nat} {p p' : Option Pass} (hp : s.passes c = p)
    (hpasses : s'.passes = update s.passes c p') (hcallers : s'.callers = s.callers)
    (e : Effect s s' (.pass c) (p.bind fun p => p.place.holds c) (p'.bind fun p => p.place.holds c)
      (p.bind fun p => p.place.amid c) (p'.bind fun p => p.place.amid c)) : s'.Order := by
  refine hord.effect e (by rw [Machine.holds, hp]) ?_ (by rw [Machine.amid, hp]) ?_ fun ag hne => ?_
  · rw [holds, hpasses, update_self]
  · rw [Machine.amid, hpasses, update_self]
  · cases ag with
    | caller b =>
      simp only [Machine.holds, Machine.amid, hcallers]
      exact ⟨trivial, trivial⟩
    | pass c' =>
      have hc : c' ≠ c := fun heq => hne (heq ▸ rfl)
      simp only [Machine.holds, Machine.amid, hpasses, update_of_ne hc]
      exact ⟨trivial, trivial⟩

end

theorem Order.step (hord : s.Order) {event : Event} (hstep : Step s event s') : s'.Order := by
  cases hstep with
  | begin a goal t hcall _ => exact hord.caller hcall rfl rfl (.control rfl rfl fun _ => rfl)
  | @call a call next note s₁ hcall _ hstep =>
    obtain ⟨ht, hq, hl, hc, hp⟩ := noted_frame (s₁.setCaller a ⟨(s.callers a).cpu, next⟩) none note
    obtain ⟨hcallers, hpasses, -⟩ := hstep.frame
    have hset : (s₁.setCaller a ⟨(s.callers a).cpu, next⟩).callers =
        update s.callers a ⟨(s.callers a).cpu, next⟩ := by
      rw [← hcallers]
      rfl
    exact hord.caller hcall (hc.trans hset) (hp.trans hpasses) (hstep.effect.congr hl hq ht)
  | move a cpu _ _ => exact hord.caller rfl rfl rfl (.control rfl rfl fun _ => rfl)
  | interrupt c hp _ => exact hord.pass hp rfl rfl (.control rfl rfl fun _ => rfl)
  | enter c hp hfree => exact hord.pass hp rfl rfl (.acquire c hfree rfl rfl rfl)
  | take c nowNs hp _ hfirst _ =>
    exact hord.pass hp rfl rfl
      (.unlink _ c rfl rfl rfl (hord.tree c _ ((hord.queues c).first_mem hfirst)))
  | leave c nowNs hp _ => exact hord.pass hp rfl rfl (.release c rfl rfl rfl)
  | clearQueue c hp =>
    exact hord.pass hp rfl rfl
      (.clear _ c rfl rfl (storeQueue_self ..) fun u hu =>
        congrArg Timer.queue (storeQueue_of_ne s none hu))
  | @mark c n t hp =>
    exact hord.pass hp rfl rfl (.control rfl rfl fun u => setTimer_field s t
      (fun timer => { timer with runningOn := some c }) Timer.queue rfl u)
  | unlock c hp => exact hord.pass hp rfl rfl (.release c rfl rfl rfl)
  | invoke c hp => exact hord.pass hp rfl rfl (.control rfl rfl fun _ => rfl)
  | innerBegin c goal t' hp => exact hord.pass hp rfl rfl (.control rfl rfl fun _ => rfl)
  | @inner c n t call next note s₁ hpass hstep =>
    obtain ⟨ht, hq, hl, hc, hp⟩ :=
      noted_frame (s₁.setPass c (some ⟨n, .callback t next⟩)) (some t) note
    obtain ⟨hcallers, hpasses, -⟩ := hstep.frame
    have hset : (s₁.setPass c (some ⟨n, .callback t next⟩)).passes =
        update s.passes c (some ⟨n, .callback t next⟩) := by
      rw [← hpasses]
      rfl
    exact hord.pass hpass (hp.trans hset) (hc.trans hcallers) (hstep.effect.congr hl hq ht)
  | forward c t' periodNs nowNs hp =>
    exact hord.pass (c := c) rfl (Function.update_eq_self ..).symm rfl
      (.control rfl rfl fun u => setTimer_field s t'
      (fun timer => (timer.forward periodNs nowNs).2) Timer.queue (Timer.forward_queue ..).1 u)
  | done c restart hp => exact hord.pass hp rfl rfl (.control rfl rfl fun _ => rfl)
  | relock c hp hfree => exact hord.pass hp rfl rfl (.acquire c hfree rfl rfl rfl)
  | requeue c hp hnone =>
    exact hord.pass hp rfl rfl (.claim _ c rfl rfl hnone (storeQueue_self ..)
      fun u hu => congrArg Timer.queue (storeQueue_of_ne s (some c) hu))
  | requeueNot c hp _ => exact hord.pass hp rfl rfl (.control rfl rfl fun _ => rfl)
  | relink c advanceNs hp => exact hord.pass hp rfl rfl (.link _ _ advanceNs _ rfl rfl fun _ => rfl)
  | @clear c n t hp =>
    exact hord.pass hp rfl rfl (.control rfl rfl fun u => setTimer_field s t
      (fun timer => { timer with runningOn := none }) Timer.queue rfl u)

theorem Boot.order (h : Boot s) : s.Order := by
  have hholds : ∀ ag, s.holds ag = none ∧ s.amid ag = none := by
    intro ag
    cases ag with
    | caller a => simp only [holds, amid, h.callers, Option.bind_none, and_self]
    | pass c => simp only [holds, amid, h.passes, Option.bind_none, and_self]
  have hempty : ∀ q, (s.queues q).waiting = [] := by
    intro q
    obtain ⟨hw, hq⟩ := h.queues q
    rw [hq]
    rfl
  refine ⟨fun ag q hag => ?_, fun ag t q hag => ?_, fun q e he => ?_, fun t q hq => ?_, fun q => ?_⟩
  · rw [(hholds ag).1] at hag
    cases hag
  · rw [(hholds ag).2] at hag
    cases hag
  · rw [hempty] at he
    cases he
  · rw [(h.timers t).1] at hq
    cases hq
  · obtain ⟨hw, hq⟩ := h.queues q
    rw [hq]
    exact TimerQueue.empty_inv hw

/-- **A timer is in the tree of the queue it says it waits on**, in every reachable state, but for a
lock section that is under way. -/
theorem reachable_order (h : system.Reachable s) : s.Order := by
  refine h.invariant (I := Order) (fun _ hboot => Boot.order hboot) fun s s' hord hstep => ?_
  obtain ⟨e, he⟩ := hstep
  exact hord.step he

end Machine

end Erebus.Timers
