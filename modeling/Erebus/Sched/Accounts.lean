import Erebus.Sched.RunQueue

/-!
# The books of a run queue

Beside the FIFOs and the tree, a queue keeps numbers of its own: how many threads wait, how many of
them another CPU may take, and a bit in its domain that says whether there are any. Each is written
where a thread comes or goes.

* `Counted`: the numbers are right.
* `pickNextLocked_counted`: whatever `pick_next_locked` does with `prev` and with the next thread,
  they stay right.
* `Choice`, `pickNextLocked_choice`: whom it answers with.
* `pickNextLocked_answers`: the one assertion it may fail.
* `Desk`: one queue, with the set of threads that were put on it and not taken off; `desk_sound`: in
  every run.
-/

namespace Erebus.Sched
namespace RunQueue

/-! ## The numbers -/

/-- Another CPU may take the thread. -/
def unpinned (info : Nat → ThreadInfo) (t : Nat) : Bool := !(info t).isPinned

structure Counted (info : Nat → ThreadInfo) (rq : RunQueue) : Prop where
  waiting : rq.waiting = rq.queued.length
  stealable : rq.stealable = rq.queued.countP (unpinned info)
  overloaded : rq.overloaded = true ↔ 0 < rq.stealable

/-- Two queues with the same numbers. -/
structure SameCounts (rq rq' : RunQueue) : Prop where
  waiting : rq'.waiting = rq.waiting
  stealable : rq'.stealable = rq.stealable
  overloaded : rq'.overloaded = rq.overloaded

section Counted

variable {info : Nat → ThreadInfo} {rq rq₁ rq₂ rq' : RunQueue} {threads threads₁ threads' : Threads}
  {t next : Nat} {mode : PickMode} {stays : Bool}
variable {atFront : Bool} {prev : Nat}

theorem Counted.of_perm (h : Counted info rq) (hperm : rq'.queued.Perm rq.queued)
    (hsame : SameCounts rq rq') : Counted info rq' := by
  constructor
  · rw [hsame.waiting, h.waiting, hperm.length_eq]
  · rw [hsame.stealable, h.stealable, hperm.countP_eq]
  · rw [hsame.overloaded, hsame.stealable]
    exact h.overloaded

/-- **`account_added`.** -/
theorem Counted.added (h : Counted info rq) (hperm : rq₁.queued.Perm (t :: rq.queued))
    (hsame : SameCounts rq rq₁) : Counted info (rq₁.accountAdded info t) := by
  constructor
  · show rq₁.waiting + 1 = rq₁.queued.length
    rw [hsame.waiting, h.waiting, hperm.length_eq, List.length_cons]
  · show (if (info t).isPinned then rq₁.stealable else rq₁.stealable + 1) =
        rq₁.queued.countP (unpinned info)
    rw [hsame.stealable, h.stealable, hperm.countP_eq, List.countP_cons, unpinned]
    cases (info t).isPinned <;> rfl
  · show (if !(info t).isPinned && rq₁.stealable == 0 then true else rq₁.overloaded) = true ↔
      0 < if (info t).isPinned then rq₁.stealable else rq₁.stealable + 1
    rw [hsame.stealable, hsame.overloaded]
    have hbit := h.overloaded
    cases (info t).isPinned with
    | true => exact hbit
    | false =>
      -- the first one sets the bit, and it is set already for the others
      cases hzero : rq.stealable with
      | zero => simp
      | succ n =>
        rw [hzero] at hbit
        simp [hbit]

/-- **`account_removed`.** -/
theorem Counted.removed (h : Counted info rq) (hperm : rq.queued.Perm (t :: rq₁.queued))
    (hsame : SameCounts rq rq₁) : Counted info (rq₁.accountRemoved info t) := by
  have hcount := h.stealable
  rw [hperm.countP_eq, List.countP_cons, unpinned] at hcount
  constructor
  · show rq₁.waiting - 1 = rq₁.queued.length
    rw [hsame.waiting, h.waiting, hperm.length_eq, List.length_cons, Nat.add_sub_cancel]
  · show (if (info t).isPinned then rq₁.stealable else rq₁.stealable - 1) =
        rq₁.queued.countP (unpinned info)
    rw [hsame.stealable, hcount]
    cases (info t).isPinned <;> rfl
  · show (if !(info t).isPinned && rq₁.stealable == 1 then false else rq₁.overloaded) = true ↔
      0 < if (info t).isPinned then rq₁.stealable else rq₁.stealable - 1
    rw [hsame.stealable, hsame.overloaded]
    have hbit := h.overloaded
    cases hpinned : (info t).isPinned with
    | true => exact hbit
    | false =>
      -- the last one clears the bit
      rw [hpinned] at hcount
      cases hone : rq₁.queued.countP (unpinned info) with
      | zero => simp [hcount, hone]
      | succ n =>
        rw [hcount, hone] at hbit ⊢
        simp [hbit]

theorem updateClockLocked_counted (h : Inv info rq) (hcounted : Counted info rq) (now : Nat) :
    Counted info (rq.updateClockLocked now) := by
  obtain ⟨-, hqueued, -⟩ := updateClockLocked_spec h now
  refine hcounted.of_perm (by rw [hqueued]) ?_
  unfold updateClockLocked
  split <;> exact ⟨rfl, rfl, rfl⟩

theorem pushRealtime_counts (hq : rq.pushRealtime info t atFront = some rq') :
    SameCounts rq rq' := by
  rw [pushRealtime_same hq]
  exact ⟨rfl, rfl, rfl⟩

variable (h : Inv info rq)
include h

theorem enqueueLocked_counted {preempts : Bool} (hcounted : Counted info rq)
    (hfresh : t ∉ rq.queued)
    (hcurrent : t ≠ rq.current)
    (hq : rq.enqueueLocked info threads t = some (preempts, rq', threads')) : Counted info rq' := by
  obtain ⟨-, hperm, -⟩ := enqueueLocked_spec h hfresh hcurrent hq
  obtain ⟨-, -, ⟨-, rq₁, hpush, rfl⟩ | ⟨-, fair, -, rfl⟩, -⟩ := enqueueLocked_cases hq
  · exact hcounted.added hperm (pushRealtime_counts hpush)
  · exact hcounted.added hperm ⟨rfl, rfl, rfl⟩

/-- A thread that is not here is not taken off. -/
theorem removeLocked_absent {done : Bool} (hnot : t ∉ rq.queued)
    (hq : rq.removeLocked info threads t = some (done, rq', threads')) :
    done = false ∧ rq' = rq ∧ threads' = threads := by
  obtain ⟨hdone, hrq, hthreads, -⟩ | ⟨-, ⟨hl, rq₁, hremove, -⟩ | ⟨-, fair, e, hdequeue, -⟩⟩ :=
    removeLocked_cases hq
  · exact ⟨hdone, hrq, hthreads⟩
  · obtain ⟨-, hperm, -⟩ := removeRealtime_spec h.toTiers hl hremove
    exact absurd (hperm.mem_iff.2 List.mem_cons_self) hnot
  · obtain ⟨gone, hid, -, htree, -⟩ := EevdfQueue.dequeue_spec h.shape hdequeue
    have hwaiting : rq.fair.waiting.Perm (gone.id :: fair.waiting) := htree.map Entity.id
    exact absurd (List.mem_append_left _ (hwaiting.mem_iff.2 (hid ▸ List.mem_cons_self))) hnot

theorem removeLocked_counted {done : Bool} (hcounted : Counted info rq)
    (hon : ∀ t ∈ rq.queued, (threads t).onRunqueue = true)
    (hq : rq.removeLocked info threads t = some (done, rq', threads')) :
    Counted info rq' ∧ (done = true ↔ t ∈ rq.queued) := by
  by_cases hmem : t ∈ rq.queued
  · obtain ⟨-, hperm, -⟩ := removeLocked_spec h hmem (hon t hmem) hq
    obtain ⟨-, rfl, -⟩ | ⟨hdone, ⟨-, rq₁, hremove, rfl, -⟩ | ⟨-, fair, e, -, rfl, -⟩⟩ :=
      removeLocked_cases hq
    · exact absurd hperm.length_eq (by simp)
    · have hsame : SameCounts rq rq₁ := by
        rw [removeRealtime_same hremove]
        exact ⟨rfl, rfl, rfl⟩
      exact ⟨hcounted.removed hperm hsame, iff_of_true hdone hmem⟩
    · exact ⟨hcounted.removed hperm ⟨rfl, rfl, rfl⟩, iff_of_true hdone hmem⟩
  · obtain ⟨rfl, rfl, -⟩ := removeLocked_absent h hmem hq
    exact ⟨hcounted, iff_of_false Bool.false_ne_true hmem⟩

theorem trySteal_counted {enough : Nat} {stolen : Option Nat} (hcounted : Counted info rq)
    (hon : ∀ t ∈ rq.queued, (threads t).onRunqueue = true)
    (hq : rq.trySteal info threads enough = some (stolen, rq', threads')) : Counted info rq' := by
  obtain ⟨-, rfl, -⟩ | ⟨t, done, -, -, hremove⟩ := trySteal_cases hq
  · exact hcounted
  · exact (removeLocked_counted h hcounted hon hremove).1

omit h

/-! ## The numbers under `pick_next_locked` -/

theorem filePrev_counted (h : Inv info rq) (hcounted : Counted info rq)
    (hq : rq.filePrev info threads rq.current mode = some (rq₁, threads₁)) : Counted info rq₁ := by
  have hfiled := filePrev_spec h hq
  refine hcounted.of_perm (by rw [hfiled.queued]) ?_
  rw [filePrev_same hq]
  exact ⟨rfl, rfl, rfl⟩

theorem requeueCurrentFair_counted (hcounted : Counted info rq)
    (hrequeued : Requeued info rq rq' threads threads' prev true)
    (hcurrent : rq.fair.current.map Entity.id = some prev)
    (hq : rq.requeueCurrentFair info threads = some (rq', threads')) : Counted info rq' := by
  have hperm := hrequeued.queued
  obtain ⟨e, fair, he, -, rfl, -⟩ := requeueCurrentFair_cases hq
  rw [he] at hcurrent
  obtain rfl := Option.some.inj hcurrent
  exact hcounted.added hperm ⟨rfl, rfl, rfl⟩

theorem requeueRealtime_counted (hcounted : Counted info rq)
    (hrequeued : Requeued info rq rq' threads threads' prev true)
    (hq : rq.requeueRealtime info threads prev atFront = some (rq', threads')) :
    Counted info rq' := by
  have hperm := hrequeued.queued
  obtain ⟨rq₁, hpush, rfl, -⟩ := requeueRealtime_cases hq
  exact hcounted.added hperm (pushRealtime_counts hpush)

theorem Refiles.counted (hrefiles : Refiles info rq threads t mode stays rq' threads')
    (hrequeued : Requeued info rq rq' threads threads' t stays) (hcounted : Counted info rq) :
    Counted info rq' := by
  cases hrefiles with
  | realtime _ _ hq => exact requeueRealtime_counted hcounted hrequeued hq
  | fair _ hcurrent hq => exact requeueCurrentFair_counted hcounted hrequeued hcurrent hq
  | gone => exact hcounted

theorem Refiles.exact (hrefiles : Refiles info rq threads t mode stays rq' threads')
    (h : rq.fair.Inv) : rq'.fair.Inv := by
  cases hrefiles with
  | realtime _ _ hq =>
    obtain ⟨rq₁, hpush, rfl, -⟩ := requeueRealtime_cases hq
    rw [pushRealtime_same hpush]
    exact h
  | fair _ _ hq =>
    obtain ⟨e, fair, -, hrequeue, rfl, -⟩ := requeueCurrentFair_cases hq
    exact h.requeueCurrent hrequeue
  | gone => exact h

/-- **The numbers after `pick_next_locked`.** -/
theorem pickNextLocked_counted (h : Inv info rq) (hcounted : Counted info rq)
    (hq : rq.pickNextLocked info threads rq.current mode = some (next, rq', threads')) :
    Counted info rq' := by
  obtain ⟨rq₁, threads₁, hfile, hfiled, hpicks⟩ := pickNextLocked_picks h hq
  have hcounted₁ := filePrev_counted h hcounted hfile
  cases hpicks with
  | head htop hrefiles _ hpop =>
    have hrequeued := hrefiles.requeued hfiled h
    obtain ⟨-, hperm, -⟩ := popRealtime_spec hrequeued.tiers htop hpop
    have hremoved := (hrefiles.counted hrequeued hcounted₁).removed hperm
      (by rw [popRealtime_same hpop]; exact ⟨rfl, rfl, rfl⟩)
    exact hremoved.of_perm (.refl _) ⟨rfl, rfl, rfl⟩
  | idle => exact hcounted₁.of_perm (.refl _) ⟨rfl, rfl, rfl⟩
  | @chosen chosen rq₂ _ fair _ _ _ _ hrefiles hset =>
    have hrequeued := hrefiles.requeued hfiled h
    obtain ⟨-, e, hid, -, htree, -⟩ := EevdfQueue.setCurrent_spec hrequeued.tiers.shape hset
    have hwaiting : rq₂.fair.waiting.Perm (chosen.id :: fair.waiting) := by
      rw [← hid]
      exact htree.map Entity.id
    have hperm := queued_of_fair { rq₂ with fair := fair } rq₂ hwaiting rfl
    have hremoved := (hrefiles.counted hrequeued hcounted₁).removed hperm ⟨rfl, rfl, rfl⟩
    exact hremoved.of_perm (.refl _) ⟨rfl, rfl, rfl⟩
  | _ => exact hcounted₁

end Counted

/-! ## Whom `pick_next_locked` answers with -/

/-- The threads among which `pick_next_locked` chooses: those who wait, and `prev` if it can go
on. -/
def CanRun (info : Nat → ThreadInfo) (rq : RunQueue) (threads : Threads) (mode : PickMode)
    (t : Nat) : Prop :=
  t ∈ rq.queued ∨ runnable info threads rq.current mode = true ∧ t = rq.current

/-- A right answer of `pick_next_locked`. -/
structure Choice (info : Nat → ThreadInfo) (rq : RunQueue) (threads : Threads) (mode : PickMode)
    (next : Nat) : Prop where
  /-- The idle thread runs only if nothing else can. -/
  idle : next = rq.idleThread → ∀ t, ¬ CanRun info rq threads mode t
  /-- Nobody who can run has a higher level than the thread that runs. -/
  best : next ≠ rq.idleThread →
    CanRun info rq threads mode next ∧ ∀ t, CanRun info rq threads mode t →
    rtLevel (info next) ≤ rtLevel (info t)
  /-- A fair thread is the one that the fair queue chooses once `prev` is filed. -/
  fair : isFair info next = true → ∃ rq₁ threads₁ e, rq.filePrev info threads rq.current mode =
    some (rq₁, threads₁) ∧ rq₁.fair.pick = some (some e) ∧ e.id = next

section Choice

variable {info : Nat → ThreadInfo} {rq rq₁ rq' : RunQueue} {threads threads₁ threads' : Threads}
  {t next : Nat} {mode : PickMode}

theorem highestRtLevel_le (h : Tiers info rq) (ht : t ∈ rq.queued) :
    rq.highestRtLevel ≤ rtLevel (info t) := by
  have hwhere := h.mem_queued ht
  have hmax : rq.highestRtLevel ≤ rtLevels := by
    unfold highestRtLevel
    split
    · decide
    · split <;> decide
  by_contra hlt
  rw [not_le] at hlt
  rw [if_pos (hlt.trans_le hmax), realtime_of_lt_highest hlt] at hwhere
  cases hwhere

theorem Tiers.ne_idleThread (h : Tiers info rq) (hnext : (info next).isIdle = false) :
    next ≠ rq.idleThread := by
  rintro rfl
  rw [h.idle] at hnext
  cases hnext

/-- Whoever can run is not an idle thread. -/
theorem CanRun.not_idle (h : Inv info rq) (ht : CanRun info rq threads mode t) :
    (info t).isIdle = false := by
  rcases ht with ht | ⟨hrunnable, rfl⟩
  · exact h.toTiers.not_idle ht
  · exact not_idle_of_runnable hrunnable

/-- A thread that can run and that nobody else outranks, if no real-time thread needs the fair
queue's word. -/
theorem Choice.of_canRun (h : Inv info rq) (hnext : CanRun info rq threads mode next)
    (hbest : ∀ t, CanRun info rq threads mode t → rtLevel (info next) ≤ rtLevel (info t))
    (hfair : isFair info next = true → ∃ rq₁ threads₁ e, rq.filePrev info threads rq.current mode =
      some (rq₁, threads₁) ∧
      rq₁.fair.pick = some (some e) ∧ e.id = next) : Choice info rq threads mode next where
  idle heq := absurd heq (h.toTiers.ne_idleThread (hnext.not_idle h))
  best _ := ⟨hnext, hbest⟩
  fair := hfair

/-- **`pick_next_locked` answers right.** -/
theorem pickNextLocked_choice (h : Inv info rq)
    (hq : rq.pickNextLocked info threads rq.current mode = some (next, rq', threads')) :
    Choice info rq threads mode next := by
  obtain ⟨rq₁, threads₁, hfile, hfiled, hpicks⟩ := pickNextLocked_picks h hq
  -- those who wait have a level no higher than the highest one
  have hwaits : ∀ t ∈ rq.queued, rq₁.highestRtLevel ≤ rtLevel (info t) := by
    intro t ht
    rw [← hfiled.queued] at ht
    exact highestRtLevel_le hfiled.tiers ht
  have hnobody : ¬ rq₁.highestRtLevel < rtLevels → runnable info threads rq.current mode = false →
      rq₁.fair.pick = some none → Choice info rq threads mode rq.idleThread := by
    intro htop hgone hpick
    refine ⟨fun _ t ht => ?_, fun hne => absurd rfl hne, fun hisfair => ?_⟩
    · rcases ht with ht | ⟨hrunnable, -⟩
      · -- the fair queue has nobody, and no FIFO has
        have hempty : rq₁.fair.waiting = [] := by
          rw [EevdfQueue.waiting, (hfiled.tiers.shape.pick_none hpick).2]
          rfl
        have hwhere := hfiled.tiers.mem_queued (by rw [hfiled.queued]; exact ht)
        have hle := hwaits t ht
        rw [if_neg (by omega), hempty] at hwhere
        cases hwhere
      · rw [hgone] at hrunnable
        cases hrunnable
    · have hidle := (isFair_iff.1 hisfair).1
      rw [h.idle] at hidle
      cases hidle
  have helected : ∀ chosen : Entity, ¬ rq₁.highestRtLevel < rtLevels →
      (runnable info threads rq.current mode = true → isFair info rq.current = true) →
      rq₁.fair.pick = some (some chosen) → CanRun info rq threads mode chosen.id →
      Choice info rq threads mode chosen.id := by
    intro chosen htop hstays hpick hcan
    refine .of_canRun h hcan (fun t ht => ?_) fun _ => ⟨rq₁, threads₁, chosen, hfile, hpick, rfl⟩
    refine (rtLevel_le _).trans ?_
    rcases ht with ht | ⟨hrunnable, rfl⟩
    · have := hwaits t ht
      omega
    · exact (isFair_iff.1 (hstays hrunnable)).2.ge
  cases hpicks with
  | realtime hrunnable hl hle _ =>
    refine .of_canRun h (.inr ⟨hrunnable, rfl⟩) (fun t ht => ?_) fun hisfair => ?_
    · rcases ht with ht | ⟨-, rfl⟩
      · exact hle.trans (hwaits t ht)
      · exact le_rfl
    · have := (isFair_iff.1 hisfair).2
      omega
  | head htop hrefiles hout hpop =>
    obtain ⟨-, -, -, -, -, hlevel⟩ := popRealtime_spec (hrefiles.requeued hfiled h).tiers htop hpop
    have hwaited := hrefiles.head_waited hfiled h htop hout hpop
    rw [hfiled.queued] at hwaited
    refine .of_canRun h (.inl hwaited) (fun t ht => ?_) fun hisfair => ?_
    · rw [hlevel]
      rcases ht with ht | ⟨hrunnable, rfl⟩
      · exact hwaits t ht
      · by_cases hl : rtLevel (info rq.current) < rtLevels
        · exact (hout hrunnable hl).elim Nat.le_of_lt fun heq => heq.1.le
        · omega
    · have := (isFair_iff.1 hisfair).2
      omega
  | idles htop hgone hpick heq =>
    rw [heq, hfiled.idleThread]
    exact hnobody htop hgone hpick
  | idle htop hgone hpick _ =>
    rw [hfiled.idleThread]
    exact hnobody htop hgone hpick
  | current htop hrunnable hisfair hpick heq =>
    have hright := helected _ htop (fun _ => hisfair) hpick (.inr ⟨hrunnable, heq⟩)
    rwa [heq] at hright
  | chosen htop hstays hpick hmem _ _ =>
    refine helected _ htop hstays hpick (.inl ?_)
    rw [← hfiled.queued]
    exact List.mem_append_left _ hmem

end Choice

/-! ## The operations answer -/

section

variable {info : Nat → ThreadInfo} {rq rq₁ rq₂ rq' : RunQueue}
  {threads threads₁ threads₂ threads' : Threads}
  {t prev next : Nat} {mode : PickMode} {stays : Bool} {q : EevdfQueue}

theorem takeOut_answers (h : t ∈ q.waiting) : ∃ r, q.takeOut t = some r := by
  obtain ⟨e, he, hid⟩ := List.mem_map.1 h
  unfold EevdfQueue.takeOut
  cases hfind : q.tree.toList.find? (·.id == t) with
  | some found => exact ⟨_, rfl⟩
  | none =>
    have hnot := List.find?_eq_none.1 hfind e he
    rw [hid, beq_self_eq_true] at hnot
    exact absurd rfl hnot

theorem enqueueLocked_answers (threads : Threads) (h : Inv info rq) (hfresh : t ∉ rq.queued)
    (hcurrent : t ≠ rq.current)
    (hidle : (info t).isIdle = false) : ∃ r, rq.enqueueLocked info threads t = some r := by
  unfold enqueueLocked
  rw [hidle, if_neg Bool.false_ne_true]
  simp only
  split
  · rename_i hl
    obtain ⟨tail, heq, -⟩ := pushRealtime_eq h.toTiers hl false
    rw [heq]
    exact ⟨_, rfl⟩
  · have hqueued : rq.fair.isQueued t = false := by
      rw [Bool.eq_false_iff, Ne, EevdfQueue.isQueued_iff]
      exact fun hmem => hfresh (List.mem_append_left _ hmem)
    have hrunning : rq.fair.current.any (·.id == t) = false := by
      rw [Bool.eq_false_iff]
      intro hany
      rw [Option.any_eq_true] at hany
      obtain ⟨e, he, hid⟩ := hany
      rw [beq_iff_eq] at hid
      have hmap := h.running
      rw [he, Option.map_some, hid] at hmap
      split at hmap
      · exact hcurrent (Option.some.inj hmap)
      · cases hmap
    rw [EevdfQueue.enqueue, show ((threads.modify t Thread.markQueued).entity t).id = t from rfl,
      hqueued, hrunning]
    exact ⟨_, rfl⟩

theorem removeLocked_answers (threads : Threads) (h : Inv info rq)
    (hhere : t ∈ rq.queued ∨ (threads t).onRunqueue = false ∨ rtLevel (info t) < rtLevels) :
    ∃ r, rq.removeLocked info threads t = some r := by
  unfold removeLocked
  split
  · exact ⟨_, rfl⟩
  rename_i hon
  rw [Bool.not_eq_true', Bool.not_eq_false] at hon
  split
  · split <;> exact ⟨_, rfl⟩
  rename_i hl
  split
  · exact ⟨_, rfl⟩
  · have hmem := (hhere.resolve_right fun hor => hor.elim (by rw [hon]; nofun) hl)
    have hwaiting := h.toTiers.mem_queued hmem
    rw [if_neg hl] at hwaiting
    obtain ⟨⟨gone, fair⟩, htake⟩ := takeOut_answers hwaiting
    rw [EevdfQueue.dequeue, htake]
    exact ⟨_, rfl⟩

theorem trySteal_answers (threads : Threads) (h : Inv info rq) (enough : Nat) :
    ∃ r, rq.trySteal info threads enough = some r := by
  unfold trySteal
  split
  · exact ⟨_, rfl⟩
  split
  · exact ⟨_, rfl⟩
  · rename_i t hfind
    obtain ⟨⟨done, rq', threads'⟩, hremove⟩ :=
      removeLocked_answers threads h (.inl (findStealable_mem hfind))
    rw [hremove]
    exact ⟨_, rfl⟩

theorem filePrev_answers (info : Nat → ThreadInfo) (rq : RunQueue) (threads : Threads) (prev : Nat)
    (mode : PickMode) : ∃ r, rq.filePrev info threads prev mode = some r := by
  unfold filePrev
  simp only
  split
  · split
    · rename_i hfair
      rw [Option.any_eq_true] at hfair
      obtain ⟨e, he, -⟩ := hfair
      rw [EevdfQueue.retireCurrent, he]
      exact ⟨_, rfl⟩
    · exact ⟨_, rfl⟩
  · split <;> exact ⟨_, rfl⟩

theorem requeueCurrentFair_answers (info : Nat → ThreadInfo) (threads : Threads) {e : Entity}
    (hcurrent : rq.fair.current = some e) : ∃ r, rq.requeueCurrentFair info threads = some r ∧
      r.1.realtime = rq.realtime ∧ ∀ u ∈ rq.fair.waiting, EevdfQueue.Shape rq.fair →
      u ∈ r.1.fair.waiting := by
  refine ⟨({ rq with fair := { rq.fair with
      tree := rq.fair.tree.insert treeTraits e, queued := rq.fair.queued + 1, current := none }
        }.accountAdded info e.id,
    threads.modify e.id Thread.markQueued), ?_, rfl, fun u hu hshape => ?_⟩
  · rw [requeueCurrentFair, EevdfQueue.requeueCurrent, hcurrent]
  · have hperm := (EevdfQueue.insert_perm hshape.tree e).map Entity.id
    exact hperm.mem_iff.2 (List.mem_cons_of_mem _ hu)

theorem popRealtime_answers {level : Nat} (hne : rq.realtime level ≠ []) :
    ∃ r, rq.popRealtime level = some r := by
  unfold popRealtime
  cases hlist : rq.realtime level with
  | nil => exact absurd hlist hne
  | cons first rest => exact ⟨_, rfl⟩

theorem pickRealtime_answers (threads : Threads) (mode : PickMode) (prevFair : Bool) {top : Nat}
    (h : Tiers info rq) (htop : rq.realtime top ≠ [])
    (hprev : prevFair = true → stays = true → rtLevel (info prev) = rtLevels →
      ∃ e, rq.fair.current = some e) :
    ∃ r, rq.pickRealtime info threads prev mode stays prevFair top = some r := by
  unfold pickRealtime
  simp only
  split
  · exact ⟨_, rfl⟩
  have hrequeued : ∃ r, (if (stays && decide (rtLevel (info prev) < rtLevels)) = true then
        rq.requeueRealtime info threads prev (decide (mode = .preempted))
      else if (stays && prevFair) = true then rq.requeueCurrentFair info threads
      else some (rq, threads)) = some r ∧ r.1.realtime top ≠ [] := by
    split
    · rename_i hrt
      rw [Bool.and_eq_true, decide_eq_true_eq] at hrt
      obtain ⟨tail, heq, -⟩ := pushRealtime_eq h hrt.2 (decide (mode = .preempted))
      rw [requeueRealtime, heq]
      refine ⟨_, rfl, ?_⟩
      show Function.update rq.realtime (rtLevel (info prev)) _ top ≠ []
      by_cases hlevel : top = rtLevel (info prev)
      · rw [hlevel, Function.update_self]
        split <;> simp
      · rw [Function.update_of_ne hlevel]
        exact htop
    · rename_i hrt
      split
      · rename_i hfair
        rw [Bool.and_eq_true] at hfair
        rw [hfair.1, Bool.true_and, decide_eq_true_eq] at hrt
        obtain ⟨e, he⟩ := hprev hfair.2 hfair.1 (le_antisymm (rtLevel_le _) (not_lt.1 hrt))
        obtain ⟨r, hr, hlists, -⟩ := requeueCurrentFair_answers info threads he
        exact ⟨r, hr, by rw [hlists]; exact htop⟩
      · exact ⟨_, rfl, htop⟩
  obtain ⟨⟨rq₂, threads₂⟩, hr, hne⟩ := hrequeued
  rw [hr]
  obtain ⟨⟨next, rq₃⟩, hpop⟩ := popRealtime_answers hne
  simp only [hpop]
  exact ⟨_, rfl⟩

theorem pickFair_answers (prev : Nat) (h : Tiers info rq)
    (hnone : rq.pickFair info threads prev = none) : rq.fair.pick = none := by
  unfold pickFair at hnone
  split at hnone
  · assumption
  · split at hnone <;> cases hnone
  · rename_i chosen hpick
    exfalso
    split at hnone
    · cases hnone
    rename_i hother
    have hchosen := h.shape.pick_waits hpick hother
    have hrequeued : ∃ r, (if rq.fair.current.isSome = true then rq.requeueCurrentFair info threads
        else some (rq, threads)) = some r ∧ chosen.id ∈ r.1.fair.waiting ∧
        r.1.fair.current = none := by
      cases hcurrent : rq.fair.current with
      | none => exact ⟨_, rfl, hchosen, hcurrent⟩
      | some e =>
        obtain ⟨r, hr, -, hwaits⟩ := requeueCurrentFair_answers info threads hcurrent
        refine ⟨r, hr, hwaits _ hchosen h.shape, ?_⟩
        rw [requeueCurrentFair, EevdfQueue.requeueCurrent, hcurrent] at hr
        cases hr
        rfl
    obtain ⟨⟨rq₂, threads₂⟩, hr, hmem, hcurrent⟩ := hrequeued
    simp only [hr] at hnone
    obtain ⟨⟨e, fair⟩, htake⟩ := takeOut_answers hmem
    rw [EevdfQueue.setCurrent, hcurrent, htake] at hnone
    cases hnone

/-- **`pick_next_locked` answers**, unless the fair queue finds nobody to run although somebody
waits there. -/
theorem pickNextLocked_answers (h : Inv info rq)
    (hnone : rq.pickNextLocked info threads rq.current mode = none) :
    ∃ rq₁ threads₁, rq.filePrev info threads rq.current mode = some (rq₁, threads₁) ∧
    rq₁.fair.pick = none := by
  obtain ⟨⟨rq₁, threads₁⟩, hfile⟩ := filePrev_answers info rq threads rq.current mode
  have hfiled := filePrev_spec h hfile
  refine ⟨rq₁, threads₁, hfile, ?_⟩
  unfold pickNextLocked at hnone
  simp only [hfile] at hnone
  split at hnone
  · rename_i htop
    exfalso
    have hcurrent : runnable info threads rq.current mode = true →
        rtLevel (info rq.current) = rtLevels → ∃ e, rq₁.fair.current = some e := by
      intro hrunnable hlevel
      have hrunning := hfiled.running
      rw [hrunnable, isFair_iff.2 ⟨not_idle_of_runnable hrunnable, hlevel⟩] at hrunning
      obtain ⟨e, he, -⟩ := Option.map_eq_some_iff.1 hrunning
      exact ⟨e, he⟩
    obtain ⟨r, hr⟩ :=
      pickRealtime_answers threads₁ mode (rq.fair.current.any (·.id == rq.current)) hfiled.tiers
      (realtime_of_highest htop) fun _ => hcurrent
    rw [hr] at hnone
    cases hnone
  · split at hnone
    · cases hnone
    · exact pickFair_answers rq.current hfiled.tiers hnone

end

/-! ## The fair queue's own totals -/

section

variable {info : Nat → ThreadInfo} {rq rq₁ rq' : RunQueue} {threads threads₁ threads' : Threads}
  {t next now : Nat} {mode : PickMode}

/-- Charging the running thread up to `now` does not take its virtual runtime past 2^64. -/
def FitsUntil (rq : RunQueue) (now : Nat) : Prop :=
  ∀ e, rq.fair.current = some e → e.vruntime + e.toVirtual (now - rq.chargedUntilNs) < 2 ^ 64

variable (h : rq.fair.Inv)
include h

theorem updateClockLocked_exact (hfits : rq.FitsUntil now) :
    (rq.updateClockLocked now).fair.Inv := by
  unfold updateClockLocked
  split
  · exact h.charge hfits
  · exact h

theorem enqueueLocked_exact {preempts : Bool}
    (hq : rq.enqueueLocked info threads t = some (preempts, rq', threads')) : rq'.fair.Inv := by
  obtain ⟨-, -, ⟨-, rq₁, hpush, rfl⟩ | ⟨-, fair, henqueue, rfl⟩, -⟩ := enqueueLocked_cases hq
  · rw [pushRealtime_same hpush]
    exact h
  · exact h.enqueue henqueue

theorem removeLocked_exact {done : Bool}
    (hq : rq.removeLocked info threads t = some (done, rq', threads')) : rq'.fair.Inv := by
  obtain ⟨-, rfl, -⟩ | ⟨-, ⟨-, rq₁, hremove, rfl, -⟩ | ⟨-, fair, e, hdequeue, rfl, -⟩⟩ :=
    removeLocked_cases hq
  · exact h
  · rw [removeRealtime_same hremove]
    exact h
  · exact h.dequeue hdequeue

theorem trySteal_exact {enough : Nat} {stolen : Option Nat}
    (hq : rq.trySteal info threads enough = some (stolen, rq', threads')) : rq'.fair.Inv := by
  obtain ⟨-, rfl, -⟩ | ⟨t, done, -, -, hremove⟩ := trySteal_cases hq
  · exact h
  · exact removeLocked_exact h hremove

theorem filePrev_exact {prev : Nat}
    (hq : rq.filePrev info threads prev mode = some (rq₁, threads₁)) :
    rq₁.fair.Inv := by
  unfold filePrev at hq
  simp only at hq
  split at hq
  · split at hq
    · split at hq
      · cases hq
      · rename_i fair e hretire
        cases hq
        exact h.retireCurrent hretire
    · cases hq
      exact h
  · split at hq
    · cases hq
      exact h.yieldCurrent
    · cases hq
      exact h

omit h

theorem pickNextLocked_exact (h : Inv info rq) (hexact : rq.fair.Inv)
    (hq : rq.pickNextLocked info threads rq.current mode = some (next, rq', threads')) :
    rq'.fair.Inv := by
  obtain ⟨rq₁, threads₁, hfile, hfiled, hpicks⟩ := pickNextLocked_picks h hq
  have hexact₁ := filePrev_exact hexact hfile
  cases hpicks with
  | @head _ rq₂ rq₃ _ htop hrefiles _ hpop =>
    show rq₃.fair.Inv
    rw [(popRealtime_spec (hrefiles.requeued hfiled h).tiers htop hpop).2.2.1]
    exact hrefiles.exact hexact₁
  | chosen _ _ _ _ hrefiles hset => exact (hrefiles.exact hexact₁).setCurrent hset
  | _ => exact hexact₁

/-- With exact totals the fair queue always finds somebody. -/
theorem pickNextLocked_exact_answers (threads : Threads) (mode : PickMode) (h : Inv info rq)
    (hexact : rq.fair.Inv) : ∃ r, rq.pickNextLocked info threads rq.current mode = some r := by
  cases hpick : rq.pickNextLocked info threads rq.current mode with
  | some r => exact ⟨r, rfl⟩
  | none =>
    obtain ⟨rq₁, threads₁, hfile, hnone⟩ := pickNextLocked_answers h hpick
    obtain ⟨r, hr, -⟩ := (filePrev_exact hexact hfile).pick
    rw [hnone] at hr
    cases hr

end

end RunQueue

/-! ## Runs of one queue -/

/-- One run queue, the threads of the system, and the threads that were put on the queue and not
taken off. -/
structure Desk where
  info : Nat → ThreadInfo
  threads : Threads
  rq : RunQueue
  members : Finset Nat
  /-- No virtual runtime has gone past 2^64 yet. -/
  fits : Prop

namespace Desk

open RunQueue

/-- Whom `remove_locked` may be asked for: a thread that waits here or nowhere. A real-time thread
of another queue is not found either, but a fair one is in a tree, and `is_queued` does not ask in
which. -/
def Removable (s : Desk) (t : Nat) : Prop :=
  t ∈ s.members ∨ (s.threads t).onRunqueue = false ∨ rtLevel (s.info t) < rtLevels

/-- One operation on the queue, or something that happens to threads that are not on it. -/
inductive Step (s : Desk) : Desk → Prop
  /-- `enqueue_locked` of a thread that is on no queue and has left its CPU. -/
  | enqueue (t : Nat) {preempts : Bool} {rq : RunQueue} {threads : Threads} :
      t ∉ s.members → t ≠ s.rq.current → s.rq.enqueueLocked s.info s.threads t =
        some (preempts, rq, threads) →
        Step s { s with rq := rq, threads := threads, members := insert t s.members }
  | remove (t : Nat) {done : Bool} {rq : RunQueue} {threads : Threads} :
      s.Removable t → s.rq.removeLocked s.info s.threads t = some (done, rq, threads) →
        Step s { s with
          rq := rq, threads := threads, members := if done then s.members.erase t else s.members }
  | updateClock (nowNs : Nat) :
      Step s { s with rq := s.rq.updateClockLocked nowNs, fits := s.fits ∧ s.rq.FitsUntil nowNs }
  /-- `pick_next_locked` of what is running: it leaves the CPU if another is chosen, and waits if it
  can go on. -/
  | pick (mode : PickMode) {next : Nat} {rq : RunQueue} {threads : Threads} :
      s.rq.pickNextLocked s.info s.threads s.rq.current mode = some (next, rq, threads) →
      Step s { s with
          rq := rq, threads := threads
          members :=
            if next = s.rq.current then s.members
            else (if runnable s.info s.threads s.rq.current mode then insert s.rq.current s.members
              else s.members).erase next }
  | steal (enough : Nat) {stolen : Option Nat} {rq : RunQueue} {threads : Threads} :
      s.rq.trySteal s.info s.threads enough = some (stolen, rq, threads) → Step s { s with
          rq := rq, threads := threads
          members := stolen.elim s.members s.members.erase }
  /-- `set_priority_class` and the like, of a thread that is neither running nor on the queue. -/
  | reclass (t : Nat) (i : ThreadInfo) : t ∉ s.members → t ≠ s.rq.current →
      i.isIdle = (s.info t).isIdle → Step s { s with info := Function.update s.info t i }
  /-- Threads change their state, or come and go on other queues. -/
  | elsewhere (threads : Threads) :
      (∀ t ∈ s.members, (threads t).onRunqueue = (s.threads t).onRunqueue) →
      Step s { s with threads := threads }

/-- A queue as `initialize` leaves it. -/
structure Init (s : Desk) : Prop where
  rq : ∃ idle, (s.info idle).isIdle = true ∧ s.rq = RunQueue.initialized idle
  members : s.members = ∅
  fits : s.fits

def system : System Desk where
  init := Init
  step := Step

structure Ok (s : Desk) : Prop where
  inv : s.rq.Inv s.info
  counted : Counted s.info s.rq
  members : ∀ t, t ∈ s.members ↔ t ∈ s.rq.queued
  on : ∀ t ∈ s.members, (s.threads t).onRunqueue = true
  totals : s.fits → s.rq.fair.Inv

section Steps

variable {s s' : Desk} {t : Nat} {i : ThreadInfo}
variable {threads : Threads} {rq : RunQueue}

theorem Init.ok (h : Init s) : Ok s := by
  obtain ⟨idle, hidle, hrq⟩ := h.rq
  have hfair : s.rq.fair = {} := by rw [hrq]; rfl
  constructor
  · rw [hrq]
    refine ⟨⟨EevdfQueue.empty_shape, List.nodup_nil, hidle, nofun, nofun,
      fun _ => rfl⟩, List.not_mem_nil, fun _ => rfl, ?_⟩
    rw [if_neg
      (by rw [isFair_iff, show (s.info (RunQueue.initialized idle).current).isIdle = true from
        hidle]; simp)]
    rfl
  · rw [hrq]
    exact ⟨rfl, rfl, iff_of_false Bool.false_ne_true (Nat.lt_irrefl 0)⟩
  · intro t
    rw [h.members, hrq]
    exact iff_of_false (Finset.notMem_empty t) List.not_mem_nil
  · intro t ht
    rw [h.members] at ht
    exact absurd ht (Finset.notMem_empty t)
  · intro _
    rw [hfair]
    exact EevdfQueue.empty_inv

/-- A thread that is neither running nor on the queue changes its class. -/
theorem Ok.reclass (h : Ok s) (ht : t ∉ s.members) (hcurrent : t ≠ s.rq.current)
    (hi : i.isIdle = (s.info t).isIdle) : Ok { s with info := Function.update s.info t i } := by
  have hqueued : ∀ u ∈ s.rq.queued, Function.update s.info t i u = s.info u := by
    intro u hu
    apply Function.update_of_ne
    rintro rfl
    exact ht ((h.members u).2 hu)
  have hrunning : Function.update s.info t i s.rq.current = s.info s.rq.current :=
    Function.update_of_ne hcurrent.symm ..
  have hidle : ∀ u, (Function.update s.info t i u).isIdle = (s.info u).isIdle := by
    intro u
    by_cases hu : u = t
    · rw [hu, Function.update_self]
      exact hi
    · rw [Function.update_of_ne hu]
  have hfair : ∀ u, Function.update s.info t i u = s.info u →
      isFair (Function.update s.info t i) u = isFair s.info u := by
    intro u hu
    rw [isFair, isFair, hu]
  constructor
  · refine ⟨⟨h.inv.shape, h.inv.nodup, ?_, ?_, ?_, h.inv.tail⟩, h.inv.current, ?_, ?_⟩
    · rw [hidle]
      exact h.inv.idle
    · intro u hu
      rw [hfair u (hqueued u (List.mem_append_left _ hu))]
      exact h.inv.fair u hu
    · intro l hl u hu
      show (Function.update s.info t i u).isIdle = false ∧
          rtLevel (Function.update s.info t i u) = l
      rw [hqueued u (mem_queued_of_realtime hl hu)]
      exact h.inv.realtime l hl u hu
    · rw [hidle]
      exact h.inv.idle_current
    · rw [hfair _ hrunning]
      exact h.inv.running
  · refine ⟨h.counted.waiting, ?_, h.counted.overloaded⟩
    rw [h.counted.stealable]
    apply List.countP_congr
    intro u hu
    show unpinned s.info u = true ↔ unpinned (Function.update s.info t i) u = true
    rw [unpinned, unpinned, hqueued u hu]
  · exact h.members
  · exact h.on
  · exact h.totals

/-- Whose flags an operation leaves alone. -/
theorem onRunqueue_of_same {threads' : Threads} {f : Thread → Thread} {t u : Nat}
    (hsame : threads'.Same (threads.modify t f)) (hu : u ≠ t) :
    (threads' u).onRunqueue = (threads u).onRunqueue := by
  have hflags := (hsame u).1
  rw [Threads.modify_of_ne hu] at hflags
  rw [Thread.onRunqueue, Thread.onRunqueue, hflags]

variable (h : Ok s)
include h

theorem Ok.enqueue {preempts : Bool} (ht : t ∉ s.members) (hcurrent : t ≠ s.rq.current)
    (hq : s.rq.enqueueLocked s.info s.threads t = some (preempts, rq, threads)) :
    Ok { s with rq := rq, threads := threads, members := insert t s.members } := by
  have hfresh : t ∉ s.rq.queued := fun hmem => ht ((h.members t).2 hmem)
  obtain ⟨hinv, hperm, -, rfl⟩ := enqueueLocked_spec h.inv hfresh hcurrent hq
  constructor
  · exact hinv
  · exact enqueueLocked_counted h.inv h.counted hfresh hcurrent hq
  · intro u
    show u ∈ insert t s.members ↔ u ∈ rq.queued
    rw [Finset.mem_insert, hperm.mem_iff, List.mem_cons, h.members u]
  · intro u hu
    show ((s.threads.modify t Thread.markQueued) u).onRunqueue = true
    by_cases hut : u = t
    · rw [hut, Threads.modify_self]
      rfl
    · rw [Threads.modify_of_ne hut]
      exact h.on u ((Finset.mem_insert.1 hu).resolve_left hut)
  · exact fun hfits => enqueueLocked_exact (h.totals hfits) hq

/-- A thread leaves the queue. -/
theorem Ok.leaves (hinv : rq.Inv s.info) (hcounted : Counted s.info rq)
    (hperm : s.rq.queued.Perm (t :: rq.queued))
    (hsame : threads.Same (s.threads.modify t (Thread.setOnRunqueue false)))
    (htotals : s.fits → rq.fair.Inv) :
    Ok { s with rq := rq, threads := threads, members := s.members.erase t } := by
  have hnodup := List.nodup_cons.1 (hperm.nodup_iff.1 h.inv.nodup)
  constructor
  · exact hinv
  · exact hcounted
  · intro u
    show u ∈ s.members.erase t ↔ u ∈ rq.queued
    rw [Finset.mem_erase, h.members u, hperm.mem_iff, List.mem_cons]
    constructor
    · rintro ⟨hne, heq | hu⟩
      · exact absurd heq hne
      · exact hu
    · intro hu
      refine ⟨?_, .inr hu⟩
      rintro rfl
      exact hnodup.1 hu
  · intro u hu
    obtain ⟨hne, hu⟩ := Finset.mem_erase.1 hu
    rw [onRunqueue_of_same hsame hne]
    exact h.on u hu
  · exact htotals

theorem Ok.remove {done : Bool}
    (hq : s.rq.removeLocked s.info s.threads t = some (done, rq, threads)) :
    Ok { s with
      rq := rq, threads := threads, members := if done then s.members.erase t else s.members } := by
  have hon : ∀ u ∈ s.rq.queued, (s.threads u).onRunqueue = true :=
    fun u hu => h.on u ((h.members u).2 hu)
  obtain ⟨hcounted, hdone⟩ := removeLocked_counted h.inv h.counted hon hq
  by_cases hmem : t ∈ s.rq.queued
  · obtain ⟨hinv, hperm, -, hsame⟩ := removeLocked_spec h.inv hmem (hon t hmem) hq
    obtain rfl := hdone.2 hmem
    exact h.leaves hinv hcounted hperm hsame fun hfits => removeLocked_exact (h.totals hfits) hq
  · obtain ⟨rfl, rfl, rfl⟩ := removeLocked_absent h.inv hmem hq
    exact h

theorem Ok.steal {enough : Nat} {stolen : Option Nat}
    (hq : s.rq.trySteal s.info s.threads enough = some (stolen, rq, threads)) :
    Ok { s with
      rq := rq, threads := threads, members := stolen.elim s.members s.members.erase } := by
  have hon : ∀ u ∈ s.rq.queued, (s.threads u).onRunqueue = true :=
    fun u hu => h.on u ((h.members u).2 hu)
  rcases trySteal_spec h.inv hon hq with ⟨rfl, rfl, rfl⟩ | ⟨u, rfl, hmem, hinv, hperm, -, hsame⟩
  · exact h
  · exact h.leaves hinv (trySteal_counted h.inv h.counted hon hq) hperm hsame fun hfits =>
      trySteal_exact (h.totals hfits) hq

theorem Ok.pick {mode : PickMode} {next : Nat}
    (hq : s.rq.pickNextLocked s.info s.threads s.rq.current mode = some (next, rq, threads)) :
    Ok { s with
      rq := rq, threads := threads
      members :=
        if next = s.rq.current then s.members
        else (if runnable s.info s.threads s.rq.current mode then insert s.rq.current s.members
          else s.members).erase next } := by
  obtain ⟨hinv, houtcome⟩ := pickNextLocked_spec h.inv hq
  have hcounted := pickNextLocked_counted h.inv h.counted hq
  have htotals : s.fits → rq.fair.Inv := fun hfits => pickNextLocked_exact h.inv (h.totals hfits) hq
  generalize hstays : runnable s.info s.threads s.rq.current mode = stays at houtcome ⊢
  cases houtcome with
  | carriesOn hcan hcurrent hqueued hsame =>
    rw [if_pos rfl]
    refine ⟨hinv, hcounted, fun u => ?_, fun u hu => ?_, htotals⟩
    · rw [hqueued]
      exact h.members u
    · rw [Thread.onRunqueue, (hsame u).1]
      exact h.on u hu
  | switches hne hcurrent hnext hmem hsame =>
    rw [if_neg hne]
    -- who waits afterwards
    have hmembers :
        ∀ u, u ∈ (if stays then insert s.rq.current s.members else s.members).erase next ↔
        u ≠ next ∧ (u ∈ s.rq.queued ∨ stays = true ∧ u = s.rq.current) := by
      intro u
      rw [Finset.mem_erase]
      cases stays with
      | false => simp [h.members u]
      | true => simp [h.members u, or_comm]
    refine ⟨hinv, hcounted, fun u => (hmembers u).trans (hmem u).symm, fun u hu => ?_, htotals⟩
    obtain ⟨hunext, hu⟩ := (hmembers u).1 hu
    rw [onRunqueue_of_same hsame hunext]
    cases stays with
    | false => exact h.on u ((h.members u).2 (hu.resolve_right nofun))
    | true =>
      rw [if_pos rfl]
      by_cases hprev : u = s.rq.current
      · rw [hprev, Threads.modify_self]
        rfl
      · rw [Threads.modify_of_ne hprev]
        exact h.on u ((h.members u).2 (hu.resolve_right fun hboth => hprev hboth.2))

/-- **Every operation keeps the books right.** -/
theorem Ok.step (hstep : Step s s') : Ok s' := by
  cases hstep with
  | enqueue t ht hcurrent hq => exact h.enqueue ht hcurrent hq
  | remove t _ hq => exact h.remove hq
  | updateClock nowNs =>
    obtain ⟨hinv, hqueued, -⟩ := updateClockLocked_spec h.inv nowNs
    refine ⟨hinv, updateClockLocked_counted h.inv h.counted nowNs, fun u => ?_, h.on,
      fun hfits => ?_⟩
    · show u ∈ s.members ↔ u ∈ (s.rq.updateClockLocked nowNs).queued
      rw [hqueued]
      exact h.members u
    · exact updateClockLocked_exact (h.totals hfits.1) hfits.2
  | pick mode hq => exact h.pick hq
  | steal enough hq => exact h.steal hq
  | reclass t i ht hcurrent hi => exact h.reclass ht hcurrent hi
  | elsewhere threads hsame =>
    refine ⟨h.inv, h.counted, h.members, fun t ht => ?_, h.totals⟩
    rw [hsame t ht]
    exact h.on t ht

omit h

theorem reachable_ok (h : system.Reachable s) : Ok s :=
  h.invariant (I := Ok) (fun _ => Init.ok) fun _ _ hok hstep => hok.step hstep

/-- What can be relied on between two operations. -/
structure Sound (s : Desk) : Prop where
  /-- The FIFO of a level has the threads of that level that were put on the queue, each once, and
  nobody else. -/
  fifo : ∀ l < rtLevels, ∀ t, (s.rq.realtime l).count t = if t ∈ s.members ∧
    rtLevel (s.info t) = l then 1 else 0
  /-- The fair tree has the others. -/
  tree : ∀ t, s.rq.fair.waiting.count t = if t ∈ s.members ∧
    ¬ rtLevel (s.info t) < rtLevels then 1 else 0
  waiting : s.rq.waiting = s.members.card
  stealable : s.rq.stealable = (s.members.filter fun t => (s.info t).isPinned = false).card
  overloaded : s.rq.overloaded = true ↔ 0 < s.rq.stealable
  /-- The tail of a FIFO is its last element, and null if there is none. -/
  tail : ∀ l < rtLevels, s.rq.tail l = (s.rq.realtime l).getLast?
  /-- The current one of the fair queue is the running thread, if that is a fair thread. -/
  current : s.rq.fair.current.map Entity.id =
    if isFair s.info s.rq.current then some s.rq.current else none
  /-- Whatever `pick_next_locked` is asked, its answer is right. -/
  choice : ∀ mode next rq threads, s.rq.pickNextLocked s.info s.threads s.rq.current mode =
    some (next, rq, threads) → Choice s.info s.rq s.threads mode next
  /-- It answers, as long as no virtual runtime has gone past 2^64; the other operations do in any
  case, if they are asked for a thread that they may be asked for. -/
  answers :
    (s.fits → ∀ mode, ∃ r, s.rq.pickNextLocked s.info s.threads s.rq.current mode = some r) ∧
    (∀ t, s.Removable t → ∃ r, s.rq.removeLocked s.info s.threads t = some r) ∧
    (∀ enough, ∃ r, s.rq.trySteal s.info s.threads enough = some r) ∧
    ∀ t, (s.threads t).onRunqueue = false → t ≠ s.rq.current → (s.info t).isIdle = false →
      ∃ r, s.rq.enqueueLocked s.info s.threads t = some r

theorem Ok.members_eq (h : Ok s) : s.members = s.rq.queued.toFinset := by
  ext t
  rw [List.mem_toFinset]
  exact h.members t

theorem Ok.sound (h : Ok s) : Sound s := by
  have hnodup := h.inv.nodup
  have htree : s.rq.fair.waiting.Nodup := (List.nodup_append.1 hnodup).1
  constructor
  · intro l hl t
    rw [(h.inv.toTiers.nodup_realtime hl).count]
    refine if_congr ?_ rfl rfl
    rw [h.members t]
    constructor
    · intro ht
      exact ⟨mem_queued_of_realtime hl ht, (h.inv.realtime l hl t ht).2⟩
    · rintro ⟨ht, hlevel⟩
      have hwhere := h.inv.toTiers.mem_queued ht
      rwa [hlevel, if_pos hl] at hwhere
  · intro t
    rw [htree.count]
    refine if_congr ?_ rfl rfl
    rw [h.members t]
    constructor
    · intro ht
      have hlevel := (isFair_iff.1 (h.inv.fair t ht)).2
      exact ⟨List.mem_append_left _ ht, by omega⟩
    · rintro ⟨ht, hlevel⟩
      have hwhere := h.inv.toTiers.mem_queued ht
      rwa [if_neg hlevel] at hwhere
  · rw [h.counted.waiting, h.members_eq, List.toFinset_card_of_nodup hnodup]
  · rw [h.counted.stealable, h.members_eq, List.countP_eq_length_filter,
      ← List.toFinset_card_of_nodup (hnodup.filter _), List.toFinset_filter]
    simp [unpinned]
  · exact h.counted.overloaded
  · exact fun l _ => h.inv.tail l
  · exact h.inv.running
  · exact fun mode next rq threads hq => pickNextLocked_choice h.inv hq
  · refine ⟨fun hfits mode => ?_, fun t ht => ?_, trySteal_answers s.threads h.inv,
      fun t hoff hcurrent hidle => ?_⟩
    · exact pickNextLocked_exact_answers s.threads mode h.inv (h.totals hfits)
    · exact removeLocked_answers s.threads h.inv (ht.imp_left (h.members t).1)
    · refine enqueueLocked_answers s.threads h.inv (fun hmem => ?_) hcurrent hidle
      rw [h.on t ((h.members t).2 hmem)] at hoff
      cases hoff

end Steps

/-- **The books of the queue are right in every state of every run.** -/
theorem desk_sound (s : Desk) (h : system.Reachable s) : Sound s := (reachable_ok h).sound

/-- Thread 0 is the idle thread, thread 1 is real-time, and all others are ordinary and pinned. -/
def quiet : Desk where
  info t := ⟨if t = 0 then .idle else if t = 1 then .realTime else .normal, t == 0, decide (1 < t)⟩
  threads _ := ⟨⟨.created, false, false⟩, 0, ⟨0, 1024, nice0Weight_pos, 2 ^ 32, 1000, 0, 0, 0⟩⟩
  rq := .initialized 0
  members := ∅
  fits := True

/-- Two threads come; only the first one may be taken by another CPU. -/
theorem desk_sound_two :
    ∃ s, system.Reachable s ∧ s.rq.waiting = 2 ∧ s.rq.stealable = 1 ∧ s.rq.tail 1 = some 1 ∧
    Sound s := by
  have h : system.Reachable quiet := .init ⟨⟨0, rfl, rfl⟩, rfl, trivial⟩
  have h := h.step (Step.enqueue 1 (Finset.notMem_empty 1) (by decide) rfl)
  have h := h.step (Step.enqueue 2 (by decide) (by decide) rfl)
  exact ⟨_, h, rfl, rfl, rfl, desk_sound _ h⟩

end Desk

end Erebus.Sched
