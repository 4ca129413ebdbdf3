import Erebus.Lib.System
import Erebus.Lib.TailList
import Erebus.Sched.Eevdf

/-!
# The run queue of one CPU

Real-time threads wait in two FIFOs, all others in an `EevdfQueue`; the idle thread is on neither.
Every function here runs with the queue's lock held.

* `enqueueLocked`, `removeLocked`, `pickNextLocked`, `trySteal`: the operations; `none` is a failed
  assertion.
* `queued`: the threads that wait here.
* `Inv`: who runs and who waits, and in which tier.
* `enqueueLocked_spec`, `removeLocked_spec`, `pickNextLocked_spec`: what each does to the two.

A thread is named by a number. What of it never changes while the scheduler has it is its
`ThreadInfo`.
-/

namespace Erebus.Sched

open Function (update update_self update_of_ne)

inductive ThreadState
  | created
  | ready
  | running
  | blocked
  | sleeping
  | dead
  deriving DecidableEq

inductive PriorityClass
  | idle
  | background
  | normal
  | high
  | realTime
  | testRunner
  deriving DecidableEq

/-- The flags of a thread that are set when it is created. -/
structure ThreadInfo where
  priorityClass : PriorityClass
  isIdle : Bool
  isPinned : Bool

/-- The flags of a thread that change. -/
structure ThreadFlags where
  state : ThreadState
  onRunqueue : Bool
  scheduled : Bool

/-- A thread; `entity` is its entity while it is on no fair queue. -/
structure Thread where
  flags : ThreadFlags
  cpuId : Nat
  entity : Entity

namespace Thread

/-- `Thread::state`. -/
def state (t : Thread) : ThreadState := t.flags.state

/-- `Thread::on_runqueue`. -/
def onRunqueue (t : Thread) : Bool := t.flags.onRunqueue

/-- `Thread::set_state`. -/
def setState (state : ThreadState) (t : Thread) : Thread := { t with flags.state := state }

/-- `Thread::set_on_runqueue`. -/
def setOnRunqueue (onRunqueue : Bool) (t : Thread) : Thread :=
  { t with flags.onRunqueue := onRunqueue }

/-- `Thread::set_cpu_id`. -/
def setCpuId (cpu : Nat) (t : Thread) : Thread := { t with cpuId := cpu }

/-- `Thread::try_hand_to_scheduler`, when it succeeds, and `Thread::revoke_from_scheduler`. -/
def setScheduled (scheduled : Bool) (t : Thread) : Thread := { t with flags.scheduled := scheduled }

/-- `Entity::is_queued` of a fair thread: it is in the tree of some queue, not necessarily of the
one that is asked. A fair thread carries its mark as long as it is in a tree. -/
def isQueued (t : Thread) : Bool := t.onRunqueue

/-- `Thread::mark_queued`. -/
def markQueued (t : Thread) : Thread := { t with flags.onRunqueue := true, flags.state := .ready }

end Thread

/-- All threads. -/
abbrev Threads := Nat → Thread

/-- A thread changes its flags. -/
def Threads.modify (threads : Threads) (t : Nat) (f : Thread → Thread) : Threads :=
  Function.update threads t (f (threads t))

@[simp] theorem Threads.modify_self (threads : Threads) (t : Nat) (f : Thread → Thread) :
    threads.modify t f t = f (threads t) := update_self ..

@[simp] theorem Threads.modify_of_ne {threads : Threads} {t u : Nat}
    {f : Thread → Thread} (h : u ≠ t) : threads.modify t f u = threads u := update_of_ne h ..

/-- The same flags and CPUs; what a thread's entity looks like is the fair queue's business. -/
def Threads.Same (a b : Threads) : Prop :=
  ∀ t, (a t).flags = (b t).flags ∧ (a t).cpuId = (b t).cpuId

theorem Threads.Same.refl (a : Threads) : a.Same a := fun _ => ⟨rfl, rfl⟩

theorem Threads.Same.trans {a b c : Threads} (h : a.Same b) (h' : b.Same c) : a.Same c :=
  fun t => ⟨(h t).1.trans (h' t).1, (h t).2.trans (h' t).2⟩

/-- Two changes of one thread that differ in its entity only. -/
theorem Threads.Same.modify {a b : Threads} (h : a.Same b) {t : Nat} {f g : Thread → Thread}
    (hflags : ∀ x y : Thread, x.flags = y.flags → x.cpuId = y.cpuId →
      (f x).flags = (g y).flags ∧ (f x).cpuId = (g y).cpuId) :
      (a.modify t f).Same (b.modify t g) := by
  intro u
  by_cases hu : u = t
  · subst hu
    rw [modify_self, modify_self]
    exact hflags _ _ (h u).1 (h u).2
  · rw [modify_of_ne hu, modify_of_ne hu]
    exact h u

theorem Threads.modify_same {a : Threads} {t : Nat} {f : Thread → Thread}
    (hflags : ∀ x, (f x).flags = x.flags ∧ (f x).cpuId = x.cpuId) : (a.modify t f).Same a := by
  intro u
  by_cases hu : u = t
  · subst hu
    rw [modify_self]
    exact hflags _
  · rw [modify_of_ne hu]
    exact ⟨rfl, rfl⟩

/-- The entity of a thread, which carries the thread's name. -/
def Threads.entity (threads : Threads) (t : Nat) : Entity := { (threads t).entity with id := t }

inductive PickMode
  | voluntary
  | yield
  | preempted
  deriving DecidableEq

/-- `RT_LEVELS`. -/
def rtLevels : Nat := 2

/-- `STEAL_SCAN_LIMIT`. -/
def stealScanLimit : Nat := 8

/-- `RunQueue::rt_level`. -/
def rtLevel (info : ThreadInfo) : Nat :=
  match info.priorityClass with
  | .testRunner => 0
  | .realTime => 1
  | _ => rtLevels

structure RunQueue where
  waiting : Nat := 0
  stealable : Nat := 0
  current : Nat
  runningRealtime : Bool := false
  idleThread : Nat
  chargedUntilNs : Nat := 0
  fair : EevdfQueue := {}
  realtime : Nat → List Nat := fun _ => []
  /-- `RtFifo::tail` of each level. -/
  tail : Nat → Option Nat := fun _ => none
  dead : List Nat := []
  /-- The queue's bit in its domain's `m_overloaded`. -/
  overloaded : Bool := false

namespace RunQueue

variable (info : Nat → ThreadInfo)

/-! ## Operations -/

/-- `RunQueue::initialize`. -/
def initialized (idleThread : Nat) : RunQueue := { current := idleThread, idleThread := idleThread }

/-- `RunQueue::highest_rt_level`. -/
def highestRtLevel (rq : RunQueue) : Nat :=
  if rq.realtime 0 ≠ [] then 0 else if rq.realtime 1 ≠ [] then 1 else rtLevels

/-- `RunQueue::account_added`. -/
def accountAdded (rq : RunQueue) (t : Nat) : RunQueue :=
  { rq with
    waiting := rq.waiting + 1
    stealable := if (info t).isPinned then rq.stealable else rq.stealable + 1
    overloaded := if !(info t).isPinned && rq.stealable == 0 then true else rq.overloaded }

/-- `RunQueue::account_removed`. -/
def accountRemoved (rq : RunQueue) (t : Nat) : RunQueue :=
  { rq with
    waiting := rq.waiting - 1
    stealable := if (info t).isPinned then rq.stealable else rq.stealable - 1
    overloaded := if !(info t).isPinned && rq.stealable == 1 then false else rq.overloaded }

/-- `RunQueue::push_realtime`; `none` is a null tail. -/
def pushRealtime (rq : RunQueue) (t : Nat) (atFront : Bool) : Option RunQueue :=
  let level := rtLevel (info t)
  let list := rq.realtime level
  if atFront || list.isEmpty then
    some { rq with
      realtime := Function.update rq.realtime level (t :: list)
      tail := if list.isEmpty then Function.update rq.tail level (some t) else rq.tail }
  else
    match rq.tail level with
    | none => none
    | some last =>
      some { rq with
        realtime := Function.update rq.realtime level (TailList.insertAfter last t list)
        tail := Function.update rq.tail level (some t) }

/-- `RunQueue::pop_realtime`. -/
def popRealtime (rq : RunQueue) (level : Nat) : Option (Nat × RunQueue) :=
  match rq.realtime level with
  | [] => none
  | t :: list =>
    some (t, { rq with
      realtime := Function.update rq.realtime level list
      tail := if list.isEmpty then Function.update rq.tail level none else rq.tail })

/-- `RunQueue::remove_realtime`; `none` if the thread is not there. -/
def removeRealtime (rq : RunQueue) (t : Nat) : Option RunQueue :=
  let level := rtLevel (info t)
  match TailList.before t none (rq.realtime level) with
  | none => none
  | some before =>
    some { rq with
      realtime := Function.update rq.realtime level ((rq.realtime level).erase t)
      tail := if rq.tail level = some t then Function.update rq.tail level before else rq.tail }

/-- `RunQueue::update_clock_locked`. -/
def updateClockLocked (rq : RunQueue) (nowNs : Nat) : RunQueue :=
  if rq.chargedUntilNs < nowNs then
    { rq with fair := (rq.fair.charge (nowNs - rq.chargedUntilNs)).2, chargedUntilNs := nowNs }
  else
    rq

/-- `RunQueue::enqueue_locked`. -/
def enqueueLocked (rq : RunQueue) (threads : Threads) (t : Nat) :
    Option (Bool × RunQueue × Threads) :=
  if (info t).isIdle then
    none
  else
    let threads := threads.modify t Thread.markQueued
    let level := rtLevel (info t)
    let runningLevel := rtLevel (info rq.current)
    if level < rtLevels then
      match rq.pushRealtime info t false with
      | none => none
      | some rq =>
        let rq := rq.accountAdded info t
        some (rq.current == rq.idleThread || decide (level < runningLevel), rq, threads)
    else
      match rq.fair.enqueue (threads.entity t) with
      | none => none
      | some fair =>
        let placed := rq.fair.place (threads.entity t)
        let rq := { rq with fair := fair }.accountAdded info t
        let preempts := !decide (runningLevel < rtLevels) && fair.preemptsCurrent placed
        some (rq.current == rq.idleThread || preempts, rq, threads)

/-- `RunQueue::remove_locked`. It has no answer for a fair thread that waits on another queue: the
source erases it from this tree, which it is not in. -/
def removeLocked (rq : RunQueue) (threads : Threads) (t : Nat) :
    Option (Bool × RunQueue × Threads) :=
  if !(threads t).onRunqueue then
    some (false, rq, threads)
  else if rtLevel (info t) < rtLevels then
    match rq.removeRealtime info t with
    | none => some (false, rq, threads)
    | some rq =>
      some (true, rq.accountRemoved info t, threads.modify t (Thread.setOnRunqueue false))
  else if !(threads t).isQueued then
    some (false, rq, threads)
  else
    match rq.fair.dequeue t with
    | none => none
    | some (fair, e) =>
      some (true, { rq with fair := fair }.accountRemoved info t,
        threads.modify t fun th => { th with flags.onRunqueue := false, entity := e })

/-- `RunQueue::requeue_current_fair`. -/
def requeueCurrentFair (rq : RunQueue) (threads : Threads) : Option (RunQueue × Threads) :=
  match rq.fair.current, rq.fair.requeueCurrent with
  | some e, some fair =>
    some ({ rq with fair := fair }.accountAdded info e.id, threads.modify e.id Thread.markQueued)
  | _, _ => none

/-- `RunQueue::requeue_realtime`. -/
def requeueRealtime (rq : RunQueue) (threads : Threads) (t : Nat) (atFront : Bool) :
    Option (RunQueue × Threads) :=
  match rq.pushRealtime info t atFront with
  | none => none
  | some rq => some (rq.accountAdded info t, threads.modify t Thread.markQueued)

/-- `RunQueue::switch_in`. -/
def switchIn (rq : RunQueue) (threads : Threads) (next : Nat) : Nat × RunQueue × Threads :=
  (next, { rq with current := next, runningRealtime := decide (rtLevel (info next) < rtLevels) },
    threads.modify next (Thread.setOnRunqueue false))

/-- Whether `prev` stays in the competition when `pick_next_locked` runs. -/
def runnable (threads : Threads) (prev : Nat) (mode : PickMode) : Bool :=
  !(info prev).isIdle && (decide (mode = .preempted) || decide ((threads prev).state = .running))

/-- `pick_next_locked`, first part: `prev` leaves, or yields. -/
def filePrev (rq : RunQueue) (threads : Threads) (prev : Nat) (mode : PickMode) :
    Option (RunQueue × Threads) :=
  let prevFair := rq.fair.current.any (·.id == prev)
  if !(info prev).isIdle && !runnable info threads prev mode then
    let rq := { rq with dead := if (threads prev).state = .dead then prev :: rq.dead else rq.dead }
    if prevFair then
      match rq.fair.retireCurrent with
      | none => none
      | some (fair, e) =>
        some ({ rq with fair := fair }, threads.modify prev fun th => { th with entity := e })
    else
      some (rq, threads)
  else if prevFair && decide (mode = .yield) then
    some ({ rq with fair := rq.fair.yieldCurrent }, threads)
  else
    some (rq, threads)

/-- `pick_next_locked`, second part: somebody waits at the real-time level `top`. -/
def pickRealtime (rq : RunQueue) (threads : Threads) (prev : Nat) (mode : PickMode)
    (runnable prevFair : Bool) (top : Nat) : Option (Nat × RunQueue × Threads) :=
  let prevLevel := rtLevel (info prev)
  let prevRt := runnable && decide (prevLevel < rtLevels)
  let outranked := decide (top < prevLevel) || (decide (top = prevLevel) && decide (mode = .yield))
  if prevRt && !outranked then
    some (prev, rq, threads)
  else
    let requeued :=
      if prevRt then rq.requeueRealtime info threads prev (decide (mode = .preempted))
      else if runnable && prevFair then rq.requeueCurrentFair info threads
      else some (rq, threads)
    match requeued with
    | none => none
    | some (rq, threads) =>
      match rq.popRealtime top with
      | none => none
      | some (next, rq) => some ((rq.accountRemoved info next).switchIn info threads next)

/-- `pick_next_locked`, last part: the fair queue decides. -/
def pickFair (rq : RunQueue) (threads : Threads) (prev : Nat) : Option (Nat × RunQueue × Threads) :=
  match rq.fair.pick with
  | none => none
  | some none =>
    if prev = rq.idleThread then some (prev, rq, threads)
    else some (rq.switchIn info threads rq.idleThread)
  | some (some chosen) =>
    if rq.fair.current.any (·.id == chosen.id) then
      some (prev, rq, threads)
    else
      let requeued := if rq.fair.current.isSome then rq.requeueCurrentFair info threads
          else some (rq, threads)
      match requeued with
      | none => none
      | some (rq, threads) =>
        match rq.fair.setCurrent chosen.id with
        | none => none
        | some fair =>
          some (({ rq with fair := fair }.accountRemoved info chosen.id).switchIn info
            threads chosen.id)

/-- `RunQueue::pick_next_locked`. -/
def pickNextLocked (rq : RunQueue) (threads : Threads) (prev : Nat) (mode : PickMode) :
    Option (Nat × RunQueue × Threads) :=
  let runnable := runnable info threads prev mode
  let prevFair := rq.fair.current.any (·.id == prev)
  match rq.filePrev info threads prev mode with
  | none => none
  | some (rq, threads) =>
    let top := rq.highestRtLevel
    if top < rtLevels then
      rq.pickRealtime info threads prev mode runnable prevFair top
    else if runnable && decide (rtLevel (info prev) < rtLevels) then
      some (prev, rq, threads)
    else
      rq.pickFair info threads prev

/-- `RunQueue::spare`. -/
def spare (rq : RunQueue) :
    Nat := rq.stealable + if rq.stealable ≠ 0 ∧ rq.runningRealtime then 1 else 0

/-- `RunQueue::find_stealable`. -/
def findStealable (rq : RunQueue) : Option Nat :=
  let realtime := rq.realtime 0 ++ rq.realtime 1
  match (realtime.take stealScanLimit).find? fun t => !(info t).isPinned with
  | some t => some t
  | none =>
    (rq.fair.findLatest (fun e => !(info e.id).isPinned) (stealScanLimit - realtime.length)).map
      Entity.id

/-- `RunQueue::try_steal`, once it has the lock; the answer is the thread that was taken, if any. -/
def trySteal (rq : RunQueue) (threads : Threads) (enough : Nat) :
    Option (Option Nat × RunQueue × Threads) :=
  if rq.spare < enough then
    some (none, rq, threads)
  else
    match rq.findStealable info with
    | none => some (none, rq, threads)
    | some t =>
      match rq.removeLocked info threads t with
      | none => none
      | some (_, rq, threads) => some (some t, rq, threads)

/-! ## What the operations can do -/

section

variable {info} {rq rq' : RunQueue} {threads threads' : Threads} {t : Nat} {done : Bool}

theorem pushRealtime_same {atFront : Bool} (hq : rq.pushRealtime info t atFront = some rq') :
    rq' = { rq with realtime := rq'.realtime, tail := rq'.tail } := by
  unfold pushRealtime at hq
  simp only at hq
  split at hq
  · cases hq
    rfl
  · split at hq <;> cases hq
    rfl

theorem popRealtime_same {level : Nat} (hq : rq.popRealtime level = some (t, rq')) :
    rq' = { rq with realtime := rq'.realtime, tail := rq'.tail } := by
  unfold popRealtime at hq
  split at hq <;> cases hq
  rfl

theorem removeRealtime_same (hq : rq.removeRealtime info t = some rq') : rq' = { rq with
      realtime := update rq.realtime (rtLevel (info t)) ((rq.realtime (rtLevel (info t))).erase t)
      tail := rq'.tail } := by
  unfold removeRealtime at hq
  simp only at hq
  split at hq <;> cases hq
  rfl

theorem enqueueLocked_cases (hq : rq.enqueueLocked info threads t = some (done, rq', threads')) :
    (info t).isIdle = false ∧ threads' = threads.modify t Thread.markQueued ∧
      (rtLevel (info t) < rtLevels ∧
        (∃ rq₁, rq.pushRealtime info t false = some rq₁ ∧ rq' = rq₁.accountAdded info t) ∨
        ¬ rtLevel (info t) < rtLevels ∧ ∃ fair, rq.fair.enqueue (threads'.entity t) = some fair ∧
          rq' = { rq with fair := fair }.accountAdded info t) ∧
          (rq'.current = rq'.idleThread → done = true) := by
  unfold enqueueLocked at hq
  simp only at hq
  split at hq
  · cases hq
  rename_i hidle
  refine ⟨by rwa [Bool.not_eq_true] at hidle, ?_⟩
  split at hq
  · rename_i hl
    split at hq
    · cases hq
    rename_i rq₁ hpush
    cases hq
    exact ⟨rfl, .inl ⟨hl, rq₁, hpush, rfl⟩, fun heq => by rw [heq, beq_self_eq_true, Bool.true_or]⟩
  · rename_i hl
    split at hq
    · cases hq
    rename_i fair henqueue
    cases hq
    exact ⟨rfl, .inr ⟨hl, fair, henqueue, rfl⟩,
      fun heq => by rw [heq, beq_self_eq_true, Bool.true_or]⟩

theorem removeLocked_cases (hq : rq.removeLocked info threads t = some (done, rq', threads')) :
    (done = false ∧ rq' = rq ∧ threads' = threads ∧ ((threads t).onRunqueue = true →
        if rtLevel (info t) < rtLevels then t ∉ rq.realtime (rtLevel (info t)) else
          t ∉ rq.fair.waiting)) ∨
      done = true ∧
        (rtLevel (info t) < rtLevels ∧
          (∃ rq₁, rq.removeRealtime info t = some rq₁ ∧ rq' = rq₁.accountRemoved info t ∧
            threads' = threads.modify t (Thread.setOnRunqueue false)) ∨
          ¬ rtLevel (info t) < rtLevels ∧ ∃ fair e, rq.fair.dequeue t = some (fair, e) ∧
            rq' = { rq with fair := fair }.accountRemoved info t ∧
            threads' = threads.modify t fun th =>
              { th with flags.onRunqueue := false, entity := e }) := by
  unfold removeLocked at hq
  split at hq
  · rename_i hoff
    cases hq
    exact .inl ⟨rfl, rfl, rfl, fun hon => by rw [hon] at hoff; cases hoff⟩
  split at hq
  · rename_i hl
    split at hq
    · rename_i hnone
      cases hq
      refine .inl ⟨rfl, rfl, rfl, fun _ => ?_⟩
      simp only [removeRealtime] at hnone
      split at hnone
      · rename_i hbefore
        rw [if_pos hl]
        exact TailList.before_eq_none.1 hbefore
      · cases hnone
    · rename_i rq₁ hremove
      cases hq
      exact .inr ⟨rfl, .inl ⟨hl, rq₁, hremove, rfl, rfl⟩⟩
  rename_i hl
  split at hq
  · rename_i hmarked hnot
    exact absurd hnot hmarked
  split at hq
  · cases hq
  rename_i fair e hdequeue
  cases hq
  exact .inr ⟨rfl, .inr ⟨hl, fair, e, hdequeue, rfl, rfl⟩⟩

theorem trySteal_cases {enough : Nat} {stolen : Option Nat}
    (hq : rq.trySteal info threads enough = some (stolen, rq', threads')) :
    stolen = none ∧ rq' = rq ∧ threads' = threads ∨ ∃ t done, stolen = some t ∧
    rq.findStealable info = some t ∧
        rq.removeLocked info threads t = some (done, rq', threads') := by
  unfold trySteal at hq
  split at hq
  · cases hq
    exact .inl ⟨rfl, rfl, rfl⟩
  split at hq
  · cases hq
    exact .inl ⟨rfl, rfl, rfl⟩
  rename_i t hfind
  split at hq
  · cases hq
  rename_i done rq₁ threads₁ hremove
  cases hq
  exact .inr ⟨t, done, rfl, hfind, hremove⟩

/-- `pick_next_locked` files `prev` in the fair queue and on the dead list only. -/
theorem filePrev_same {prev : Nat} {mode : PickMode}
    (hq : rq.filePrev info threads prev mode = some (rq', threads')) :
    rq' = { rq with fair := rq'.fair, dead := rq'.dead } := by
  unfold filePrev at hq
  simp only at hq
  split at hq
  · split at hq
    · split at hq <;> cases hq
      rfl
    · cases hq
      rfl
  · split at hq <;> cases hq <;> rfl

theorem requeueCurrentFair_cases (hq : rq.requeueCurrentFair info threads = some (rq', threads')) :
    ∃ e fair, rq.fair.current = some e ∧ rq.fair.requeueCurrent = some fair ∧
      rq' = { rq with fair := fair }.accountAdded info e.id ∧
      threads' = threads.modify e.id Thread.markQueued := by
  unfold requeueCurrentFair at hq
  split at hq <;> cases hq
  rename_i e fair he hrequeue
  exact ⟨e, fair, he, hrequeue, rfl, rfl⟩

theorem requeueRealtime_cases {atFront : Bool}
    (hq : rq.requeueRealtime info threads t atFront = some (rq', threads')) :
    ∃ rq₁, rq.pushRealtime info t atFront = some rq₁ ∧ rq' = rq₁.accountAdded info t ∧
      threads' = threads.modify t Thread.markQueued := by
  unfold requeueRealtime at hq
  split at hq <;> cases hq
  rename_i rq₁ hpush
  exact ⟨rq₁, hpush, rfl, rfl⟩

end

/-! ## The invariant -/

/-- The threads that wait here. -/
def queued (rq : RunQueue) : List Nat := rq.fair.waiting ++ (rq.realtime 0 ++ rq.realtime 1)

/-- A thread for the fair queue. -/
def isFair (t : Nat) : Bool := !(info t).isIdle && !decide (rtLevel (info t) < rtLevels)

/-- Everybody who waits is in the tier of their class, once. -/
structure Tiers (rq : RunQueue) : Prop where
  shape : rq.fair.Shape
  nodup : rq.queued.Nodup
  idle : (info rq.idleThread).isIdle = true
  fair : ∀ t ∈ rq.fair.waiting, isFair info t = true
  realtime : ∀ l < rtLevels, ∀ t ∈ rq.realtime l, (info t).isIdle = false ∧ rtLevel (info t) = l
  tail : ∀ l, rq.tail l = (rq.realtime l).getLast?

/-- The queue between two lock sections. -/
structure Inv (rq : RunQueue) : Prop extends Tiers info rq where
  current : rq.current ∉ rq.queued
  idle_current : (info rq.current).isIdle = true → rq.current = rq.idleThread
  running : rq.fair.current.map Entity.id = if isFair info rq.current then some rq.current else none

section

variable {info} {rq rq' : RunQueue} {t level : Nat}

theorem rtLevel_le (i : ThreadInfo) : rtLevel i ≤ rtLevels := by
  unfold rtLevel
  split <;> decide

theorem isFair_iff :
    isFair info t = true ↔ (info t).isIdle = false ∧ rtLevel (info t) = rtLevels := by
  have := rtLevel_le (info t)
  simp only [isFair, Bool.and_eq_true, Bool.not_eq_true', decide_eq_false_iff_not, not_lt]
  exact and_congr_right fun _ => ⟨fun h => le_antisymm this h, fun h => h.ge⟩

theorem isFair_of_not_realtime (hidle : (info t).isIdle = false)
    (hl : ¬ rtLevel (info t) < rtLevels) :
    isFair info t = true := isFair_iff.2 ⟨hidle, le_antisymm (rtLevel_le _) (not_lt.1 hl)⟩

theorem level_cases (hl : level < rtLevels) : level = 0 ∨ level = 1 := by
  unfold rtLevels at hl
  omega

theorem queued_of_fair (rq rq' : RunQueue) (hfair : rq'.fair.waiting.Perm (t :: rq.fair.waiting))
    (hrt : rq'.realtime = rq.realtime) : rq'.queued.Perm (t :: rq.queued) := by
  rw [queued, queued, hrt, ← List.cons_append]
  exact hfair.append_right _

theorem queued_of_realtime (rq rq' : RunQueue) (hfair : rq'.fair = rq.fair) (hl : level < rtLevels)
    (hlevel : (rq'.realtime level).Perm (t :: rq.realtime level))
    (hother : ∀ l, l ≠ level → rq'.realtime l = rq.realtime l) :
    rq'.queued.Perm (t :: rq.queued) := by
  rw [queued, queued, hfair]
  refine List.Perm.trans (List.Perm.append_left _ ?_) List.perm_middle
  rcases level_cases hl with rfl | rfl
  · rw [hother 1 (by decide)]
    exact hlevel.append_right _
  · rw [hother 0 (by decide)]
    exact (hlevel.append_left _).trans List.perm_middle

theorem mem_queued_of_realtime (hl : level < rtLevels) (ht : t ∈ rq.realtime level) :
    t ∈ rq.queued := by
  rcases level_cases hl with rfl | rfl
  · exact List.mem_append_right _ (List.mem_append_left _ ht)
  · exact List.mem_append_right _ (List.mem_append_right _ ht)

theorem Tiers.not_idle (h : Tiers info rq) (ht : t ∈ rq.queued) : (info t).isIdle = false := by
  rcases List.mem_append.1 ht with ht | ht
  · exact (isFair_iff.1 (h.fair t ht)).1
  · rcases List.mem_append.1 ht with ht | ht
    · exact (h.realtime 0 (by decide) t ht).1
    · exact (h.realtime 1 (by decide) t ht).1

/-- A waiting thread is on the list of its level, or in the fair queue. -/
theorem Tiers.mem_queued (h : Tiers info rq) (ht : t ∈ rq.queued) :
    if rtLevel (info t) < rtLevels then t ∈ rq.realtime (rtLevel (info t)) else
      t ∈ rq.fair.waiting := by
  rcases List.mem_append.1 ht with ht | ht
  · have := isFair_iff.1 (h.fair t ht)
    rw [if_neg (by omega)]
    exact ht
  · rcases List.mem_append.1 ht with ht | ht
    · rw [(h.realtime 0 (by decide) t ht).2, if_pos (by decide)]
      exact ht
    · rw [(h.realtime 1 (by decide) t ht).2, if_pos (by decide)]
      exact ht

end

/-! ## What the operations do -/

section

variable {info} {rq rq' : RunQueue} {threads threads' : Threads} {t level : Nat} {fair : EevdfQueue}
  {list : List Nat}

variable (h : Tiers info rq)
include h

theorem Tiers.of_eq (hfair : rq'.fair = rq.fair) (hrt : rq'.realtime = rq.realtime)
    (htail : rq'.tail = rq.tail) (hidle : rq'.idleThread = rq.idleThread) : Tiers info rq' := by
  have hqueued : rq'.queued = rq.queued := by rw [queued, queued, hfair, hrt]
  refine ⟨hfair ▸ h.shape, hqueued ▸ h.nodup, hidle ▸ h.idle, hfair ▸ h.fair, hrt ▸ h.realtime, ?_⟩
  rw [hrt, htail]
  exact h.tail

/-- The fair queue turns to others of those it has. -/
theorem Tiers.same_waiting (hshape : fair.Shape) (hwaiting : fair.waiting = rq.fair.waiting) :
    Tiers info { rq with fair := fair } ∧ { rq with fair := fair }.queued = rq.queued := by
  have hqueued : { rq with fair := fair }.queued = rq.queued := by rw [queued, queued, hwaiting]
  exact ⟨⟨hshape, hqueued ▸ h.nodup, h.idle, hwaiting ▸ h.fair, h.realtime, h.tail⟩, hqueued⟩

/-- A thread comes to its tier. -/
theorem Tiers.add (hshape : rq'.fair.Shape) (hidle : rq'.idleThread = rq.idleThread)
    (hperm : rq'.queued.Perm (t :: rq.queued)) (hfresh : t ∉ rq.queued)
    (hfair : ∀ u ∈ rq'.fair.waiting, u ∈ rq.fair.waiting ∨ u = t ∧ isFair info t = true)
    (hrt : ∀ l, ∀ u ∈ rq'.realtime l, u ∈ rq.realtime l ∨ u = t ∧ (info t).isIdle = false ∧
      rtLevel (info t) = l)
    (htail : ∀ l, rq'.tail l = (rq'.realtime l).getLast?) : Tiers info rq' where
  shape := hshape
  nodup := hperm.nodup_iff.2 (List.nodup_cons.2 ⟨hfresh, h.nodup⟩)
  idle := hidle ▸ h.idle
  fair := by
    intro u hu
    rcases hfair u hu with hu | ⟨rfl, hu⟩
    · exact h.fair u hu
    · exact hu
  realtime := by
    intro l hl u hu
    rcases hrt l u hu with hu | ⟨rfl, hu⟩
    · exact h.realtime l hl u hu
    · exact hu
  tail := htail

/-- A thread leaves its tier. -/
theorem Tiers.remove (hshape : rq'.fair.Shape) (hidle : rq'.idleThread = rq.idleThread)
    (hperm : rq.queued.Perm (t :: rq'.queued)) (hfair : ∀ u ∈ rq'.fair.waiting, u ∈ rq.fair.waiting)
    (hrt : ∀ l, ∀ u ∈ rq'.realtime l, u ∈ rq.realtime l)
    (htail : ∀ l, rq'.tail l = (rq'.realtime l).getLast?) : Tiers info rq' where
  shape := hshape
  nodup := (List.nodup_cons.1 (hperm.nodup_iff.1 h.nodup)).2
  idle := hidle ▸ h.idle
  fair u hu := h.fair u (hfair u hu)
  realtime l hl u hu := h.realtime l hl u (hrt l u hu)
  tail := htail

theorem Tiers.add_fair (hshape : fair.Shape) (hwaiting : fair.waiting.Perm (t :: rq.fair.waiting))
    (hfresh : t ∉ rq.queued) (hfair : isFair info t = true) :
    Tiers info { rq with fair := fair } ∧
    { rq with fair := fair }.queued.Perm (t :: rq.queued) := by
  have hperm : { rq with fair := fair }.queued.Perm (t :: rq.queued) :=
    queued_of_fair rq _ hwaiting rfl
  refine ⟨h.add hshape rfl hperm hfresh (fun u hu => ?_) (fun l u hu => .inl hu) h.tail, hperm⟩
  exact (List.mem_cons.1 (hwaiting.mem_iff.1 hu)).elim (fun hu => .inr ⟨hu, hfair⟩) .inl

theorem Tiers.remove_fair (hshape : fair.Shape)
    (hwaiting : rq.fair.waiting.Perm (t :: fair.waiting)) :
    Tiers info { rq with fair := fair } ∧
    rq.queued.Perm (t :: { rq with fair := fair }.queued) := by
  have hperm : rq.queued.Perm (t :: { rq with fair := fair }.queued) :=
    queued_of_fair _ rq hwaiting rfl
  refine ⟨h.remove hshape rfl hperm (fun u hu => ?_) (fun l u hu => hu) h.tail, hperm⟩
  exact hwaiting.mem_iff.2 (List.mem_cons_of_mem _ hu)

theorem Tiers.remove_realtime {tail : Nat → Option Nat} (hl : level < rtLevels)
    (hlist : (rq.realtime level).Perm (t :: list))
    (htail : ∀ l, tail l = (update rq.realtime level list l).getLast?) :
    Tiers info { rq with realtime := update rq.realtime level list, tail := tail } ∧
      rq.queued.Perm
        (t :: { rq with realtime := update rq.realtime level list, tail := tail }.queued) := by
  have hperm :
      rq.queued.Perm
        (t :: { rq with realtime := update rq.realtime level list, tail := tail }.queued) := by
    refine queued_of_realtime _ rq rfl hl ?_ fun l hne => (update_of_ne hne ..).symm
    simp only [update_self]
    exact hlist
  refine ⟨h.remove h.shape rfl hperm (fun _ => id) (fun l u hu => ?_) htail, hperm⟩
  simp only at hu
  by_cases hlevel : l = level
  · subst hlevel
    rw [update_self] at hu
    exact hlist.mem_iff.2 (List.mem_cons_of_mem _ hu)
  · rwa [update_of_ne hlevel] at hu

/-- The FIFO of a level, with the others as they were. -/
theorem tail_update {last : Option Nat} (hlast : last = list.getLast?) (l : Nat) :
    update rq.tail level last l = (update rq.realtime level list l).getLast? := by
  by_cases hl : l = level
  · subst hl
    rw [update_self, update_self]
    exact hlast
  · rw [update_of_ne hl, update_of_ne hl]
    exact h.tail l

/-- A FIFO whose last element stays the last one. -/
theorem tail_keep (hlast : list.getLast? = (rq.realtime level).getLast?) (l : Nat) :
    rq.tail l = (update rq.realtime level list l).getLast? :=
  (h.tail l).trans (update_keeps List.getLast? hlast l).symm

theorem Tiers.nodup_realtime (hl : level < rtLevels) : (rq.realtime level).Nodup := by
  have hrt := (List.nodup_append.1 (List.nodup_append.1 h.nodup).2.1)
  rcases level_cases hl with rfl | rfl
  · exact hrt.1
  · exact hrt.2.1

/-- **`push_realtime`** puts the thread at the front or at the end of its FIFO. -/
theorem pushRealtime_eq (hl : rtLevel (info t) < rtLevels) (atFront : Bool) :
    ∃ tail, rq.pushRealtime info t atFront = some { rq with
        realtime := update rq.realtime (rtLevel (info t))
          (if atFront then t :: rq.realtime (rtLevel (info t))
            else rq.realtime (rtLevel (info t)) ++ [t])
        tail := tail } ∧
      ∀ l, tail l = (update rq.realtime (rtLevel (info t))
        (if atFront then t :: rq.realtime (rtLevel (info t))
          else rq.realtime (rtLevel (info t)) ++ [t]) l).getLast? := by
  unfold pushRealtime
  cases hlist : rq.realtime (rtLevel (info t)) with
  | nil =>
    refine ⟨update rq.tail (rtLevel (info t)) (some t), ?_, ?_⟩
    · cases atFront <;> simp [hlist]
    · exact tail_update h (by cases atFront <;> rfl)
  | cons first rest =>
    have hlast : (first :: rest).getLast? = some ((first :: rest).getLast (List.cons_ne_nil _ _)) :=
      List.getLast?_eq_some_getLast _
    cases atFront with
    | true =>
      refine ⟨rq.tail, ?_, ?_⟩
      · simp [hlist]
      · refine tail_keep h ?_
        rw [hlist, if_pos rfl, List.getLast?_cons_cons]
    | false =>
      refine ⟨update rq.tail (rtLevel (info t)) (some t), ?_, ?_⟩
      · have htail : rq.tail (rtLevel (info t)) =
            some ((first :: rest).getLast (List.cons_ne_nil _ _)) := by
          rw [h.tail, hlist, hlast]
        have hnodup := h.nodup_realtime hl
        rw [hlist] at hnodup
        simp only [hlist, htail, List.isEmpty_cons, Bool.or_self, Bool.false_eq_true, if_false,
          TailList.insertAfter_last hnodup hlast]
      · refine tail_update h ?_
        rw [if_neg Bool.false_ne_true, List.getLast?_append]
        rfl

theorem pushRealtime_spec {atFront : Bool} (hl : rtLevel (info t) < rtLevels)
    (hidle : (info t).isIdle = false) (hfresh : t ∉ rq.queued)
    (hq : rq.pushRealtime info t atFront = some rq') :
    Tiers info rq' ∧ rq'.queued.Perm (t :: rq.queued) ∧
    rq'.realtime = update rq.realtime (rtLevel (info t))
        (if atFront then t :: rq.realtime (rtLevel (info t))
          else rq.realtime (rtLevel (info t)) ++ [t]) ∧
      rq' = { rq with realtime := rq'.realtime, tail := rq'.tail } := by
  obtain ⟨tail, heq, htail⟩ := pushRealtime_eq h hl atFront
  rw [heq] at hq
  cases hq
  have hperm : { rq with
      realtime := update rq.realtime (rtLevel (info t))
        (if atFront then t :: rq.realtime (rtLevel (info t))
          else rq.realtime (rtLevel (info t)) ++ [t])
      tail := tail }.queued.Perm (t :: rq.queued) := by
    refine queued_of_realtime rq _ rfl hl ?_ fun l hne => ?_
    · simp only [update_self]
      split
      · exact .refl _
      · exact List.perm_append_singleton t _
    · exact update_of_ne hne ..
  refine ⟨h.add h.shape rfl hperm hfresh (fun u hu => .inl hu) ?_ htail, hperm, rfl, rfl⟩
  intro l u hu
  replace hu : u ∈ update rq.realtime (rtLevel (info t)) _ l := hu
  by_cases hlevel : l = rtLevel (info t)
  · subst hlevel
    rw [update_self] at hu
    have hmem : u = t ∨ u ∈ rq.realtime (rtLevel (info t)) := by
      split at hu
      · exact List.mem_cons.1 hu
      · exact (List.mem_append.1 hu).elim .inr fun hu => .inl (List.mem_singleton.1 hu)
    exact hmem.elim (fun hu => .inr ⟨hu, hidle, rfl⟩) .inl
  · rw [update_of_ne hlevel] at hu
    exact .inl hu

/-- The head of a real-time list leaves it. -/
theorem popRealtime_spec (hl : level < rtLevels) (hpop : rq.popRealtime level = some (t, rq')) :
    Tiers info rq' ∧ rq.queued.Perm (t :: rq'.queued) ∧ rq'.fair = rq.fair ∧
    rq'.idleThread = rq.idleThread ∧
      (rq.realtime level).head? = some t ∧ rtLevel (info t) = level := by
  unfold popRealtime at hpop
  split at hpop
  · cases hpop
  · rename_i next list hlist
    cases hpop
    have htail : ∀ l, (if list.isEmpty then update rq.tail level none else rq.tail) l =
        (update rq.realtime level list l).getLast? := by
      cases list with
      | nil => exact tail_update h rfl
      | cons second rest =>
        refine tail_keep h ?_
        rw [hlist, List.getLast?_cons_cons]
    obtain ⟨htiers, hperm⟩ := h.remove_realtime hl (.of_eq hlist) htail
    exact ⟨htiers, hperm, rfl, rfl, by rw [hlist]; rfl, (h.realtime level hl t (by simp [hlist])).2⟩

theorem removeRealtime_spec (hl : rtLevel (info t) < rtLevels)
    (hq : rq.removeRealtime info t = some rq') : Tiers info rq' ∧ rq.queued.Perm (t :: rq'.queued) ∧
      rq' = { rq with realtime := rq'.realtime, tail := rq'.tail } := by
  unfold removeRealtime at hq
  simp only at hq
  split at hq
  · cases hq
  · rename_i before hbefore
    cases hq
    have hmem : t ∈ rq.realtime (rtLevel (info t)) := by
      by_contra hnot
      rw [TailList.before_eq_none.2 hnot] at hbefore
      cases hbefore
    have htail :
        ∀ l, (if rq.tail (rtLevel (info t)) = some t then update rq.tail (rtLevel (info t)) before
        else rq.tail) l =
          (update rq.realtime (rtLevel (info t)) ((rq.realtime (rtLevel (info t))).erase t)
            l).getLast? := by
      simp only [h.tail]
      split
      · rename_i hlast
        refine tail_update h ?_
        rw [TailList.before_last (h.nodup_realtime hl) hlast hbefore]
        split
        · rename_i halone
          rw [halone]
          simp
        · rfl
      · rename_i hlast
        exact tail_keep h (TailList.erase_last hmem hlast)
    obtain ⟨htiers, hperm⟩ := h.remove_realtime hl (List.perm_cons_erase hmem) htail
    exact ⟨htiers, hperm, rfl⟩

omit h

/-- The same thread runs, and does not wait. -/
theorem Inv.of_tiers (h : Inv info rq) (htiers : Tiers info rq')
    (hcurrent : rq'.current = rq.current)
    (hidle : rq'.idleThread = rq.idleThread)
    (hrunning : rq'.fair.current.map Entity.id = rq.fair.current.map Entity.id)
    (hnot : rq.current ∉ rq'.queued) : Inv info rq' := by
  refine ⟨htiers, hcurrent ▸ hnot, ?_, ?_⟩
  · rw [hcurrent, hidle]
    exact h.idle_current
  · rw [hcurrent, hrunning]
    exact h.running

theorem updateClockLocked_spec (h : Inv info rq) (now : Nat) :
    Inv info (rq.updateClockLocked now) ∧ (rq.updateClockLocked now).queued = rq.queued ∧
      (rq.updateClockLocked now).current = rq.current ∧
      (rq.updateClockLocked now).idleThread = rq.idleThread := by
  unfold updateClockLocked
  split
  · have hwaiting : (rq.fair.charge (now - rq.chargedUntilNs)).2.waiting = rq.fair.waiting := by
      rw [EevdfQueue.waiting, EevdfQueue.waiting, EevdfQueue.charge_tree]
    obtain ⟨htiers, hqueued⟩ :=
      h.toTiers.same_waiting (h.shape.charge (now - rq.chargedUntilNs)) hwaiting
    refine ⟨h.of_tiers (htiers.of_eq rfl rfl rfl rfl) rfl rfl ?_ (hqueued ▸ h.current),
      hqueued, rfl, rfl⟩
    rw [EevdfQueue.charge_current]
  · exact ⟨h, rfl, rfl, rfl⟩

/-- **`enqueue_locked`** adds the thread to those who wait. -/
theorem enqueueLocked_spec {preempts : Bool} (h : Inv info rq) (hfresh : t ∉ rq.queued)
    (hcurrent : t ≠ rq.current)
    (hq : rq.enqueueLocked info threads t = some (preempts, rq', threads')) :
    Inv info rq' ∧ rq'.queued.Perm (t :: rq.queued) ∧ rq'.current = rq.current ∧
      threads' = threads.modify t Thread.markQueued := by
  have hstill : ∀ {rq₁ : RunQueue}, rq₁.queued.Perm (t :: rq.queued) → rq.current ∉ rq₁.queued :=
    fun hperm hmem =>
    (List.mem_cons.1 (hperm.mem_iff.1 hmem)).elim (fun heq => hcurrent heq.symm) h.current
  obtain ⟨hidle, rfl, ⟨hl, rq₁, hpush, rfl⟩ | ⟨hl, fair, henqueue, rfl⟩, -⟩ :=
    enqueueLocked_cases hq
  · obtain ⟨htiers, hperm, -, hsame⟩ := pushRealtime_spec h.toTiers hl hidle hfresh hpush
    have hcur : rq₁.current = rq.current := by rw [hsame]
    refine ⟨h.of_tiers (htiers.of_eq rfl rfl rfl rfl) hcur ?_ ?_ (hstill hperm), hperm, hcur, rfl⟩
    · rw [accountAdded, hsame]
    · rw [accountAdded, hsame]
  · obtain ⟨-, -, htree, hsame⟩ := EevdfQueue.enqueue_spec h.shape henqueue
    obtain ⟨htiers, hperm⟩ :=
      h.toTiers.add_fair (h.shape.enqueue henqueue) (htree.map Entity.id) hfresh
      (isFair_of_not_realtime hidle hl)
    refine ⟨h.of_tiers (htiers.of_eq rfl rfl rfl rfl) rfl rfl ?_ (hstill hperm), hperm, rfl, rfl⟩
    show fair.current.map Entity.id = _
    rw [hsame]
    rfl

/-- **`remove_locked`** takes a waiting thread off the queue. -/
theorem removeLocked_spec {done : Bool} (h : Inv info rq) (hmem : t ∈ rq.queued)
    (hon : (threads t).onRunqueue = true)
    (hq : rq.removeLocked info threads t = some (done, rq', threads')) :
    Inv info rq' ∧ rq.queued.Perm (t :: rq'.queued) ∧ rq'.current = rq.current ∧
      threads'.Same (threads.modify t (Thread.setOnRunqueue false)) := by
  have hwhere := h.toTiers.mem_queued hmem
  -- whoever is not on the queue before is not on it afterwards
  have hstill : ∀ {rq₁ : RunQueue}, rq.queued.Perm (t :: rq₁.queued) → rq.current ∉ rq₁.queued :=
    fun hperm hc => h.current (hperm.mem_iff.2 (List.mem_cons_of_mem _ hc))
  obtain ⟨-, -, -, hnot⟩ | ⟨-,
      ⟨hl, rq₁, hremove, rfl, rfl⟩ | ⟨hl, fair, gone, hdequeue, rfl, rfl⟩⟩ :=
    removeLocked_cases hq
  · have habsent := hnot hon
    split at hwhere <;> rename_i hl
    · rw [if_pos hl] at habsent
      exact absurd hwhere habsent
    · rw [if_neg hl] at habsent
      exact absurd hwhere habsent
  · obtain ⟨htiers, hperm, hsame⟩ := removeRealtime_spec h.toTiers hl hremove
    have hcurrent : rq₁.current = rq.current := by rw [hsame]
    refine ⟨h.of_tiers (htiers.of_eq rfl rfl rfl rfl) hcurrent ?_ ?_ (hstill hperm), hperm,
      hcurrent, .refl _⟩
    · rw [accountRemoved, hsame]
    · rw [accountRemoved, hsame]
  · obtain ⟨e, hid, -, htree, -, hsame, -⟩ := EevdfQueue.dequeue_spec h.shape hdequeue
    have hwaiting : rq.fair.waiting.Perm (e.id :: fair.waiting) := htree.map Entity.id
    obtain ⟨htiers, hperm⟩ := h.toTiers.remove_fair (h.shape.dequeue hdequeue) (hid ▸ hwaiting)
    refine ⟨h.of_tiers (htiers.of_eq rfl rfl rfl rfl) rfl rfl ?_ (hstill hperm), hperm, rfl, ?_⟩
    · show fair.current.map Entity.id = _
      rw [hsame]
      rfl
    · exact (Threads.Same.refl _).modify fun x y hflags hcpu =>
        ⟨by simp [Thread.setOnRunqueue, hflags], hcpu⟩

theorem findStealable_mem (h : rq.findStealable info = some t) : t ∈ rq.queued := by
  unfold findStealable at h
  simp only at h
  split at h
  · rename_i found hfound
    cases h
    exact List.mem_append_right _ (List.mem_of_mem_take (List.mem_of_find?_eq_some hfound))
  · rw [Option.map_eq_some_iff] at h
    obtain ⟨e, he, rfl⟩ := h
    have hmem := List.mem_of_mem_take (List.mem_of_find?_eq_some he)
    exact List.mem_append_left _ (List.mem_map_of_mem (List.mem_reverse.1 hmem))

/-- **`try_steal`** leaves everything alone, or takes one waiting thread off the queue. -/
theorem trySteal_spec {enough : Nat} {stolen : Option Nat} (h : Inv info rq)
    (hon : ∀ t ∈ rq.queued, (threads t).onRunqueue = true)
    (hq : rq.trySteal info threads enough = some (stolen, rq', threads')) :
    stolen = none ∧ rq' = rq ∧ threads' = threads ∨
      ∃ t, stolen = some t ∧ t ∈ rq.queued ∧ Inv info rq' ∧ rq.queued.Perm (t :: rq'.queued) ∧
        rq'.current = rq.current ∧
        threads'.Same (threads.modify t (Thread.setOnRunqueue false)) := by
  refine (trySteal_cases hq).imp_right fun ⟨t, done, hstolen, hfind, hremove⟩ => ?_
  have hmem := findStealable_mem hfind
  exact ⟨t, hstolen, hmem, removeLocked_spec h hmem (hon t hmem) hremove⟩

end

/-! ## `pick_next_locked` -/

/-- What `pick_next_locked` leaves behind: either `prev` carries on, which it must be able to, or
somebody else runs, and `prev` waits if `stays` says so. -/
inductive Outcome (rq rq' : RunQueue) (threads threads' : Threads) (prev : Nat)
    (stays : Bool) : Nat → Prop
  | carriesOn : stays = true ∨ (info prev).isIdle = true → rq'.current = prev →
      rq'.queued = rq.queued →
        threads'.Same threads → Outcome rq rq' threads threads' prev stays prev
  | switches {next : Nat} : next ≠ prev → rq'.current = next → next = rq.idleThread ∨
      next ∈ rq.queued →
        (∀ u, u ∈ rq'.queued ↔ u ≠ next ∧ (u ∈ rq.queued ∨ stays = true ∧ u = prev)) → threads'.Same
          ((if stays then threads.modify prev Thread.markQueued else threads).modify next
            (Thread.setOnRunqueue false)) → Outcome rq rq' threads threads' prev stays next

/-- The queue and the threads `pick_next_locked` ends with. -/
abbrev Ends (rq : RunQueue) (threads : Threads) (prev : Nat) (stays : Bool) (next : Nat)
    (p : RunQueue × Threads) : Prop :=
  Inv info p.1 ∧ Outcome info rq p.1 threads p.2 prev stays next

/-- Once `prev`, if it stays, waits like the others. -/
structure Requeued (rq rq' : RunQueue) (threads threads' : Threads) (prev : Nat)
    (stays : Bool) : Prop where
  tiers : Tiers info rq'
  idleThread : rq'.idleThread = rq.idleThread
  queued : rq'.queued.Perm (if stays then prev :: rq.queued else rq.queued)
  threads : threads'.Same (if stays then threads.modify prev Thread.markQueued else threads)
  fair : rq'.fair.current = none

/-- Once `prev` left, or yielded. -/
structure Filed (rq rq₁ : RunQueue) (threads threads₁ : Threads) (stays : Bool) : Prop where
  tiers : Tiers info rq₁
  current : rq₁.current = rq.current
  idleThread : rq₁.idleThread = rq.idleThread
  queued : rq₁.queued = rq.queued
  threads : threads₁.Same threads
  running : rq₁.fair.current.map Entity.id = if stays && isFair info rq.current then
    some rq.current else none

/-- How `pick_next_locked` puts `prev` back before another thread runs. -/
inductive Refiles (rq : RunQueue) (threads : Threads) (prev : Nat) (mode : PickMode) :
    Bool → RunQueue → Threads → Prop
  | realtime {rq' : RunQueue} {threads' : Threads} :
      (info prev).isIdle = false → rtLevel (info prev) < rtLevels →
        rq.requeueRealtime info threads prev (decide (mode = .preempted)) = some (rq', threads') →
        Refiles rq threads prev mode true rq' threads'
  | fair {rq' : RunQueue} {threads' : Threads} : isFair info prev = true →
      rq.fair.current.map Entity.id = some prev →
        rq.requeueCurrentFair info threads = some (rq', threads') →
        Refiles rq threads prev mode true rq' threads'
  | gone : Refiles rq threads prev mode false rq threads

/-- What `pick_next_locked` can do once `prev` is filed. -/
inductive Picks (rq : RunQueue) (threads : Threads) (prev : Nat) (mode : PickMode) (stays : Bool) :
    Nat → RunQueue → Threads → Prop
  /-- Nobody who waits outranks a real-time thread. -/
  | realtime : stays = true → rtLevel (info prev) < rtLevels →
      rtLevel (info prev) ≤ rq.highestRtLevel →
        (mode = .yield → rtLevel (info prev) ≠ rq.highestRtLevel) →
        Picks rq threads prev mode stays prev rq threads
  /-- The head of the highest level. -/
  | head {next : Nat} {rq₁ rq₂ : RunQueue} {threads₁ : Threads} :
      rq.highestRtLevel < rtLevels → Refiles info rq threads prev mode stays rq₁ threads₁ →
        (stays = true → rtLevel (info prev) < rtLevels → rq.highestRtLevel < rtLevel (info prev) ∨
          rq.highestRtLevel = rtLevel (info prev) ∧ mode = .yield) →
        rq₁.popRealtime rq.highestRtLevel = some (next, rq₂) →
        Picks rq threads prev mode stays next
          ((rq₂.accountRemoved info next).switchIn info threads₁ next).2.1
          ((rq₂.accountRemoved info next).switchIn info threads₁ next).2.2
  /-- Nobody waits, and the idle thread runs already. -/
  | idles : ¬ rq.highestRtLevel < rtLevels → stays = false → rq.fair.pick = some none →
      prev = rq.idleThread → Picks rq threads prev mode stays prev rq threads
  | idle : ¬ rq.highestRtLevel < rtLevels → stays = false → rq.fair.pick = some none →
      prev ≠ rq.idleThread →
        Picks rq threads prev mode stays rq.idleThread (rq.switchIn info threads rq.idleThread).2.1
          (rq.switchIn info threads rq.idleThread).2.2
  /-- The fair queue chooses `prev`. -/
  | current {chosen : Entity} :
      ¬ rq.highestRtLevel < rtLevels → stays = true → isFair info prev = true →
      rq.fair.pick = some (some chosen) →
        chosen.id = prev → Picks rq threads prev mode stays prev rq threads
  | chosen {chosen : Entity} {rq₁ : RunQueue} {threads₁ : Threads} {fair : EevdfQueue} :
      ¬ rq.highestRtLevel < rtLevels → (stays = true → isFair info prev = true) →
      rq.fair.pick = some (some chosen) →
        chosen.id ∈ rq.fair.waiting → Refiles info rq threads prev mode stays rq₁ threads₁ →
        rq₁.fair.setCurrent chosen.id = some fair → Picks rq threads prev mode stays chosen.id
          (({ rq₁ with fair := fair }.accountRemoved info chosen.id).switchIn info threads₁
            chosen.id).2.1
          (({ rq₁ with fair := fair }.accountRemoved info chosen.id).switchIn info threads₁
            chosen.id).2.2

section Picking

variable {info} {rq rq₁ rq₂ rq' : RunQueue} {threads threads₁ threads₂ threads' : Threads}
  {prev next top : Nat} {mode : PickMode} {stays : Bool}

theorem filePrev_spec (h : Inv info rq)
    (hq : rq.filePrev info threads rq.current mode = some (rq₁, threads₁)) :
    Filed info rq rq₁ threads threads₁ (runnable info threads rq.current mode) := by
  have hrunning := h.running
  unfold filePrev at hq
  simp only at hq
  split at hq
  · rename_i hleaves
    simp only [Bool.and_eq_true, Bool.not_eq_true'] at hleaves
    rw [hleaves.2]
    split at hq
    · split at hq
      · cases hq
      · rename_i fair gone hretire
        cases hq
        have hshape := h.shape.retireCurrent hretire
        obtain ⟨e, -, rfl, -⟩ := EevdfQueue.retireCurrent_spec hretire
        exact ⟨⟨hshape, h.nodup, h.idle, h.fair, h.realtime, h.tail⟩, rfl, rfl, rfl,
          Threads.modify_same fun _ => ⟨rfl, rfl⟩, rfl⟩
    · rename_i hnot
      cases hq
      refine ⟨h.toTiers.of_eq rfl rfl rfl rfl, rfl, rfl, rfl, Threads.Same.refl _, ?_⟩
      -- not the current one of the fair queue, so that has none
      show rq.fair.current.map Entity.id = none
      cases hcurrent : rq.fair.current with
      | none => rfl
      | some e =>
        rw [hcurrent, Option.map_some] at hrunning
        split at hrunning
        · rw [hcurrent, Option.any_some, beq_iff_eq] at hnot
          exact absurd (Option.some.inj hrunning) hnot
        · cases hrunning
  · rename_i hstays
    have hfair : (runnable info threads rq.current mode && isFair info rq.current) =
        isFair info rq.current := by
      cases hidle : (info rq.current).isIdle with
      | true => simp [isFair, hidle]
      | false =>
        rw [hidle] at hstays
        simp only [Bool.not_false, Bool.true_and, Bool.not_eq_true', Bool.not_eq_false] at hstays
        rw [hstays, Bool.true_and]
    split at hq
    · cases hq
      have hwaiting : rq.fair.yieldCurrent.waiting = rq.fair.waiting := by
        rw [EevdfQueue.waiting, EevdfQueue.waiting, EevdfQueue.yieldCurrent_tree]
      obtain ⟨htiers, hqueued⟩ := h.toTiers.same_waiting h.shape.yieldCurrent hwaiting
      refine ⟨htiers, rfl, rfl, hqueued, .refl _, ?_⟩
      rw [hfair, EevdfQueue.yieldCurrent_current]
      exact hrunning
    · cases hq
      exact ⟨h.toTiers, rfl, rfl, rfl, .refl _, by rw [hfair]; exact hrunning⟩

/-- The current entity of the fair queue goes back to the others. -/
theorem requeueCurrentFair_spec (h : Tiers info rq) (hfresh : prev ∉ rq.queued)
    (hfair : isFair info prev = true) (hcurrent : rq.fair.current.map Entity.id = some prev)
    (hq : rq.requeueCurrentFair info threads = some (rq', threads')) :
    Requeued info rq rq' threads threads' prev true := by
  obtain ⟨e, fair, he, hrequeue, rfl, rfl⟩ := requeueCurrentFair_cases hq
  rw [he] at hcurrent
  obtain rfl := Option.some.inj hcurrent
  have hshape := h.shape.requeueCurrent hrequeue
  obtain ⟨e₁, he₁, -, htree, hsame⟩ := EevdfQueue.requeueCurrent_spec h.shape hrequeue
  rw [he] at he₁
  cases he₁
  obtain ⟨htiers, hperm⟩ := h.add_fair hshape (htree.map Entity.id) hfresh hfair
  exact ⟨htiers.of_eq rfl rfl rfl rfl, rfl, hperm, Threads.Same.refl _,
    show fair.current = none by rw [hsame]⟩

theorem requeueRealtime_spec {atFront : Bool} (h : Tiers info rq) (hfresh : prev ∉ rq.queued)
    (hidle : (info prev).isIdle = false) (hl : rtLevel (info prev) < rtLevels)
    (hcurrent : rq.fair.current = none)
    (hq : rq.requeueRealtime info threads prev atFront = some (rq', threads')) :
    Requeued info rq rq' threads threads' prev true ∧
    rq'.realtime = update rq.realtime (rtLevel (info prev))
        (if atFront then prev :: rq.realtime (rtLevel (info prev))
          else rq.realtime (rtLevel (info prev)) ++ [prev]) := by
  obtain ⟨rq₁, hpush, rfl, rfl⟩ := requeueRealtime_cases hq
  obtain ⟨htiers, hperm, hrt, hsame⟩ := pushRealtime_spec h hl hidle hfresh hpush
  refine ⟨⟨htiers.of_eq rfl rfl rfl rfl, ?_, hperm, Threads.Same.refl _, ?_⟩, hrt⟩
  · rw [accountAdded, hsame]
  · rw [show (rq₁.accountAdded info prev).fair = rq.fair by rw [accountAdded, hsame]]
    exact hcurrent

/-- **The switch**: the chosen thread leaves those who wait and runs. -/
theorem switchIn_spec (rq₂ : RunQueue)
    (hrequeued : Requeued info rq rq₁ threads threads₁ prev stays) (hprev : prev ∉ rq.queued)
    (hnext : next ∈ rq.queued) (htiers : Tiers info rq₂)
    (hperm : rq₁.queued.Perm (next :: rq₂.queued))
    (hrunning : rq₂.fair.current.map Entity.id = if isFair info next then some next else none) :
    Ends info rq threads prev stays next (rq₂.switchIn info threads₁ next).2 := by
  have hnodup := List.nodup_cons.1 (hperm.nodup_iff.1 hrequeued.tiers.nodup)
  have hnotidle : (info next).isIdle = false :=
    hrequeued.tiers.not_idle (hperm.mem_iff.2 List.mem_cons_self)
  refine ⟨⟨htiers.of_eq rfl rfl rfl rfl, hnodup.1, fun h => ?_, hrunning⟩, ?_⟩
  · rw [show (rq₂.switchIn info threads₁ next).2.1.current = next from rfl, hnotidle] at h
    cases h
  · refine .switches ?_ rfl (.inr hnext) (fun u => ?_) ?_
    · rintro rfl
      exact hprev hnext
    · have hmem : u ∈ rq₁.queued ↔ u ∈ rq.queued ∨ stays = true ∧ u = prev := by
        rw [hrequeued.queued.mem_iff]
        cases stays <;> simp [or_comm]
      rw [← hmem, hperm.mem_iff, List.mem_cons]
      show u ∈ rq₂.queued ↔ _
      constructor
      · intro hu
        exact ⟨fun heq => hnodup.1 (heq ▸ hu), .inr hu⟩
      · rintro ⟨hne, heq | hu⟩
        · exact absurd heq hne
        · exact hu
    · exact hrequeued.threads.modify fun x y hflags hcpu =>
        ⟨by simp [Thread.setOnRunqueue, hflags], hcpu⟩

theorem realtime_of_lt_highest {level : Nat} (hlt : level < rq.highestRtLevel) :
    rq.realtime level = [] := by
  unfold highestRtLevel at hlt
  split at hlt
  · cases hlt
  rename_i h0
  split at hlt
  · rw [Nat.lt_one_iff.1 hlt]
    exact not_not.1 h0
  · rename_i h1
    rcases level_cases hlt with rfl | rfl
    · exact not_not.1 h0
    · exact not_not.1 h1

theorem realtime_of_highest (h : rq.highestRtLevel < rtLevels) :
    rq.realtime rq.highestRtLevel ≠ [] := by
  unfold highestRtLevel at h ⊢
  split
  · assumption
  · rename_i h0
    rw [if_neg h0] at h
    split
    · assumption
    · rename_i h1
      rw [if_neg h1] at h
      exact absurd h (lt_irrefl _)

variable (hfiled : Filed info rq rq₁ threads threads₁ stays)
include hfiled

theorem Filed.prev_notin (h : Inv info rq) : rq.current ∉ rq₁.queued := hfiled.queued ▸ h.current

theorem Filed.inv (h : Inv info rq) (hstays : stays = true ∨ (info rq.current).isIdle = true) :
    Inv info rq₁ := by
  refine h.of_tiers hfiled.tiers hfiled.current hfiled.idleThread ?_ (hfiled.prev_notin h)
  have hfair : (stays && isFair info rq.current) = isFair info rq.current := by
    rcases hstays with hstays | hidle
    · rw [hstays, Bool.true_and]
    · simp [isFair, hidle]
  rw [hfiled.running, hfair, h.running]

theorem Filed.carriesOn (hstays : stays = true ∨ (info rq.current).isIdle = true) :
    Outcome info rq rq₁ threads threads₁ rq.current stays rq.current :=
  .carriesOn hstays hfiled.current hfiled.queued hfiled.threads

/-- The first part of `pick_next_locked` left nothing behind that the outcome would show. -/
theorem Filed.outcome (h : Outcome info rq₁ rq' threads₁ threads' rq.current stays next) :
    Outcome info rq rq' threads threads' rq.current stays next := by
  cases h with
  | carriesOn hstays hcurrent hqueued hthreads =>
    exact .carriesOn hstays hcurrent (hqueued.trans hfiled.queued) (hthreads.trans hfiled.threads)
  | switches hne hcurrent hnext hmem hthreads =>
    rw [hfiled.queued, hfiled.idleThread] at hnext
    rw [hfiled.queued] at hmem
    refine .switches hne hcurrent hnext hmem (hthreads.trans ?_)
    have hsame : (if stays then threads₁.modify rq.current Thread.markQueued else threads₁).Same
        (if stays then threads.modify rq.current Thread.markQueued else threads) := by
      cases stays with
      | false => exact hfiled.threads
      | true =>
        exact hfiled.threads.modify fun x y hflags hcpu =>
          ⟨by simp [Thread.markQueued, hflags], hcpu⟩
    exact hsame.modify fun x y hflags hcpu => ⟨by simp [Thread.setOnRunqueue, hflags], hcpu⟩

/-- Nobody runs on the fair queue's behalf if `prev` is not its own and staying. -/
theorem Filed.fair_none (h : (stays && isFair info rq.current) = false) :
    rq₁.fair.current = none := by
  have hrunning := hfiled.running
  rw [h] at hrunning
  exact Option.map_eq_none_iff.1 hrunning

omit hfiled

/-- Nobody to requeue. -/
theorem Filed.requeued (hfiled : Filed info rq rq₁ threads threads₁ false) :
    Requeued info rq₁ rq₁ threads₁ threads₁ rq.current false :=
  ⟨hfiled.tiers, rfl, List.Perm.refl _, Threads.Same.refl _, hfiled.fair_none rfl⟩

include hfiled in
/-- Once `prev` is filed, the head of the list runs. -/
theorem Filed.popped (h : Inv info rq) (htop : top < rtLevels)
    (hrequeued : Requeued info rq₁ rq₂ threads₁ threads₂ rq.current stays)
    (hpop : rq₂.popRealtime top = some (next, rq')) (hnext : next ∈ rq₁.queued) :
    Ends info rq threads rq.current stays next
      ((rq'.accountRemoved info next).switchIn info threads₂ next).2 := by
  obtain ⟨htiers, hperm, hfair, -, -, hlevel⟩ := popRealtime_spec hrequeued.tiers htop hpop
  have hrunning : (rq'.accountRemoved info next).fair.current.map Entity.id =
      if isFair info next then some next else none := by
    rw [show (rq'.accountRemoved info next).fair = rq₂.fair from hfair, hrequeued.fair,
      if_neg (by rw [isFair_iff]; omega)]
    rfl
  obtain ⟨hinv, houtcome⟩ :=
    switchIn_spec (rq'.accountRemoved info next) hrequeued (hfiled.prev_notin h) hnext
    (htiers.of_eq rfl rfl rfl rfl) hperm hrunning
  exact ⟨hinv, hfiled.outcome houtcome⟩

/-- Whoever waited before `prev` came back is another. -/
theorem Requeued.mem (hrequeued : Requeued info rq₁ rq₂ threads₁ threads₂ prev stays)
    (hnext : next ∈ rq₂.queued) (hne : next ≠ prev) : next ∈ rq₁.queued := by
  have hmem := hrequeued.queued.mem_iff.1 hnext
  split at hmem
  · exact (List.mem_cons.1 hmem).resolve_left hne
  · exact hmem

theorem not_idle_of_runnable (h : runnable info threads prev mode = true) :
    (info prev).isIdle = false := by
  rw [runnable, Bool.and_eq_true, Bool.not_eq_true'] at h
  exact h.1

include hfiled in
theorem Filed.pickRealtime (h : Inv info rq)
    (hidle : stays = true → (info rq.current).isIdle = false) (htop : rq₁.highestRtLevel < rtLevels)
    (hq : rq₁.pickRealtime info threads₁ rq.current mode stays
      (rq.fair.current.any (·.id == rq.current)) rq₁.highestRtLevel = some (next, rq', threads')) :
    Picks info rq₁ threads₁ rq.current mode stays next rq' threads' := by
  unfold RunQueue.pickRealtime at hq
  simp only at hq
  split at hq
  · rename_i hcarries
    simp only [Bool.and_eq_true, Bool.not_eq_true', Bool.or_eq_false_iff, decide_eq_true_eq,
      decide_eq_false_iff_not, not_lt, Bool.and_eq_false_iff] at hcarries
    cases hq
    refine .realtime hcarries.1.1 hcarries.1.2 hcarries.2.1 fun hyield heq => ?_
    exact hcarries.2.2.elim (fun hne => hne heq.symm) fun hne => hne hyield
  rename_i hout
  split at hq
  · cases hq
  rename_i rq₂ threads₂ hrequeue
  split at hq
  · cases hq
  rename_i n rq₃ hpop
  cases hq
  refine .head htop ?_ (fun hstays hl => ?_) hpop
  · split at hrequeue
    · rename_i hrt
      simp only [Bool.and_eq_true, decide_eq_true_eq] at hrt
      obtain ⟨rfl, hl⟩ := hrt
      exact .realtime (hidle rfl) hl hrequeue
    rename_i hnotrt
    cases stays with
    | false =>
      cases hrequeue
      exact .gone
    | true =>
      -- a thread that stays and is not real-time is the fair queue's
      rw [Bool.true_and, decide_eq_true_eq] at hnotrt
      have hfair := isFair_of_not_realtime (hidle rfl) hnotrt
      have hrunning := h.running
      rw [hfair, if_pos rfl, Option.map_eq_some_iff] at hrunning
      obtain ⟨e, he, hid⟩ := hrunning
      rw [he, Option.any_some, hid, beq_self_eq_true] at hrequeue
      exact .fair hfair (by rw [hfiled.running, hfair]; rfl) hrequeue
  · subst hstays
    simp only [Bool.true_and, decide_eq_true hl, Bool.not_eq_true', Bool.not_eq_false,
      Bool.or_eq_true, Bool.and_eq_true, decide_eq_true_eq] at hout
    exact hout

include hfiled in
theorem Filed.pickFair (hstays : stays = true → isFair info rq.current = true)
    (htop : ¬ rq₁.highestRtLevel < rtLevels)
    (hq : rq₁.pickFair info threads₁ rq.current = some (next, rq', threads')) :
    Picks info rq₁ threads₁ rq.current mode stays next rq' threads' := by
  have hrunning : rq₁.fair.current.map Entity.id = if stays then some rq.current else none := by
    rw [hfiled.running]
    cases stays with
    | false => rfl
    | true => rw [hstays rfl, Bool.and_self]
  unfold RunQueue.pickFair at hq
  split at hq
  · cases hq
  · rename_i hpick
    have hgone : stays = false := by
      rw [(hfiled.tiers.shape.pick_none hpick).1] at hrunning
      cases stays with
      | false => rfl
      | true => cases hrunning
    split at hq
    · rename_i heq
      cases hq
      exact .idles htop hgone hpick heq
    · rename_i hne
      cases hq
      exact .idle htop hgone hpick hne
  · rename_i chosen hpick
    split at hq
    · rename_i hcurrent
      cases hq
      rw [Option.any_eq_true] at hcurrent
      obtain ⟨e, he, hid⟩ := hcurrent
      rw [beq_iff_eq] at hid
      rw [he] at hrunning
      cases stays with
      | false => cases hrunning
      | true =>
        exact .current htop rfl (hstays rfl) hpick (hid.symm.trans (Option.some.inj hrunning))
    rename_i hother
    -- chosen from those who wait
    have hchosen := hfiled.tiers.shape.pick_waits hpick hother
    simp only at hq
    split at hq
    · cases hq
    rename_i rq₂ threads₂ hrequeue
    split at hq
    · cases hq
    rename_i fair hset
    cases hq
    refine .chosen htop hstays hpick hchosen ?_ hset
    cases stays with
    | false =>
      rw [Option.map_eq_none_iff.1 hrunning] at hrequeue
      cases hrequeue
      exact .gone
    | true =>
      have hsome : rq₁.fair.current.isSome = true := by
        rw [← Option.isSome_map (f := Entity.id), hrunning]
        rfl
      rw [hsome, if_pos rfl] at hrequeue
      exact .fair (hstays rfl) hrunning hrequeue

/-- **What `pick_next_locked` can do.** -/
theorem pickNextLocked_picks (h : Inv info rq)
    (hq : rq.pickNextLocked info threads rq.current mode = some (next, rq', threads')) :
    ∃ rq₁ threads₁, rq.filePrev info threads rq.current mode = some (rq₁, threads₁) ∧
      Filed info rq rq₁ threads threads₁ (runnable info threads rq.current mode) ∧
      Picks info rq₁ threads₁ rq.current mode (runnable info threads rq.current mode)
        next rq' threads' := by
  unfold pickNextLocked at hq
  simp only at hq
  split at hq
  · cases hq
  rename_i rq₁ threads₁ hfile
  have hfiled := filePrev_spec h hfile
  refine ⟨rq₁, threads₁, hfile, hfiled, ?_⟩
  split at hq
  · rename_i htop
    exact hfiled.pickRealtime h not_idle_of_runnable htop hq
  rename_i htop
  split at hq
  · rename_i hrt
    rw [Bool.and_eq_true, decide_eq_true_eq] at hrt
    cases hq
    exact .realtime hrt.1 hrt.2 (by omega) (by omega)
  · rename_i hrt
    refine hfiled.pickFair (fun hrunnable => ?_) htop hq
    rw [hrunnable, Bool.true_and, decide_eq_true_eq] at hrt
    exact isFair_of_not_realtime (not_idle_of_runnable hrunnable) hrt

include hfiled in
theorem Refiles.requeued (hrefiles : Refiles info rq₁ threads₁ rq.current mode stays rq₂ threads₂)
    (h : Inv info rq) : Requeued info rq₁ rq₂ threads₁ threads₂ rq.current stays := by
  have hprev := hfiled.prev_notin h
  cases hrefiles with
  | realtime hidle hl hq =>
    have hnone : rq₁.fair.current = none := hfiled.fair_none (by simp [isFair, hl])
    exact (requeueRealtime_spec hfiled.tiers hprev hidle hl hnone hq).1
  | fair hfair hcurrent hq => exact requeueCurrentFair_spec hfiled.tiers hprev hfair hcurrent hq
  | gone => exact hfiled.requeued

/-- Nothing waits, and nobody goes on. -/
theorem Filed.toIdle (hfiled : Filed info rq rq₁ threads threads₁ false)
    (hne : rq.current ≠ rq₁.idleThread) :
    Ends info rq threads rq.current false rq₁.idleThread
      (rq₁.switchIn info threads₁ rq₁.idleThread).2 := by
  have hidle := hfiled.tiers.idle
  have hnotin : rq₁.idleThread ∉ rq₁.queued := by
    intro hmem
    rw [hfiled.tiers.not_idle hmem] at hidle
    cases hidle
  refine ⟨⟨hfiled.tiers.of_eq rfl rfl rfl rfl, hnotin, fun _ => rfl, ?_⟩, hfiled.outcome ?_⟩
  · show rq₁.fair.current.map Entity.id = if isFair info rq₁.idleThread then
        some rq₁.idleThread else none
    rw [hfiled.fair_none rfl, if_neg (by rw [isFair_iff, hidle]; simp)]
    rfl
  · refine .switches hne.symm rfl (Or.inl rfl) (fun u => ?_) (Threads.Same.refl _)
    show u ∈ rq₁.queued ↔ _
    constructor
    · intro hu
      exact ⟨fun heq => hnotin (heq ▸ hu), .inl hu⟩
    · rintro ⟨-, hu | ⟨hfalse, -⟩⟩
      · exact hu
      · cases hfalse

include hfiled in
/-- The head of a list that outranks `prev` waited before `prev` was put back. -/
theorem Refiles.head_waited
    (hrefiles : Refiles info rq₁ threads₁ rq.current mode stays rq₂ threads₂)
    (h : Inv info rq) (htop : rq₁.highestRtLevel < rtLevels)
    (hout : stays = true → rtLevel (info rq.current) < rtLevels →
      rq₁.highestRtLevel < rtLevel (info rq.current) ∨
      rq₁.highestRtLevel = rtLevel (info rq.current) ∧ mode = .yield)
    (hpop : rq₂.popRealtime rq₁.highestRtLevel = some (next, rq')) : next ∈ rq₁.queued := by
  have hprev := hfiled.prev_notin h
  have hrequeued := hrefiles.requeued hfiled h
  obtain ⟨-, hperm, -, -, hhead, hlevel⟩ := popRealtime_spec hrequeued.tiers htop hpop
  have hwaits : next ∈ rq₂.queued := hperm.mem_iff.2 List.mem_cons_self
  cases hrefiles with
  | realtime hidle hl hq =>
    refine hrequeued.mem hwaits ?_
    -- at its own level `prev` only makes way when it yields, and then it goes to the end
    rintro rfl
    have hyield := ((hout rfl hl).resolve_left (by omega)).2
    have hnone : rq₁.fair.current = none := hfiled.fair_none (by simp [isFair, hl])
    have hlists := (requeueRealtime_spec hfiled.tiers hprev hidle hl hnone hq).2
    rw [hlists, hyield, hlevel, update_self, if_neg (by decide),
      List.head?_append_of_ne_nil _ (realtime_of_highest htop)] at hhead
    exact hprev (mem_queued_of_realtime htop (List.mem_of_head? hhead))
  | fair hfair _ _ =>
    refine hrequeued.mem hwaits ?_
    rintro rfl
    have := (isFair_iff.1 hfair).2
    omega
  | gone => exact hwaits

include hfiled in
/-- Once `prev` is filed, the thread chosen by the fair queue runs. -/
theorem Filed.elected {chosen : Entity} {fair : EevdfQueue} (h : Inv info rq)
    (hrequeued : Requeued info rq₁ rq₂ threads₁ threads₂ rq.current stays)
    (hchosen : chosen.id ∈ rq₁.fair.waiting) (hset : rq₂.fair.setCurrent chosen.id = some fair) :
    Ends info rq threads rq.current stays chosen.id
      (({ rq₂ with fair := fair }.accountRemoved info chosen.id).switchIn info
        threads₂ chosen.id).2 := by
  have hnext : chosen.id ∈ rq₁.queued := List.mem_append_left _ hchosen
  have hshape := hrequeued.tiers.shape.setCurrent hset
  obtain ⟨-, e, hid, -, htree, -, hsame⟩ := EevdfQueue.setCurrent_spec hrequeued.tiers.shape hset
  have hwaiting : rq₂.fair.waiting.Perm (e.id :: fair.waiting) := htree.map Entity.id
  obtain ⟨htiers, hperm⟩ := hrequeued.tiers.remove_fair hshape (hid ▸ hwaiting)
  have hrun : fair.current.map Entity.id = if isFair info chosen.id then
      some chosen.id else none := by
    rw [hfiled.tiers.fair _ hchosen, if_pos rfl, hsame, ← hid]
    rfl
  obtain ⟨hinv, houtcome⟩ :=
    switchIn_spec ({ rq₂ with fair := fair }.accountRemoved info chosen.id) hrequeued
    (hfiled.prev_notin h) hnext (htiers.of_eq rfl rfl rfl rfl) hperm hrun
  exact ⟨hinv, hfiled.outcome houtcome⟩

/-- **`pick_next_locked`**: who runs next, and what becomes of `prev`. -/
theorem pickNextLocked_spec (h : Inv info rq)
    (hq : rq.pickNextLocked info threads rq.current mode = some (next, rq', threads')) :
    Inv info rq' ∧
      Outcome info rq rq' threads threads' rq.current
        (runnable info threads rq.current mode) next := by
  obtain ⟨rq₁, threads₁, -, hfiled, hpicks⟩ := pickNextLocked_picks h hq
  generalize runnable info threads rq.current mode = stays at hfiled hpicks
  cases hpicks with
  | realtime hstays _ _ _ => exact ⟨hfiled.inv h (.inl hstays), hfiled.carriesOn (.inl hstays)⟩
  | head htop hrefiles hout hpop =>
    exact hfiled.popped h htop (hrefiles.requeued hfiled h) hpop
      (hrefiles.head_waited hfiled h htop hout hpop)
  | idles _ _ _ heq =>
    have hidle : (info rq.current).isIdle = true := heq ▸ hfiled.tiers.idle
    exact ⟨hfiled.inv h (.inr hidle), hfiled.carriesOn (.inr hidle)⟩
  | idle _ hgone _ hne =>
    subst hgone
    exact hfiled.toIdle hne
  | current _ hstays _ _ _ => exact ⟨hfiled.inv h (.inl hstays), hfiled.carriesOn (.inl hstays)⟩
  | chosen _ _ _ hchosen hrefiles hset =>
    exact hfiled.elected h (hrefiles.requeued hfiled h) hchosen hset

end Picking

/-! ## The dead list -/

section

variable {info : Nat → ThreadInfo} {rq rq' : RunQueue} {threads threads' : Threads}
  {t prev next : Nat} {mode : PickMode}

theorem updateClockLocked_dead (rq : RunQueue) (now : Nat) :
    (rq.updateClockLocked now).dead = rq.dead := by
  unfold updateClockLocked
  split <;> rfl

theorem enqueueLocked_dead {preempts : Bool}
    (hq : rq.enqueueLocked info threads t = some (preempts, rq', threads')) :
    rq'.dead = rq.dead := by
  obtain ⟨-, -, ⟨-, rq₁, hpush, rfl⟩ | ⟨-, fair, -, rfl⟩, -⟩ := enqueueLocked_cases hq
  · rw [pushRealtime_same hpush]
    rfl
  · rfl

theorem removeLocked_dead {done : Bool}
    (hq : rq.removeLocked info threads t = some (done, rq', threads')) : rq'.dead = rq.dead := by
  obtain ⟨-, rfl, -⟩ | ⟨-, ⟨-, rq₁, hremove, rfl, -⟩ | ⟨-, fair, e, -, rfl, -⟩⟩ :=
    removeLocked_cases hq
  · rfl
  · rw [removeRealtime_same hremove]
    rfl
  · rfl

theorem trySteal_dead {enough : Nat} {stolen : Option Nat}
    (hq : rq.trySteal info threads enough = some (stolen, rq', threads')) : rq'.dead = rq.dead := by
  obtain ⟨-, rfl, -⟩ | ⟨t, done, -, -, hremove⟩ := trySteal_cases hq
  · rfl
  · exact removeLocked_dead hremove

theorem Refiles.dead {stays : Bool}
    (hrefiles : Refiles info rq threads prev mode stays rq' threads') : rq'.dead = rq.dead := by
  cases hrefiles with
  | realtime _ _ hq =>
    obtain ⟨rq₁, hpush, rfl, -⟩ := requeueRealtime_cases hq
    rw [pushRealtime_same hpush]
    rfl
  | fair _ _ hq =>
    obtain ⟨e, fair, -, -, rfl, -⟩ := requeueCurrentFair_cases hq
    rfl
  | gone => rfl

theorem Picks.dead {stays : Bool}
    (hpicks : Picks info rq threads prev mode stays next rq' threads') : rq'.dead = rq.dead := by
  cases hpicks with
  | head _ hrefiles _ hpop =>
    rw [← hrefiles.dead, popRealtime_same hpop]
    rfl
  | chosen _ _ _ _ hrefiles _ =>
    rw [← hrefiles.dead]
    rfl
  | _ => rfl

/-- A thread goes on the list when it leaves its CPU dead, and at no other time. -/
theorem pickNextLocked_dead (h : Inv info rq) (hprev : rq.current = prev)
    (hq : rq.pickNextLocked info threads prev mode = some (next, rq', threads')) : rq'.dead =
      if (info prev).isIdle = false ∧ runnable info threads prev mode = false ∧
      (threads prev).state = .dead then
        prev :: rq.dead
      else rq.dead := by
  subst hprev
  obtain ⟨rq₁, threads₁, hfiled, -, hpicks⟩ := pickNextLocked_picks h hq
  rw [hpicks.dead]
  unfold filePrev at hfiled
  simp only at hfiled
  split at hfiled
  · rename_i hleaves
    simp only [Bool.and_eq_true, Bool.not_eq_true'] at hleaves
    have hlist : rq₁.dead = if (threads rq.current).state = .dead then
        rq.current :: rq.dead else rq.dead := by
      split at hfiled
      · split at hfiled <;> cases hfiled
        rfl
      · cases hfiled
        rfl
    simp only [hlist, hleaves.1, hleaves.2, true_and]
  · rename_i hstays
    rw [if_neg]
    · split at hfiled <;> cases hfiled <;> rfl
    · rintro ⟨hidle, hnot, -⟩
      rw [hidle, hnot] at hstays
      exact hstays rfl

end

end RunQueue

end Erebus.Sched
