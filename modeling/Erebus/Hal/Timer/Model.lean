import Erebus.Lib.System
import Erebus.Hal.Timer.Queue

/-!
# Starting, stopping and running timers

Anybody may start and stop a timer at any moment; the CPU of the queue it waits on runs its callback
from the timer interrupt. Every load and store of `m_queue` and `m_running_on` is a step of its own,
also where a queue's lock is held, because `cancel_sync` looks at both without it.

* `Call`: where a call of `cancel`, `cancel_sync` or `add` is.
* `Pass`: where a CPU is in `expire`; a callback may make calls of its own.
* `Machine`: timers, queues, locks, whoever is making a call, and every CPU's pass.
* `Step`: one access; `system`: all of it.
* `stopped`: what is to be remembered: `cancel_sync` has returned since the last start. No step
  depends on it.

The hardware, and which timers anybody wants when, is left open.
-/

namespace Erebus.Timers

/-- Who can hold a lock: somebody who makes a call, or the pass of a CPU. -/
inductive Agent
  | caller (a : Nat)
  | pass (cpu : Nat)
  deriving DecidableEq

/-- The function that is being run. -/
inductive Goal
  | cancel
  | cancelSync
  /-- `TimerQueue::add`, for `start_at` and `start_on`. -/
  | add (cpu deadlineNs slackNs : Nat)

/-- Where a call is. -/
inductive Phase
  /-- `cancel`, about to load the queue. -/
  | load
  /-- `cancel`, about to lock the queue. -/
  | lock (cpu : Nat)
  /-- `cancel`, about to look whether the timer is still there. -/
  | check (cpu : Nat)
  /-- `cancel`, about to store that it waits nowhere. -/
  | store (cpu : Nat)
  /-- `cancel`, about to unlock the queue. -/
  | unlock (cpu : Nat) (found : Bool)
  /-- `cancel_sync`, about to load where the callback runs. -/
  | running
  /-- `cancel_sync`, about to load the queue again. -/
  | queue
  /-- `cancel_sync`, about to compare where the callback runs with the own CPU. -/
  | compare (cpu : Nat)
  /-- `add`, about to lock its queue. -/
  | claimLock
  /-- `add`, about to claim the timer. -/
  | claim
  /-- `add`, about to unlock its queue and go around. -/
  | release
  /-- `add`, about to put the timer on its queue. -/
  | link
  /-- `add`, about to unlock its queue and return. -/
  | finish
  deriving DecidableEq

structure Call where
  goal : Goal
  timer : Nat
  phase : Phase

/-- Where a CPU is in `expire` and `run`. -/
inductive Expiry
  | enter
  /-- About to look at the first timer. -/
  | look
  /-- About to store that the timer waits nowhere. -/
  | taken (timer : Nat)
  /-- About to store that the callback runs here. -/
  | cleared (timer : Nat)
  /-- About to unlock. -/
  | marked (timer : Nat)
  /-- About to call the callback. -/
  | invoke (timer : Nat)
  | callback (timer : Nat) (call : Option Call)
  /-- About to lock again, with what the callback wants. -/
  | relock (timer : Nat) (restart : Bool)
  /-- About to claim the timer again. -/
  | requeue (timer : Nat) (restart : Bool)
  /-- About to put it on the queue. -/
  | relink (timer : Nat)
  /-- About to store that no callback runs. -/
  | clear (timer : Nat)

structure Pass where
  expired : Nat
  place : Expiry

/-- A thread or an interrupt handler that makes calls, and the CPU it is on. -/
structure Caller where
  cpu : Nat
  call : Option Call

structure Machine where
  timers : Nat → Timer
  queues : Nat → TimerQueue
  locks : Nat → Option Agent
  callers : Nat → Caller
  passes : Nat → Option Pass
  stopped : Nat → Bool

/-- `MAX_EXPIRIES_PER_PASS`. -/
def maxExpiriesPerPass : Nat := 64

/-- What a step of a call is to be remembered for. -/
inductive Note
  | silent
  /-- `cancel_sync` loads where the callback runs. -/
  | looks (timer : Nat)
  /-- `cancel_sync` returns. -/
  | stops (timer : Nat)
  /-- A timer is claimed for a queue. -/
  | starts (timer : Nat)

/-- What happens. -/
inductive Event
  | call (note : Note)
  /-- A timer is taken off its queue to be run. -/
  | take (timer : Nat)
  /-- Somebody is moved to another CPU. -/
  | move (a : Nat)

/-- What comes after `cancel`. -/
def Goal.cancelled (goal : Goal) (t : Nat) : Option Call :=
  match goal with
  | .cancel => none
  | .cancelSync => some ⟨.cancelSync, t, .running⟩
  | .add cpu deadlineNs slackNs => some ⟨.add cpu deadlineNs slackNs, t, .claimLock⟩

/-- Interrupts may be on: no lock is held, and `add` turns them off. -/
def Call.preemptible (call : Call) : Bool :=
  match call.goal, call.phase with
  | .add _ _ _, _ => false
  | _, .load | _, .lock _ | _, .running | _, .queue | _, .compare _ => true
  | _, _ => false

namespace Machine

def setTimer (s : Machine) (t : Nat) (f : Timer → Timer) : Machine :=
  { s with timers := Function.update s.timers t (f (s.timers t)) }

/-- A store to `m_queue`. -/
def storeQueue (s : Machine) (t : Nat) (queue : Option Nat) : Machine :=
  s.setTimer t fun timer => { timer with queue := queue }

/-- A store to `m_running_on`. -/
def storeRunning (s : Machine) (t : Nat) (cpu : Option Nat) : Machine :=
  s.setTimer t fun timer => { timer with runningOn := cpu }

def setLock (s : Machine) (cpu : Nat) (holder : Option Agent) : Machine :=
  { s with locks := Function.update s.locks cpu holder }

def link (s : Machine) (cpu t advanceNs : Nat) : Machine :=
  { s with
    queues := Function.update s.queues cpu ((s.queues cpu).linkLocked t (s.timers t) advanceNs) }

def unlink (s : Machine) (cpu t : Nat) : Machine :=
  { s with queues := Function.update s.queues cpu ((s.queues cpu).unlinkLocked t) }

def setCaller (s : Machine) (a : Nat) (caller : Caller) : Machine :=
  { s with callers := Function.update s.callers a caller }

def setPass (s : Machine) (cpu : Nat) (pass : Option Pass) : Machine :=
  { s with passes := Function.update s.passes cpu pass }

/-- What is remembered of a step made from inside a callback, or from outside of any. -/
def noted (s : Machine) (inside : Option Nat) : Note → Machine
  | .stops t =>
    if inside = some t then s else { s with stopped := Function.update s.stopped t true }
  | .starts t => { s with stopped := Function.update s.stopped t false }
  | _ => s

/-- One access of a call that is made on a CPU. -/
inductive CallStep (s : Machine) (me : Agent) (cpu : Nat) :
    Call → Option Call → Note → Machine → Prop
  | loadNull {goal : Goal} {t : Nat} :
      (s.timers t).queue = none → CallStep s me cpu ⟨goal, t, .load⟩ (goal.cancelled t) .silent s
  | load {goal : Goal} {t q : Nat} :
      (s.timers t).queue = some q →
      CallStep s me cpu ⟨goal, t, .load⟩ (some ⟨goal, t, .lock q⟩) .silent s
  | lock {goal : Goal} {t q : Nat} : s.locks q = none →
        CallStep s me cpu ⟨goal, t, .lock q⟩ (some ⟨goal, t, .check q⟩) .silent
          (s.setLock q (some me))
  | check {goal : Goal} {t q : Nat} : (s.timers t).queue = some q →
        CallStep s me cpu ⟨goal, t, .check q⟩ (some ⟨goal, t, .store q⟩) .silent (s.unlink q t)
  /-- It has moved in the meantime. -/
  | checkMoved {goal : Goal} {t q : Nat} : (s.timers t).queue ≠ some q →
        CallStep s me cpu ⟨goal, t, .check q⟩ (some ⟨goal, t, .unlock q false⟩) .silent s
  | store {goal : Goal} {t q : Nat} :
      CallStep s me cpu ⟨goal, t, .store q⟩ (some ⟨goal, t, .unlock q true⟩) .silent
        (s.storeQueue t none)
  | unlock {goal : Goal} {t q : Nat} :
      CallStep s me cpu ⟨goal, t, .unlock q true⟩ (goal.cancelled t) .silent (s.setLock q none)
  | unlockMoved {goal : Goal} {t q : Nat} :
      CallStep s me cpu ⟨goal, t, .unlock q false⟩ (some ⟨goal, t, .load⟩) .silent
        (s.setLock q none)
  | runningNull {goal : Goal} {t : Nat} : (s.timers t).runningOn = none →
        CallStep s me cpu ⟨goal, t, .running⟩ (some ⟨goal, t, .queue⟩) (.looks t) s
  | running {goal : Goal} {t c : Nat} : (s.timers t).runningOn = some c →
        CallStep s me cpu ⟨goal, t, .running⟩ (some ⟨goal, t, .compare c⟩) (.looks t) s
  /-- Nothing of it is left. -/
  | queueNull {goal : Goal} {t : Nat} :
      (s.timers t).queue = none → CallStep s me cpu ⟨goal, t, .queue⟩ none (.stops t) s
  | queue {goal : Goal} {t : Nat} :
      (s.timers t).queue ≠ none →
      CallStep s me cpu ⟨goal, t, .queue⟩ (some ⟨goal, t, .load⟩) .silent s
  /-- The callback is the one that called this. -/
  | compareSelf {goal : Goal} {t : Nat} :
      CallStep s me cpu ⟨goal, t, .compare cpu⟩ none (.stops t) s
  | compare {goal : Goal} {t c : Nat} :
      c ≠ cpu → CallStep s me cpu ⟨goal, t, .compare c⟩ (some ⟨goal, t, .load⟩) .silent s
  | claimLock {t q deadlineNs slackNs : Nat} : s.locks q = none →
        CallStep s me cpu ⟨.add q deadlineNs slackNs, t, .claimLock⟩
          (some ⟨.add q deadlineNs slackNs, t, .claim⟩) .silent (s.setLock q (some me))
  | claim {t q deadlineNs slackNs : Nat} : (s.timers t).queue = none →
        CallStep s me cpu ⟨.add q deadlineNs slackNs, t, .claim⟩
          (some ⟨.add q deadlineNs slackNs, t, .link⟩) (.starts t) (s.storeQueue t (some q))
  | claimLost {t q deadlineNs slackNs : Nat} : (s.timers t).queue ≠ none →
        CallStep s me cpu ⟨.add q deadlineNs slackNs, t, .claim⟩
          (some ⟨.add q deadlineNs slackNs, t, .release⟩) .silent s
  | release {t q deadlineNs slackNs : Nat} :
      CallStep s me cpu ⟨.add q deadlineNs slackNs, t, .release⟩
        (some ⟨.add q deadlineNs slackNs, t, .load⟩) .silent (s.setLock q none)
  | link {t q deadlineNs slackNs : Nat} (advanceNs : Nat) :
      CallStep s me cpu ⟨.add q deadlineNs slackNs, t, .link⟩
        (some ⟨.add q deadlineNs slackNs, t, .finish⟩) .silent
        ((s.setTimer t fun timer =>
          { timer with deadlineNs := deadlineNs, slackNs := slackNs }).link q t advanceNs)
  | finish {t q deadlineNs slackNs : Nat} :
      CallStep s me cpu ⟨.add q deadlineNs slackNs, t, .finish⟩ none .silent (s.setLock q none)

/-- One access. -/
inductive Step (s : Machine) : Event → Machine → Prop
  | begin (a : Nat) (goal : Goal) (t : Nat) : (s.callers a).call = none →
      s.passes (s.callers a).cpu = none →
        Step s (.call .silent) (s.setCaller a ⟨(s.callers a).cpu, some ⟨goal, t, .load⟩⟩)
  /-- A call goes on, unless the timer interrupt has its CPU. -/
  | call (a : Nat) {call : Call} {next : Option Call} {note : Note} {s' : Machine} :
      (s.callers a).call = some call → s.passes (s.callers a).cpu = none →
        CallStep s (.caller a) (s.callers a).cpu call next note s' →
        Step s (.call note) ((s'.setCaller a ⟨(s.callers a).cpu, next⟩).noted none note)
  | move (a cpu : Nat) : ((s.callers a).call.all Call.preemptible) = true →
      s.passes (s.callers a).cpu = none → Step s (.move a) (s.setCaller a ⟨cpu, (s.callers a).call⟩)
  /-- `on_interrupt`. -/
  | interrupt (c : Nat) :
      s.passes c = none →
      (∀ a, (s.callers a).cpu = c → ((s.callers a).call.all Call.preemptible) = true) →
        Step s (.call .silent) (s.setPass c (some ⟨0, .enter⟩))
  | enter (c : Nat) {n : Nat} : s.passes c = some ⟨n, .enter⟩ → s.locks c = none →
        Step s (.call .silent) ((s.setLock c (some (.pass c))).setPass c (some ⟨n, .look⟩))
  /-- The first timer is due. -/
  | take (c nowNs : Nat) {n : Nat} {e : Entry} :
      s.passes c = some ⟨n, .look⟩ → n < maxExpiriesPerPass → (s.queues c).first = some e →
      e.earliestNs ≤ nowNs →
        Step s (.take e.timer) ((s.unlink c e.timer).setPass c (some ⟨n, .taken e.timer⟩))
  /-- There is no such timer, or enough for this pass. -/
  | leave (c nowNs : Nat) {n : Nat} : s.passes c = some ⟨n, .look⟩ →
        maxExpiriesPerPass ≤ n ∨
        ((s.queues c).first.all fun e => decide (nowNs < e.earliestNs)) = true →
        Step s (.call .silent) ((s.setLock c none).setPass c none)
  | clearQueue (c : Nat) {n t : Nat} : s.passes c = some ⟨n, .taken t⟩ →
        Step s (.call .silent) ((s.storeQueue t none).setPass c (some ⟨n, .cleared t⟩))
  | mark (c : Nat) {n t : Nat} : s.passes c = some ⟨n, .cleared t⟩ →
        Step s (.call .silent) ((s.storeRunning t (some c)).setPass c (some ⟨n, .marked t⟩))
  | unlock (c : Nat) {n t : Nat} : s.passes c = some ⟨n, .marked t⟩ →
        Step s (.call .silent) ((s.setLock c none).setPass c (some ⟨n, .invoke t⟩))
  | invoke (c : Nat) {n t : Nat} :
      s.passes c = some ⟨n, .invoke t⟩ →
      Step s (.call .silent) (s.setPass c (some ⟨n, .callback t none⟩))
  /-- A callback makes a call. -/
  | innerBegin (c : Nat) (goal : Goal) (t' : Nat) {n t : Nat} :
      s.passes c = some ⟨n, .callback t none⟩ →
        Step s (.call .silent) (s.setPass c (some ⟨n, .callback t (some ⟨goal, t', .load⟩)⟩))
  | inner (c : Nat) {n t : Nat} {call : Call} {next : Option Call} {note : Note} {s' : Machine} :
      s.passes c = some ⟨n, .callback t (some call)⟩ → CallStep s (.pass c) c call next note s' →
        Step s (.call note) ((s'.setPass c (some ⟨n, .callback t next⟩)).noted (some t) note)
  | forward (c t' periodNs nowNs : Nat) {n t : Nat} : s.passes c = some ⟨n, .callback t none⟩ →
        Step s (.call .silent) (s.setTimer t' fun timer => (timer.forward periodNs nowNs).2)
  | done (c : Nat) (restart : Bool) {n t : Nat} : s.passes c = some ⟨n, .callback t none⟩ →
        Step s (.call .silent) (s.setPass c (some ⟨n, .relock t restart⟩))
  | relock (c : Nat) {n t : Nat} {restart : Bool} :
      s.passes c = some ⟨n, .relock t restart⟩ → s.locks c = none →
        Step s (.call .silent)
          ((s.setLock c (some (.pass c))).setPass c (some ⟨n, .requeue t restart⟩))
  | requeue (c : Nat) {n t : Nat} : s.passes c = some ⟨n, .requeue t true⟩ →
      (s.timers t).queue = none →
        Step s (.call .silent) ((s.storeQueue t (some c)).setPass c (some ⟨n, .relink t⟩))
  /-- The timer is done, or has been started already. -/
  | requeueNot (c : Nat) {n t : Nat} {restart : Bool} :
      s.passes c = some ⟨n, .requeue t restart⟩ → restart = false ∨ (s.timers t).queue ≠ none →
        Step s (.call .silent) (s.setPass c (some ⟨n, .clear t⟩))
  | relink (c advanceNs : Nat) {n t : Nat} : s.passes c = some ⟨n, .relink t⟩ →
        Step s (.call .silent) ((s.link c t advanceNs).setPass c (some ⟨n, .clear t⟩))
  | clear (c : Nat) {n t : Nat} : s.passes c = some ⟨n, .clear t⟩ →
        Step s (.call .silent) ((s.storeRunning t none).setPass c (some ⟨n + 1, .look⟩))

/-- Nothing has been started. -/
structure Boot (s : Machine) : Prop where
  timers : ∀ t, (s.timers t).queue = none ∧ (s.timers t).runningOn = none
  queues : ∀ c, ∃ hasHardware, s.queues c = { hasHardware }
  locks : ∀ c, s.locks c = none
  callers : ∀ a, (s.callers a).call = none
  passes : ∀ c, s.passes c = none

def system : System Machine where
  init := Boot
  step s s' := ∃ e, Step s e s'

end Machine

end Erebus.Timers
