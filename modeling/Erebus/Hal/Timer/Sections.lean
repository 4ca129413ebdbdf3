import Erebus.Hal.Timer.Model

/-!
# Timers and the hardware, one lock section at a time

Here everything a queue's lock protects happens in one step, and the queues have their hardware: one
timer per CPU, which only that CPU can program, and an interrupt of the other CPUs that asks it to.

* `CpuQueue`: a queue, whether a pass is on, and when the hardware goes off; `reprogramLocked`.
* `Machine`: the clock, timers and queues, calls of `cancel` and `add`, a pass of `expire` for each
  CPU, and the reprogram interrupts under way.
* `Step`: one lock section, or one access outside of them. A callback's calls are calls like any
  other, and may come at any time.
* `Linked`: a timer is in the tree of the queue it says it waits on, and in no other;
  `reachable_linked`.
-/

namespace Erebus.Timers.Sections

open Function (update_self update_of_ne)

/-- `NOT_ARMED`. -/
def notArmed : Nat := 2 ^ 64 - 1

/-- `TimerQueue`, with what it knows about its hardware. -/
structure CpuQueue where
  queue : TimerQueue
  expiring : Bool := false
  armedNs : Nat := notArmed
  hardwareLimitNs : Nat := notArmed

/-- `TimerQueue::reprogram_locked`; `lapic().set_timer` makes the hardware go off at `armedNs`. -/
def CpuQueue.reprogramLocked (q : CpuQueue) (nowNs : Nat) : CpuQueue :=
  if q.queue.hasHardware = false ∨ q.expiring = true then
    q
  else
    match q.queue.first with
    | none => q
    | some first =>
      if q.armedNs ≤ first.fireNs then q
      else { q with armedNs := nowNs + min (first.fireNs - nowNs) q.hardwareLimitNs }

inductive Goal
  | cancel
  /-- `TimerQueue::add`, for `start_at` and `start_on`. -/
  | add (queue deadlineNs slackNs : Nat)

/-- A deadline is an `std::uint64_t`, and a slack a non-negative `std::int64_t`. -/
def Goal.Fits : Goal → Prop
  | .cancel => True
  | .add _ deadlineNs slackNs => deadlineNs < 2 ^ 64 ∧ slackNs < 2 ^ 63

inductive Phase
  /-- `cancel`, about to load the queue. -/
  | load
  /-- `cancel`, about to lock the queue. -/
  | lock (queue : Nat)
  /-- `add`, about to lock its queue. -/
  | claim
  /-- `add`, about to send the reprogram interrupt. -/
  | kick

/-- A call, and the CPU it is made on. -/
structure Call where
  cpu : Nat
  goal : Goal
  timer : Nat
  phase : Phase

/-- What comes after `cancel`. -/
def Call.cancelled (call : Call) : Option Call :=
  match call.goal with
  | .cancel => none
  | .add _ _ _ => some { call with phase := .claim }

inductive Place
  /-- About to lock the queue for the first time. -/
  | entered
  | callback (timer : Nat)
  deriving DecidableEq

/-- Where a CPU is in `expire(nowNs)`, and how many callbacks have returned. -/
structure Pass where
  nowNs : Nat
  expired : Nat
  place : Place
  deriving DecidableEq

structure Machine where
  clockNs : Nat
  timers : Nat → Timer
  queues : Nat → CpuQueue
  calls : Nat → Option Call
  passes : Nat → Option Pass
  /-- How many reprogram interrupts are on their way to a CPU. -/
  reprograms : Nat → Nat

namespace Machine

def setCall (s : Machine) (a : Nat) (call : Option Call) : Machine :=
  { s with calls := Function.update s.calls a call }

def setPass (s : Machine) (c : Nat) (pass : Option Pass) : Machine :=
  { s with passes := Function.update s.passes c pass }

def setQueue (s : Machine) (c : Nat) (q : CpuQueue) : Machine :=
  { s with queues := Function.update s.queues c q }

/-- `unlink_locked`, and the store that the timer waits nowhere. -/
def unlink (s : Machine) (c t : Nat) : Machine :=
  { s with
    timers := Function.update s.timers t { s.timers t with queue := none }
    queues :=
      Function.update s.queues c { s.queues c with queue := (s.queues c).queue.unlinkLocked t } }

/-- The timer is claimed for a queue, and `link_locked` puts it there with its deadline and
slack. -/
def link (s : Machine) (c t : Nat) (timer : Timer) (advanceNs : Nat) : Machine :=
  { s with
    timers := Function.update s.timers t { timer with queue := some c }
    queues :=
      Function.update s.queues c
        { s.queues c with queue := (s.queues c).queue.linkLocked t timer advanceNs } }

def reprogram (s : Machine) (c : Nat) :
    Machine := s.setQueue c ((s.queues c).reprogramLocked s.clockNs)

/-- `cancel` loads the queue. -/
def loaded (s : Machine) (call : Call) : Option Call :=
  match (s.timers call.timer).queue with
  | none => call.cancelled
  | some q => some { call with phase := .lock q }

/-- The lock section of `cancel`. -/
def cancelLocked (s : Machine) (a : Nat) (call : Call) (q : Nat) : Machine :=
  if (s.timers call.timer).queue = some q then
    (s.unlink q call.timer).setCall a call.cancelled
  else
    s.setCall a (some { call with phase := .load })

/-- The lock section of `add`, once the timer is linked. -/
def added (s : Machine) (a : Nat) (call : Call) (q : Nat) : Machine :=
  let here := (s.queues q).queue.hasHardware = false ∨ q = call.cpu
  let first := (s.queues q).queue.first.any fun e => e.timer == call.timer
  if here then (s.reprogram q).setCall a none
  else if first then s.setCall a (some { call with phase := .kick })
  else s.setCall a none

/-- The end of `expire`. -/
def leave (s : Machine) (c : Nat) : Machine :=
  ((s.setQueue c { s.queues c with expiring := false }).reprogram c).setPass c none

/-- One turn of the loop in `expire`: the first timer is taken to be run, or the pass is over. -/
def turn (s : Machine) (c nowNs expired : Nat) : Machine :=
  match (s.queues c).queue.first with
  | none => s.leave c
  | some e =>
    if expired < maxExpiriesPerPass ∧ e.earliestNs ≤ nowNs then
      let s := s.unlink c e.timer
      { s with
        timers :=
          Function.update s.timers e.timer { s.timers e.timer with runningOn := some c } }.setPass c
          (some ⟨nowNs, expired, .callback e.timer⟩)
    else
      s.leave c

/-- The callback of `t` has returned: no callback of it runs, and the clock is read again if there
is one. -/
def returned (s : Machine) (c t : Nat) (pass : Pass) : Machine :=
  { s with timers := Function.update s.timers t { s.timers t with runningOn := none } }.turn c
    (if (s.queues c).queue.hasHardware then s.clockNs else pass.nowNs) (pass.expired + 1)

end Machine

/-- What a step does to a timer's times. -/
inductive Event
  | quiet
  /-- The timer is put on a queue. -/
  | links (timer : Timer)
  /-- Its deadline is moved on. -/
  | forwards (t : Nat)

open Erebus.Timers.Sections.Machine in
inductive Step (s : Machine) : Event → Machine → Prop
  | tick (nowNs : Nat) : s.clockNs ≤ nowNs → nowNs < notArmed →
      Step s .quiet { s with clockNs := nowNs }
  | begin (a cpu t : Nat) (goal : Goal) :
      s.calls a = none → goal.Fits → Step s .quiet (s.setCall a (some ⟨cpu, goal, t, .load⟩))
  | load (a : Nat) {call : Call} :
      s.calls a = some call → call.phase = .load → Step s .quiet (s.setCall a (s.loaded call))
  | cancel (a q : Nat) {call : Call} :
      s.calls a = some call → call.phase = .lock q → Step s .quiet (s.cancelLocked a call q)
  /-- `add` claims the timer. -/
  | add (a advanceNs : Nat) {cpu t q deadlineNs slackNs : Nat} :
      s.calls a = some ⟨cpu, .add q deadlineNs slackNs, t, .claim⟩ → (s.timers t).queue = none →
        Step s (.links { s.timers t with deadlineNs := deadlineNs, slackNs := slackNs })
          ((s.link q t { s.timers t with deadlineNs := deadlineNs, slackNs := slackNs }
            advanceNs).added a ⟨cpu, .add q deadlineNs slackNs, t, .claim⟩ q)
  /-- Somebody else was faster. -/
  | addLost (a : Nat) {call : Call} : s.calls a = some call → call.phase = .claim →
      (s.timers call.timer).queue ≠ none →
        Step s .quiet (s.setCall a (some { call with phase := .load }))
  | kick (a : Nat) {cpu t q deadlineNs slackNs : Nat} :
      s.calls a = some ⟨cpu, .add q deadlineNs slackNs, t, .kick⟩ →
        Step s .quiet { s.setCall a none with
          reprograms := Function.update s.reprograms q (s.reprograms q + 1) }
  /-- `reprogram_here`. -/
  | reprogram (c : Nat) : 0 < s.reprograms c →
        Step s .quiet
          { s.reprogram c with reprograms := Function.update s.reprograms c (s.reprograms c - 1) }
  /-- `on_interrupt`, up to `expire`. -/
  | interrupt (c : Nat) : (s.queues c).queue.hasHardware = true → s.passes c = none →
        Step s .quiet ((s.setQueue c { s.queues c with armedNs := notArmed }).setPass c
          (some ⟨s.clockNs, 0, .entered⟩))
  /-- `expire` of a queue without hardware, at any time at all. -/
  | expire (c nowNs : Nat) : (s.queues c).queue.hasHardware = false → s.passes c = none →
        Step s .quiet (s.setPass c (some ⟨nowNs, 0, .entered⟩))
  | enter (c : Nat) {nowNs n : Nat} : s.passes c = some ⟨nowNs, n, .entered⟩ →
        Step s .quiet ((s.setQueue c { s.queues c with expiring := true }).turn c nowNs n)
  /-- A callback moves a deadline on. -/
  | forward (c t periodNs nowNs : Nat) {pass : Pass} {t' : Nat} :
      s.passes c = some pass → pass.place = .callback t' →
        Step s (.forwards t)
          { s with timers := Function.update s.timers t ((s.timers t).forward periodNs nowNs).2 }
  /-- A callback returns `Restart`, and has not started its timer itself. -/
  | restart (c advanceNs : Nat) {pass : Pass} {t : Nat} :
      s.passes c = some pass → pass.place = .callback t → (s.timers t).queue = none →
        Step s (.links (s.timers t)) ((s.link c t (s.timers t) advanceNs).returned c t pass)
  /-- A callback returns `Done`, or there is nothing to restart. -/
  | done (c : Nat) {pass : Pass} {t : Nat} :
      s.passes c = some pass → pass.place = .callback t → Step s .quiet (s.returned c t pass)
  | limit (c limitNs : Nat) :
      Step s .quiet (s.setQueue c { s.queues c with hardwareLimitNs := limitNs })

/-- Nothing has been started. -/
structure Boot (s : Machine) : Prop where
  clockNs : s.clockNs < notArmed
  timers : ∀ t, (s.timers t).queue = none
  queues : ∀ c, ∃ hasHardware, s.queues c = { queue := { hasHardware } }
  calls : ∀ a, s.calls a = none
  passes : ∀ c, s.passes c = none

def system : System Machine where
  init := Boot
  step s s' := ∃ e, Step s e s'

/-! ## Trees and what timers say -/

/-- A timer is in the tree of the queue it says it waits on, and in no other. -/
structure Linked (s : Machine) : Prop where
  linked : ∀ t q, (∃ e ∈ (s.queues q).queue.waiting, e.timer = t) ↔ (s.timers t).queue = some q
  queues : ∀ q, (s.queues q).queue.Inv

section Linked

variable {s s' : Machine} {c t q advanceNs : Nat} {timer : Timer}

theorem Linked.congr (h : Linked s) (hq : ∀ q, (s'.queues q).queue = (s.queues q).queue)
    (ht : ∀ t, (s'.timers t).queue = (s.timers t).queue) : Linked s' := by
  constructor
  · intro t q
    rw [hq, ht]
    exact h.linked t q
  · intro q
    rw [hq]
    exact h.queues q

theorem Linked.unlink (h : Linked s) (hqueue : (s.timers t).queue = some c) :
    Linked (s.unlink c t) := by
  have hmem := (h.linked t c).2 hqueue
  constructor
  · intro u q
    show (∃ e ∈ (Function.update s.queues c _ q).queue.waiting, e.timer = u) ↔
      (Function.update s.timers t _ u).queue = some q
    by_cases hu : u = t
    · subst hu
      rw [update_self]
      refine iff_of_false ?_ nofun
      rintro ⟨e, he, rfl⟩
      by_cases hq : q = c
      · subst hq
        rw [update_self] at he
        exact ((TimerQueue.mem_unlinkLocked (h.queues q) hmem).1 he).2 rfl
      · -- it would be in two trees
        rw [update_of_ne hq] at he
        exact hq (Option.some.inj (((h.linked e.timer q).1 ⟨e, he, rfl⟩).symm.trans hqueue))
    · rw [update_of_ne hu, ← h.linked u q]
      by_cases hq : q = c
      · subst hq
        rw [update_self]
        constructor
        · rintro ⟨e, he, rfl⟩
          exact ⟨e, ((TimerQueue.mem_unlinkLocked (h.queues q) hmem).1 he).1, rfl⟩
        · rintro ⟨e, he, rfl⟩
          exact ⟨e, (TimerQueue.mem_unlinkLocked (h.queues q) hmem).2 ⟨he, hu⟩, rfl⟩
      · rw [update_of_ne hq]
  · exact update_forall (p := fun q : CpuQueue => q.queue.Inv)
      ((h.queues c).unlinkLocked hmem) h.queues

theorem Linked.link (h : Linked s) (hnone : (s.timers t).queue = none) :
    Linked (s.link c t timer advanceNs) := by
  have hfresh : ∀ q, ∀ e ∈ (s.queues q).queue.waiting, e.timer ≠ t := by
    rintro q e he rfl
    rw [(h.linked e.timer q).1 ⟨e, he, rfl⟩] at hnone
    cases hnone
  constructor
  · intro u q
    show (∃ e ∈ (Function.update s.queues c _ q).queue.waiting, e.timer = u) ↔
      (Function.update s.timers t _ u).queue = some q
    by_cases hu : u = t
    · subst hu
      rw [update_self]
      by_cases hq : q = c
      · subst hq
        rw [update_self]
        exact iff_of_true ⟨_, (TimerQueue.mem_linkLocked (h.queues q)).2 (Or.inl rfl), rfl⟩ rfl
      · rw [update_of_ne hq]
        refine iff_of_false ?_ fun heq => hq (Option.some.inj heq).symm
        rintro ⟨e, he, heq⟩
        exact hfresh q e he heq
    · rw [update_of_ne hu, ← h.linked u q]
      by_cases hq : q = c
      · subst hq
        rw [update_self]
        constructor
        · rintro ⟨e, he, rfl⟩
          rcases (TimerQueue.mem_linkLocked (h.queues q)).1 he with rfl | he
          · exact absurd rfl hu
          · exact ⟨e, he, rfl⟩
        · rintro ⟨e, he, rfl⟩
          exact ⟨e, (TimerQueue.mem_linkLocked (h.queues q)).2 (Or.inr he), rfl⟩
      · rw [update_of_ne hq]
  · exact update_forall (p := fun q : CpuQueue => q.queue.Inv)
      ((h.queues c).linkLocked (hfresh c)) h.queues

/-- Arming the hardware leaves the timers alone. -/
@[simp] theorem reprogramLocked_queue (q : CpuQueue) (nowNs : Nat) :
    (q.reprogramLocked nowNs).queue = q.queue := by
  unfold CpuQueue.reprogramLocked
  split
  · rfl
  · split
    · rfl
    · split <;> rfl

/-- Whatever else happens to one queue. -/
theorem setQueue_queue (s : Machine) {c : Nat} {q : CpuQueue}
    (h : q.queue = (s.queues c).queue) (c' : Nat) :
    ((s.setQueue c q).queues c').queue = (s.queues c').queue :=
  update_keeps CpuQueue.queue h c'

variable (h : Linked s)
include h

theorem Linked.setQueue {q : CpuQueue} (hq : q.queue = (s.queues c).queue) :
    Linked (s.setQueue c q) :=
  h.congr (setQueue_queue s hq) fun _ => rfl

theorem Linked.reprogram (c : Nat) : Linked (s.reprogram c) := h.setQueue (reprogramLocked_queue ..)

/-- A timer changes in what the trees do not care about. -/
theorem Linked.setTimer (t : Nat) (timer : Timer) (htimer : timer.queue = (s.timers t).queue) :
    Linked { s with timers := Function.update s.timers t timer } :=
  h.congr (fun _ => rfl) (update_keeps Timer.queue htimer)

theorem Linked.leave (c : Nat) : Linked (s.leave c) :=
  ((h.setQueue (q := { s.queues c with expiring := false }) rfl).reprogram c).congr
    (fun _ => rfl) fun _ => rfl

theorem Linked.turn (c nowNs expired : Nat) : Linked (s.turn c nowNs expired) := by
  unfold Machine.turn
  split
  · exact h.leave c
  · rename_i e hfirst
    split
    · have hqueue := (h.linked e.timer c).1 ⟨e, (h.queues c).first_mem hfirst, rfl⟩
      exact ((h.unlink hqueue).setTimer e.timer
        { (s.unlink c e.timer).timers e.timer with runningOn := some c }
        rfl).congr (fun _ => rfl) fun _ => rfl
    · exact h.leave c

theorem Linked.returned (c t : Nat) (pass : Pass) : Linked (s.returned c t pass) :=
  (h.setTimer t { s.timers t with runningOn := none } rfl).turn ..

theorem Linked.added (a : Nat) (call : Call) (q : Nat) : Linked (s.added a call q) := by
  unfold Machine.added
  simp only
  split
  · exact (h.reprogram q).congr (fun _ => rfl) fun _ => rfl
  · split <;> exact h.congr (fun _ => rfl) fun _ => rfl

/-- **Every step keeps trees and timers together.** -/
theorem Linked.step {e : Event} (hstep : Step s e s') : Linked s' := by
  cases hstep with
  | cancel a q _ _ =>
    unfold Machine.cancelLocked
    split
    · rename_i hqueue
      exact (h.unlink hqueue).congr (fun _ => rfl) fun _ => rfl
    · exact h.congr (fun _ => rfl) fun _ => rfl
  | add a advanceNs _ hnone => exact (h.link hnone).added ..
  | reprogram c _ => exact (h.reprogram c).congr (fun _ => rfl) fun _ => rfl
  | interrupt c _ _ =>
    exact (h.setQueue (c := c) (q := { s.queues c with armedNs := notArmed }) rfl).congr
      (fun _ => rfl) fun _ => rfl
  | enter c _ => exact (h.setQueue (c := c) (q := { s.queues c with expiring := true }) rfl).turn ..
  | forward c t periodNs nowNs _ _ => exact h.setTimer t _ (Timer.forward_queue ..).1
  | restart c advanceNs _ _ hnone => exact (h.link hnone).returned ..
  | done c _ _ => exact h.returned ..
  | limit c limitNs => exact h.setQueue rfl
  | _ => exact h.congr (fun _ => rfl) fun _ => rfl

omit h

theorem Boot.linked (h : Boot s) : Linked s := by
  have hempty : ∀ q, (s.queues q).queue.waiting = [] := by
    intro q
    obtain ⟨hardware, hq⟩ := h.queues q
    rw [hq]
    rfl
  constructor
  · intro t q
    rw [hempty, h.timers]
    exact iff_of_false (fun ⟨e, he, _⟩ => List.not_mem_nil he) nofun
  · intro q
    obtain ⟨hardware, hq⟩ := h.queues q
    rw [hq]
    exact TimerQueue.empty_inv hardware

end Linked

end Erebus.Timers.Sections
