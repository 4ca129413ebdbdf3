import Erebus.Sched.RunQueue

/-!
# Blocking and waking up

All CPUs at once. A thread waits in a loop: it announces the block, looks at its condition, and
gives up the CPU; a waker sets the condition and calls `wake`. Interrupts preempt threads at any
point, and idle CPUs steal waiting threads.

* `Machine`: all threads and run queues, the condition each thread waits for, where each thread is
  in its loop, and what is going on in `wake`, `enqueue` and `steal_work`.
* `Step`: one lock section or one atomic access, by anybody.
* `Loc`, `At`: where a thread is: on a CPU, on a queue, or in transit to one.
* `ThreadOk`, `Inv`: a thread is in one place at most, its flags fit the place, and a blocked thread
  whose condition holds has somebody on the way to wake it.
* `no_lost_wakeup`: the result for every reachable state.

A choice the source makes by its policy alone, such as the CPU a thread is placed on, is left open
here.
-/

namespace Erebus.Sched

open Function (update_self update_of_ne update_eq_self update_idem)

/-- Where a thread is in its loop; `schedule` comes back to `free`. -/
inductive Phase
  | free
  /-- `prepare_to_block` is done. -/
  | prepared
  /-- The condition was false. -/
  | waiting
  /-- The condition was true. -/
  | met
  /-- `exit_current` has set the state. -/
  | exiting
  deriving DecidableEq

/-- A call of `wake`, `enqueue` or `steal_work` that is under way. -/
inductive Agent
  | idle
  /-- `wake`, about to read the thread's CPU. -/
  | waking (t : Nat)
  /-- `wake`, about to take that CPU's lock. -/
  | looked (t cpu : Nat)
  /-- `enqueue`, about to take the thread over. -/
  | handing (t : Nat)
  /-- `place`, about to choose a CPU; for a thread that is new if `fresh`. -/
  | placing (t : Nat) (fresh : Bool)
  /-- `steal_work` on `cpu`, with a thread it took off another queue. -/
  | stolen (t cpu : Nat)
  /-- About to put the thread on the queue of `cpu`. -/
  | carrying (t cpu : Nat)

namespace Agent

/-- The thread in transit. -/
def holds : Agent → Option Nat
  | placing t _ | stolen t _ | carrying t _ => some t
  | _ => none

/-- The thread that a call of `wake` has yet to look at. -/
def wakes : Agent → Option Nat
  | waking t | looked t _ => some t
  | _ => none

end Agent

structure Machine where
  threads : Threads
  rqs : Nat → RunQueue
  cond : Nat → Bool
  phase : Nat → Phase
  agents : Nat → Agent

/-- `switch_to`, as far as the scheduler can tell. -/
def switchTo (cpu prev next : Nat) (threads : Threads) : Threads :=
  (threads.modify prev fun th => if th.state = .running then th.setState .ready else th).modify next
    fun th => { th.setState .running with cpuId := cpu }

namespace Machine

open Threads (modify_self modify_of_ne)

variable (info : Nat → ThreadInfo)

/-! ## Lock sections -/

/-- The thread on a CPU. -/
def current (s : Machine) (c : Nat) : Nat := (s.rqs c).current

/-- `Scheduler::switch_away` on a CPU, from taking the lock to releasing it. -/
def switchAway (s : Machine) (c : Nat) (mode : PickMode) (nowNs : Nat) : Option Machine :=
  let rq := (s.rqs c).updateClockLocked nowNs
  match rq.pickNextLocked info s.threads rq.current mode with
  | none => none
  | some (next, rq', threads) =>
    some { s with
      rqs := Function.update s.rqs c rq'
      threads := if next = rq.current then threads else switchTo c rq.current next threads }

/-- An agent moves on. -/
def become (s : Machine) (a : Nat) (agent : Agent) : Machine :=
  { s with agents := Function.update s.agents a agent }

/-- An agent moves on, and changes a thread. -/
def act (s : Machine) (a : Nat) (agent : Agent) (t : Nat) (f : Thread → Thread) : Machine :=
  { s with threads := s.threads.modify t f, agents := Function.update s.agents a agent }

/-- An agent moves on, and leaves a run queue behind. -/
def requeue (s : Machine) (a : Nat) (agent : Agent) (c : Nat) (rq : RunQueue)
    (threads : Threads) : Machine :=
  { s with
    threads := threads
    rqs := Function.update s.rqs c rq
    agents := Function.update s.agents a agent }

/-- The lock section of `Scheduler::wake`. -/
def wakeLocked (s : Machine) (a t cpu : Nat) : Machine :=
  let state := (s.threads t).state
  if (s.threads t).cpuId ≠ cpu then s.become a (.waking t)
  else if state ≠ .blocked ∧ state ≠ .sleeping then s.become a .idle
  else if (s.rqs cpu).current = t then s.act a .idle t (Thread.setState .running)
  else s.act a (.placing t false) t Thread.markQueued

/-- A thread sets its own state on the way through its loop. -/
def moveOn (s : Machine) (t : Nat) (state : ThreadState) (phase : Phase) : Machine :=
  { s with
    threads := s.threads.modify t (Thread.setState state)
    phase := Function.update s.phase t phase }

/-- One step of anybody. -/
inductive Step (s : Machine) : Machine → Prop
  /-- `prepare_to_block`. -/
  | prepare (c : Nat) : (info (s.current c)).isIdle = false → s.phase (s.current c) = .free →
        Step s (s.moveOn (s.current c) .blocked .prepared)
  /-- The thread looks at its condition. -/
  | check (c : Nat) : s.phase (s.current c) = .prepared → Step s { s with
          phase := Function.update s.phase (s.current c)
            (if s.cond (s.current c) then .met else .waiting) }
  /-- `cancel_block`. -/
  | cancel (c : Nat) : s.phase (s.current c) = .met → Step s (s.moveOn (s.current c) .running .free)
  /-- `schedule`, at the end of the loop. -/
  | block (c nowNs : Nat) {s' : Machine} :
      s.phase (s.current c) = .waiting → s.switchAway info c .voluntary nowNs = some s' →
        Step s { s' with phase := Function.update s'.phase (s.current c) .free }
  /-- `yield`, or `schedule` anywhere else; what an idle thread does, too. -/
  | reschedule (c nowNs : Nat) (mode : PickMode) {s' : Machine} :
      s.phase (s.current c) = .free → mode ≠ .preempted →
      s.switchAway info c mode nowNs = some s' → Step s s'
  /-- `preempt_from_interrupt`. -/
  | preempt (c nowNs : Nat) {s' : Machine} :
      (info (s.current c)).isIdle = false → (s.threads (s.current c)).state ≠ .dead →
        s.switchAway info c .preempted nowNs = some s' → Step s s'
  /-- `exit_current` sets the state. -/
  | exit (c : Nat) : (info (s.current c)).isIdle = false → s.phase (s.current c) = .free →
        Step s (s.moveOn (s.current c) .dead .exiting)
  /-- `exit_current` leaves the CPU. -/
  | leave (c nowNs : Nat) {s' : Machine} :
      s.phase (s.current c) = .exiting → s.switchAway info c .voluntary nowNs = some s' → Step s s'
  /-- A waker sets the condition and calls `wake`. -/
  | signal (a t : Nat) : s.agents a = .idle →
        Step s { s.become a (.waking t) with cond := Function.update s.cond t true }
  /-- `wake` for another reason. -/
  | poke (a t : Nat) : s.agents a = .idle → Step s (s.become a (.waking t))
  /-- The condition is used up. -/
  | reset (t : Nat) : Step s { s with cond := Function.update s.cond t false }
  /-- `wake` reads the thread's CPU. -/
  | look (a t : Nat) : s.agents a = .waking t → Step s (s.become a (.looked t (s.threads t).cpuId))
  /-- `wake` under the lock. -/
  | wake (a t cpu : Nat) : s.agents a = .looked t cpu → Step s (s.wakeLocked a t cpu)
  /-- `enqueue` looks at the thread's state. -/
  | offer (a t : Nat) : s.agents a = .idle → (info t).isIdle = false →
        (s.threads t).state = .ready ∨ (s.threads t).state = .created →
        Step s (s.become a (.handing t))
  /-- `try_hand_to_scheduler`. -/
  | hand (a t : Nat) : s.agents a = .handing t → (s.threads t).flags.scheduled = false →
        Step s (s.act a (.placing t true) t (Thread.setScheduled true))
  /-- `try_hand_to_scheduler`, too late. -/
  | handTaken (a t : Nat) : s.agents a = .handing t → (s.threads t).flags.scheduled = true →
      Step s (s.become a .idle)
  /-- `place` has chosen a CPU. -/
  | place (a t cpu : Nat) (fresh : Bool) :
      s.agents a = .placing t fresh → Step s (s.act a (.carrying t cpu) t (Thread.setCpuId cpu))
  /-- `revoke_from_scheduler`, when there is no CPU for a new thread. -/
  | revoke (a t : Nat) : s.agents a = .placing t true →
      Step s (s.act a .idle t (Thread.setScheduled false))
  /-- The thread is put on the queue of `cpu`. -/
  | arrive (a t cpu nowNs : Nat) {preempts : Bool} {rq : RunQueue} {threads : Threads} :
      s.agents a = .carrying t cpu →
        ((s.rqs cpu).updateClockLocked nowNs).enqueueLocked info s.threads t =
        some (preempts, rq, threads) → Step s (s.requeue a .idle cpu rq threads)
  /-- The idle `thief` takes a thread from `victim`. -/
  | steal (a victim thief enough t : Nat) {rq : RunQueue} {threads : Threads} :
      s.agents a = .idle → (s.rqs victim).trySteal info s.threads enough =
        some (some t, rq, threads) → Step s (s.requeue a (.stolen t thief) victim rq threads)
  /-- The thief makes the thread its own. -/
  | adopt (a t thief : Nat) :
      s.agents a = .stolen t thief → Step s (s.act a (.carrying t thief) t (Thread.setCpuId thief))

/-- When the CPUs come up, each runs its idle thread, and no other thread is the scheduler's. -/
structure Boot (s : Machine) : Prop where
  rqs : ∀ c, ∃ t, (info t).isIdle = true ∧ s.rqs c = RunQueue.initialized t
  idle : ∀ t, (info t).isIdle = true → (s.threads t).state = .running
  threads : ∀ t, (info t).isIdle = false →
    (s.threads t).flags.scheduled = false ∧
    ((s.threads t).state = .created ∨ (s.threads t).state = .ready)
  phase : ∀ t, s.phase t = .free
  agents : ∀ a, s.agents a = .idle

/-- The scheduler as a transition system. -/
def system : System Machine where
  init := Boot info
  step := Step info

/-! ## Where threads are -/

/-- A place a thread can be in. -/
inductive Loc
  | cpu (c : Nat)
  | queue (c : Nat)
  | transit (a : Nat)

def At (s : Machine) (t : Nat) : Loc → Prop
  | .cpu c => s.current c = t
  | .queue c => t ∈ (s.rqs c).queued
  | .transit a => (s.agents a).holds = some t

/-- The states a thread can have on its CPU. -/
def OnCpu : Phase → ThreadState → Prop
  | .free, state => state = .running
  | .exiting, state => state = .dead
  | _, state => state = .running ∨ state = .blocked

/-- What a thread looks like in a place. -/
def Fits (th : Thread) (phase : Phase) : Loc → Prop
  | .cpu c => th.flags.scheduled = true ∧ th.cpuId = c ∧ OnCpu phase th.state
  | .queue _ =>
    th.flags.scheduled = true ∧ th.state = .ready ∧ th.onRunqueue = true ∧ phase ≠ .exiting
  | .transit _ =>
    th.flags.scheduled = true ∧ (th.state = .ready ∨ th.state = .created) ∧ phase ≠ .exiting

/-- What a thread looks like that is nowhere. -/
def Gone (th : Thread) (phase : Phase) : Prop :=
  if th.flags.scheduled then th.state = .blocked ∧ phase ≠ .exiting ∨ th.state = .dead
  else (th.state = .created ∨ th.state = .ready) ∧ phase ≠ .exiting

structure ThreadOk (s : Machine) (t : Nat) : Prop where
  unique : ∀ l l', s.At t l → s.At t l' → l = l'
  fits : ∀ l, s.At t l → Fits (s.threads t) (s.phase t) l
  gone : (∀ l, ¬ s.At t l) → Gone (s.threads t) (s.phase t)
  woken : s.cond t = true → (s.threads t).state = .blocked →
    (s.phase t = .waiting ∨ ∀ l, ¬ s.At t l) → ∃ a, (s.agents a).wakes = some t

structure Inv (s : Machine) : Prop where
  rqs : ∀ c, (s.rqs c).Inv info
  idle : ∀ t, (info t).isIdle = true →
    ((s.threads t).state = .running ∨ (s.threads t).state = .ready) ∧ s.phase t = .free
  threads : ∀ t, (info t).isIdle = false → s.ThreadOk t

/-! ## One thread -/

section

variable {s s' : Machine} {t : Nat} {l : Loc}

theorem ThreadOk.at_iff (h : s.ThreadOk t) (hl : s.At t l) (l' : Loc) : s.At t l' ↔ l' = l :=
  ⟨fun hl' => h.unique l' l hl' hl, fun heq => heq ▸ hl⟩

/-- Nothing about the thread has changed. -/
theorem ThreadOk.frame (h : s.ThreadOk t) (hat : ∀ l, s'.At t l ↔ s.At t l)
    (hthread : (s'.threads t).flags = (s.threads t).flags ∧
      (s'.threads t).cpuId = (s.threads t).cpuId)
    (hphase : s'.phase t = s.phase t) (hcond : s'.cond t = true → s.cond t = true)
    (hwakes : (s.threads t).state = .blocked → ∀ a, (s.agents a).wakes = some t →
    (s'.agents a).wakes = some t) : s'.ThreadOk t := by
  have hstate : (s'.threads t).state = (s.threads t).state := congrArg ThreadFlags.state hthread.1
  refine ⟨fun l l' hl hl' => h.unique l l' ((hat l).1 hl) ((hat l').1 hl'), fun l hl => ?_,
    fun hnot => ?_, ?_⟩
  · have hfits := h.fits l ((hat l).1 hl)
    cases l with
    | cpu c =>
      obtain ⟨h₁, h₂, h₃⟩ := hfits
      exact ⟨hthread.1 ▸ h₁, hthread.2.trans h₂, by rw [hphase, hstate]; exact h₃⟩
    | queue c =>
      obtain ⟨h₁, h₂, h₃, h₄⟩ := hfits
      exact ⟨hthread.1 ▸ h₁, hstate.trans h₂, (congrArg ThreadFlags.onRunqueue hthread.1).trans h₃,
        hphase ▸ h₄⟩
    | transit a =>
      obtain ⟨h₁, h₂, h₃⟩ := hfits
      exact ⟨hthread.1 ▸ h₁, hstate ▸ h₂, hphase ▸ h₃⟩
  · have hgone := h.gone fun l hl => hnot l ((hat l).2 hl)
    unfold Gone at hgone ⊢
    rw [hthread.1, hstate, hphase]
    exact hgone
  · intro hc hblocked hwait
    rw [hstate] at hblocked
    obtain ⟨a, ha⟩ := h.woken (hcond hc) hblocked
      (hwait.imp (fun hw => hphase ▸ hw) fun hnot l hl => hnot l ((hat l).2 hl))
    exact ⟨a, hwakes hblocked a ha⟩

/-- The thread is in one place. -/
theorem ThreadOk.placed (hat : ∀ l', s.At t l' ↔ l' = l) (hfits : Fits (s.threads t) (s.phase t) l)
    (hwoken : s.cond t = true → (s.threads t).state = .blocked → s.phase t = .waiting →
      ∃ a, (s.agents a).wakes = some t) : s.ThreadOk t where
  unique l₁ l₂ h₁ h₂ := ((hat l₁).1 h₁).trans ((hat l₂).1 h₂).symm
  fits l₁ h₁ := (hat l₁).1 h₁ ▸ hfits
  gone hnot := absurd ((hat l).2 rfl) (hnot l)
  woken hc hblocked hwait := hwait.elim (hwoken hc hblocked) fun hnot =>
    absurd ((hat l).2 rfl) (hnot l)

/-- The thread is on a queue or in an agent's hands, where it is not blocked. -/
theorem ThreadOk.held (hat : ∀ l', s.At t l' ↔ l' = l) (hfits : Fits (s.threads t) (s.phase t) l)
    (hl : ∀ c, l ≠ .cpu c) : s.ThreadOk t := by
  refine ThreadOk.placed hat hfits fun _ hblocked => ?_
  cases l with
  | cpu c => exact absurd rfl (hl c)
  | queue c => exact nomatch hblocked.symm.trans hfits.2.1
  | transit a => rcases hfits.2.1 with heq | heq <;> exact nomatch hblocked.symm.trans heq

/-- The thread is nowhere. -/
theorem ThreadOk.away (hat : ∀ l, ¬ s.At t l) (hgone : Gone (s.threads t) (s.phase t))
    (hwoken : s.cond t = true → (s.threads t).state = .blocked → ∃ a, (s.agents a).wakes = some t) :
    s.ThreadOk t where
  unique l₁ _ h₁ := absurd h₁ (hat l₁)
  fits l₁ h₁ := absurd h₁ (hat l₁)
  gone _ := hgone
  woken hc hblocked _ := hwoken hc hblocked

/-- A thread the scheduler does not have is nowhere. -/
theorem ThreadOk.unscheduled (h : s.ThreadOk t) (hnot : (s.threads t).flags.scheduled = false) :
    ∀ l, ¬ s.At t l := by
  intro l hl
  have hfits := h.fits l hl
  cases l <;> exact absurd hfits.1 (by rw [hnot]; exact Bool.false_ne_true)

end

/-! ## Steps keep the invariant -/

section

variable {info} {s s' : Machine} {a c t cpu : Nat}
variable {old agent : Agent} {u nowNs prev next : Nat} {f : Thread → Thread} {rq : RunQueue}
  {threads : Threads} {phase : Phase} {mode : PickMode}

theorem holds_only : ∀ u, u ≠ t → some t ≠ some u := fun _ hu heq => hu (Option.some.inj heq).symm

theorem holds_none : ∀ u, u ≠ t → none ≠ some u := fun _ _ => nofun

theorem at_become (h : agent.holds = some u ↔ (s.agents a).holds = some u) (l : Loc) :
    (s.become a agent).At u l ↔ s.At u l := by
  cases l with
  | cpu c => exact Iff.rfl
  | queue c => exact Iff.rfl
  | transit a' =>
    exact (update_keeps (fun agent : Agent => agent.holds = some u) (propext h) a').to_iff

/-- An agent takes a thread that is nowhere. -/
theorem at_taken (hholds : agent.holds = some t) (hnot : ∀ l, ¬ s.At t l) (l : Loc) :
    (s.act a agent t f).At t l ↔ l = .transit a := by
  cases l with
  | cpu c => exact iff_of_false (hnot (.cpu c)) nofun
  | queue c => exact iff_of_false (hnot (.queue c)) nofun
  | transit a' =>
    simp only [At, act, Loc.transit.injEq]
    by_cases ha : a' = a
    · simp [ha, hholds]
    · rw [update_of_ne ha]
      exact iff_of_false (hnot (.transit a')) ha

/-- An agent lets go of its thread. -/
theorem at_released (hok : s.ThreadOk t) (hhere : s.At t (.transit a))
    (hholds : agent.holds = none) (l : Loc) : ¬ (s.act a agent t f).At t l := by
  intro hl
  have hother : ∀ l', l' ≠ .transit a → ¬ s.At t l' :=
    fun l' hne hl' => hne (hok.unique _ _ hl' hhere)
  cases l with
  | cpu c => exact hother (.cpu c) nofun hl
  | queue c => exact hother (.queue c) nofun hl
  | transit a' =>
    simp only [At, act] at hl
    by_cases ha : a' = a
    · rw [ha, update_self, hholds] at hl
      cases hl
    · rw [update_of_ne ha] at hl
      exact hother (.transit a') (fun heq => ha (Loc.transit.inj heq)) hl

theorem at_requeue_cpu {c' : Nat} (hcurrent : rq.current = s.current c) :
    (s.requeue a agent c rq threads).At u (.cpu c') ↔ s.At u (.cpu c') := by
  exact (congrArg (· = u) (update_keeps RunQueue.current hcurrent c')).to_iff

/-- Where everybody else is when a run queue changes by one thread. -/
theorem at_requeue_of_ne (hcurrent : rq.current = s.current c)
    (hmem : u ∈ rq.queued ↔ u ∈ (s.rqs c).queued)
    (hholds : agent.holds = some u ↔ (s.agents a).holds = some u) (l : Loc) :
    (s.requeue a agent c rq threads).At u l ↔ s.At u l := by
  cases l with
  | cpu c' => exact at_requeue_cpu hcurrent
  | queue c' => exact (update_keeps (fun rq : RunQueue => u ∈ rq.queued) (propext hmem) c').to_iff
  | transit a' => exact at_become hholds (.transit a')

/-- Where a thread is when it joins a run queue or leaves it. -/
theorem ThreadOk.at_requeue {l₀ : Loc} (hok : s.ThreadOk u) (hhere : s.At u l₀)
    (hcurrent : rq.current = s.current c)
    (l : Loc) : (s.requeue a agent c rq threads).At u l ↔ l = .queue c ∧ u ∈ rq.queued ∨
      l = .transit a ∧ agent.holds = some u ∨ l = l₀ ∧ l ≠ .queue c ∧ l ≠ .transit a := by
  have hat := hok.at_iff hhere l
  cases l with
  | cpu c' =>
    rw [at_requeue_cpu hcurrent, hat]
    simp
  | queue c' =>
    by_cases hc : c' = c
    · simp [At, Machine.requeue, hc]
    · simpa [At, Machine.requeue, hc] using hat
  | transit a' =>
    by_cases ha : a' = a
    · simp [At, Machine.requeue, ha]
    · simpa [At, Machine.requeue, ha] using hat

theorem wakes_become {a' : Nat} (h : (s.agents a).wakes = some u → agent.wakes = some u)
    (hw : (s.agents a').wakes = some u) : ((s.become a agent).agents a').wakes = some u := by
  show ((Function.update s.agents a agent) a').wakes = some u
  by_cases ha : a' = a
  · rw [ha, update_self]
    exact h (ha ▸ hw)
  · rwa [update_of_ne ha]

section

variable (h : s.Inv info)
include h

/-- An agent with no thread in its hands moves on. A call of `wake` may only end if its thread is
not blocked. -/
theorem Inv.become (ha : s.agents a = old) (hold : old.holds = none) (hnew : agent.holds = none)
    (hwakes : ∀ u, (s.threads u).state = .blocked → old.wakes = some u → agent.wakes = some u) :
    (s.become a agent).Inv info := by
  subst ha
  refine ⟨h.rqs, h.idle, fun u hu => ?_⟩
  refine (h.threads u hu).frame (at_become ?_) ⟨rfl, rfl⟩ rfl (fun hc => hc)
    fun hblocked a' hw => ?_
  · rw [hold, hnew]
  · exact wakes_become (hwakes u hblocked) hw

theorem Inv.setCond {value : Bool} (hwake : value = true → (s.agents a).wakes = some t) :
    { s with cond := Function.update s.cond t value }.Inv info := by
  refine ⟨h.rqs, h.idle, fun u hu => ?_⟩
  have hok := h.threads u hu
  refine ⟨hok.unique, hok.fits, hok.gone, fun hc hblocked hwait => ?_⟩
  by_cases hut : u = t
  · subst hut
    exact ⟨a, hwake (by simpa using hc)⟩
  · simp only [update_of_ne hut] at hc
    exact hok.woken hc hblocked hwait

/-- A thread moves on in its loop, on its CPU. -/
theorem Inv.moveOn (hidle : (info (s.current c)).isIdle = false) {state : ThreadState}
    (hstate : OnCpu phase state) (hwaits : phase = .waiting → s.cond (s.current c) = false) :
    (s.moveOn (s.current c) state phase).Inv info := by
  refine ⟨h.rqs, fun u hu => ?_, fun u hu => ?_⟩
  · have hne : u ≠ s.current c := by
      rintro rfl
      rw [hidle] at hu
      cases hu
    simp only [Machine.moveOn, modify_of_ne hne, update_of_ne hne]
    exact h.idle u hu
  · have hok := h.threads u hu
    by_cases hu' : u = s.current c
    · subst hu'
      have hat : s.At (s.current c) (.cpu c) := rfl
      obtain ⟨hsched, hcpu, -⟩ := hok.fits _ hat
      refine ThreadOk.placed (l := .cpu c) (hok.at_iff hat) ?_ ?_
      · simp only [Machine.moveOn, modify_self, update_self]
        exact ⟨hsched, hcpu, hstate⟩
      · intro hc _ hw
        simp only [Machine.moveOn, update_self] at hw
        exact nomatch hc.symm.trans (hwaits hw)
    · refine hok.frame (fun l => ?_) ?_ (update_of_ne hu' ..) (fun hc => hc) fun _ _ hw => hw
      · cases l <;> exact Iff.rfl
      · simp only [Machine.moveOn, modify_of_ne hu', and_self]

theorem Inv.not_idle (hphase : s.phase t ≠ .free) : (info t).isIdle = false := by
  rw [Bool.eq_false_iff]
  exact fun hidle => hphase (h.idle t hidle).2

theorem Inv.check (hphase : s.phase (s.current c) = .prepared) : { s with
      phase := Function.update s.phase (s.current c)
        (if s.cond (s.current c) then .met else .waiting) }.Inv info := by
  have hidle : (info (s.current c)).isIdle = false := h.not_idle (by rw [hphase]; exact nofun)
  obtain ⟨-, -, hon⟩ := (h.threads _ hidle).fits (.cpu c) rfl
  rw [hphase] at hon
  -- its state stays as it is
  have hsame : s.threads.modify (s.current c) (Thread.setState (s.threads (s.current c)).state) =
      s.threads :=
    update_eq_self ..
  have hmoved : (s.moveOn (s.current c) (s.threads (s.current c)).state
      (if s.cond (s.current c) then .met else .waiting)).Inv info := by
    refine h.moveOn hidle (by split <;> exact hon) fun hw => ?_
    split at hw
    · cases hw
    · rename_i hc
      exact Bool.eq_false_iff.2 hc
  rwa [Machine.moveOn, hsame] at hmoved

/-- An agent changes a thread; everybody else is left alone. -/
theorem Inv.act (ha : s.agents a = old) (hold : ∀ u, u ≠ t → old.holds ≠ some u)
    (hnew : ∀ u, u ≠ t → agent.holds ≠ some u)
    (hwakes : ∀ u, u ≠ t → old.wakes = some u → agent.wakes = some u)
    (hidle : (info t).isIdle = true → (f (s.threads t)).state = (s.threads t).state)
    (hok : (info t).isIdle = false → (s.act a agent t f).ThreadOk t) :
    (s.act a agent t f).Inv info := by
  subst ha
  refine ⟨h.rqs, fun u hu => ?_, fun u hu => ?_⟩
  · refine ⟨?_, (h.idle u hu).2⟩
    by_cases hut : u = t
    · subst hut
      simp only [act, modify_self, hidle hu]
      exact (h.idle u hu).1
    · simp only [Machine.act, modify_of_ne hut]
      exact (h.idle u hu).1
  · by_cases hut : u = t
    · subst hut
      exact hok hu
    · refine (h.threads u hu).frame (at_become (iff_of_false (hnew u hut) (hold u hut))) ?_ rfl
        (fun hc => hc) fun _ a' hw => ?_
      · simp only [Machine.act, modify_of_ne hut, and_self]
      · exact wakes_become (hwakes u hut) hw

/-- **The lock section of `wake`.** -/
theorem Inv.wakeLocked (ha : s.agents a = .looked t cpu) : (s.wakeLocked a t cpu).Inv info := by
  unfold Machine.wakeLocked
  simp only
  split
  · exact h.become ha rfl rfl fun u _ hu => hu
  rename_i hcpu
  rw [not_not] at hcpu
  split
  · rename_i hstate
    refine h.become ha rfl rfl fun u hblocked hu => ?_
    rw [← Option.some.inj hu] at hblocked
    exact absurd hblocked hstate.1
  rename_i hstate
  have hnotrun : (s.threads t).state ≠ .running ∧ (s.threads t).state ≠ .ready ∧
      (s.threads t).state ≠ .created ∧ (s.threads t).state ≠ .dead := by
    refine ⟨?_, ?_, ?_, ?_⟩ <;> · intro heq; rw [heq] at hstate; simp at hstate
  have hidle : (info t).isIdle = false := by
    rw [Bool.eq_false_iff]
    exact fun hidle => (h.idle t hidle).1.elim hnotrun.1 hnotrun.2.1
  have hok := h.threads t hidle
  split
  · -- announced but still there: `schedule` will see that it may stay
    rename_i hcurrent
    have hat : s.At t (.cpu cpu) := hcurrent
    obtain ⟨hsched, hcpu', hfits⟩ := hok.fits _ hat
    refine h.act ha holds_none holds_none (fun u hu hw => absurd hw (holds_only u hu))
      (fun hi => absurd hi (by rw [hidle]; exact Bool.false_ne_true)) fun _ => ?_
    refine ThreadOk.placed (l := .cpu cpu) (fun l' => ?_) ?_ ?_
    · exact (at_become (by rw [ha]; rfl) l').trans (hok.at_iff hat l')
    · simp only [Machine.act, modify_self]
      refine ⟨hsched, hcpu', ?_⟩
      cases hphase : s.phase t with
      | free => rfl
      | exiting =>
        rw [hphase] at hfits
        exact absurd hfits hnotrun.2.2.2
      | prepared => exact .inl rfl
      | waiting => exact .inl rfl
      | met => exact .inl rfl
    · intro _ hblocked
      simp only [Machine.act, modify_self] at hblocked
      cases hblocked
  · -- it has left: its CPU's queue would know
    rename_i hcurrent
    have hnowhere : ∀ l, ¬ s.At t l := by
      intro l hl
      have hfits := hok.fits l hl
      cases l with
      | cpu c =>
        obtain ⟨-, hc, -⟩ := hfits
        rw [hcpu] at hc
        subst hc
        exact hcurrent hl
      | queue c => exact hnotrun.2.1 hfits.2.1
      | transit a' => exact hfits.2.1.elim hnotrun.2.1 hnotrun.2.2.1
    have hgone := hok.gone hnowhere
    unfold Gone at hgone
    split at hgone
    · rename_i hsched
      refine h.act ha holds_none holds_only (fun u hu hw => absurd hw (holds_only u hu))
        (fun hi => absurd hi (by rw [hidle]; exact Bool.false_ne_true)) fun _ => ?_
      refine ThreadOk.held (l := .transit a) (at_taken rfl hnowhere) ?_ nofun
      simp only [Machine.act, modify_self]
      exact ⟨hsched, .inl rfl, (hgone.resolve_right hnotrun.2.2.2).2⟩
    · exact absurd hgone.1 (not_or.2 ⟨hnotrun.2.2.1, hnotrun.2.1⟩)

/-- `try_hand_to_scheduler`. -/
theorem Inv.hand (ha : s.agents a = .handing t) (hnot : (s.threads t).flags.scheduled = false) :
    (s.act a (.placing t true) t (Thread.setScheduled true)).Inv info := by
  refine h.act ha holds_none holds_only (fun _ _ => nofun) (fun _ => rfl) fun hidle => ?_
  have hok := h.threads t hidle
  have hnowhere := hok.unscheduled hnot
  have hgone := hok.gone hnowhere
  rw [Gone, hnot, if_neg Bool.false_ne_true] at hgone
  refine ThreadOk.held (l := .transit a) (at_taken rfl hnowhere) ?_ nofun
  simp only [Machine.act, modify_self]
  exact ⟨rfl, hgone.1.symm, hgone.2⟩

/-- The agent stores the CPU its thread goes to. -/
theorem Inv.headFor (ha : s.agents a = old) (hold : old.holds = some t) (hw : old.wakes = none) :
    (s.act a (.carrying t cpu) t (Thread.setCpuId cpu)).Inv info := by
  refine h.act ha (by rw [hold]; exact holds_only) holds_only (fun u _ => by rw [hw]; exact nofun)
    (fun _ => rfl) fun hidle => ?_
  have hok := h.threads t hidle
  have hhere : s.At t (.transit a) := by rw [At, ha, hold]
  obtain ⟨hsched, hstate, hphase⟩ := hok.fits _ hhere
  refine ThreadOk.held (l := .transit a)
    (fun l' => (at_become (iff_of_true rfl hhere) l').trans (hok.at_iff hhere l')) ?_ nofun
  simp only [Machine.act, modify_self]
  exact ⟨hsched, hstate, hphase⟩

/-- `revoke_from_scheduler`. -/
theorem Inv.revoke (ha : s.agents a = .placing t true) :
    (s.act a .idle t (Thread.setScheduled false)).Inv info := by
  refine h.act ha holds_only holds_none (fun _ _ => nofun) (fun _ => rfl) fun hidle => ?_
  have hok := h.threads t hidle
  have hhere : s.At t (.transit a) := by rw [At, ha]; rfl
  obtain ⟨-, hstate, hphase⟩ := hok.fits _ hhere
  refine ThreadOk.away (at_released hok hhere rfl) ?_ ?_
  · simp only [Machine.act, modify_self, Gone]
    exact ⟨hstate.symm, hphase⟩
  · intro _ hblocked
    simp only [Machine.act, modify_self] at hblocked
    rcases hstate with heq | heq <;> exact nomatch hblocked.symm.trans heq

/-- A run queue changes by one thread; everybody else is left alone. -/
theorem Inv.requeue (hrq : rq.Inv info) (hcurrent : rq.current = s.current c)
    (hmem : ∀ u, u ≠ t → (u ∈ rq.queued ↔ u ∈ (s.rqs c).queued))
    (ha : s.agents a = old) (hold : ∀ u, u ≠ t → old.holds ≠ some u)
    (hnew : ∀ u, u ≠ t → agent.holds ≠ some u) (hwakes : old.wakes = none)
    (hthreads : ∀ u, u ≠ t → (threads u).flags = (s.threads u).flags ∧
      (threads u).cpuId = (s.threads u).cpuId)
    (hidle : (info t).isIdle = false) (hok : (s.requeue a agent c rq threads).ThreadOk t) :
    (s.requeue a agent c rq threads).Inv info := by
  subst ha
  refine ⟨update_forall hrq h.rqs, fun u hu => ?_, fun u hu => ?_⟩
  · have hne : u ≠ t := by
      rintro rfl
      rw [hidle] at hu
      cases hu
    refine ⟨?_, (h.idle u hu).2⟩
    rw [show ((s.requeue a agent c rq threads).threads u).state = (s.threads u).state from
      congrArg ThreadFlags.state (hthreads u hne).1]
    exact (h.idle u hu).1
  · by_cases hut : u = t
    · subst hut
      exact hok
    · refine (h.threads u hu).frame (fun l => ?_) (hthreads u hut) rfl (fun hc => hc)
        fun _ a' hw => ?_
      · exact at_requeue_of_ne hcurrent (hmem u hut) (iff_of_false (hnew u hut) (hold u hut)) l
      · exact wakes_become (fun hw' => by rw [hwakes] at hw'; cases hw') hw

/-- The thread reaches the queue. -/
theorem Inv.arrive {preempts : Bool} (ha : s.agents a = .carrying t cpu)
    (hq : ((s.rqs cpu).updateClockLocked nowNs).enqueueLocked info s.threads t =
    some (preempts, rq, threads)) : (s.requeue a .idle cpu rq threads).Inv info := by
  have hhere : s.At t (.transit a) := by rw [At, ha]; rfl
  obtain ⟨hclock, hqueued, hcurrent, -⟩ := RunQueue.updateClockLocked_spec (h.rqs cpu) nowNs
  have hidle : (info t).isIdle = false := (RunQueue.enqueueLocked_cases hq).1
  have hok := h.threads t hidle
  have hfresh : t ∉ ((s.rqs cpu).updateClockLocked nowNs).queued := by
    rw [hqueued]
    exact fun hmem => Loc.noConfusion (hok.unique (.queue cpu) _ hmem hhere)
  have hne : t ≠ ((s.rqs cpu).updateClockLocked nowNs).current := by
    rw [hcurrent]
    exact fun heq => Loc.noConfusion (hok.unique (.cpu cpu) _ heq.symm hhere)
  obtain ⟨hinv, hperm, hcurrent', rfl⟩ := RunQueue.enqueueLocked_spec hclock hfresh hne hq
  rw [hqueued] at hperm
  have hcur : rq.current = s.current cpu := hcurrent'.trans hcurrent
  obtain ⟨hsched, hstate, hphase⟩ := hok.fits _ hhere
  refine h.requeue hinv hcur (fun u hu => ?_) ha holds_only holds_none rfl (fun u hu => ?_) hidle ?_
  · rw [hperm.mem_iff, List.mem_cons]
    exact or_iff_right hu
  · simp only [modify_of_ne hu, and_self]
  · refine ThreadOk.held (l := .queue cpu) (fun l => ?_) ?_ nofun
    · have hin : t ∈ rq.queued := hperm.mem_iff.2 List.mem_cons_self
      rw [hok.at_requeue hhere hcur]
      simp only [hin, Agent.holds]
      tauto
    · simp only [Machine.requeue, modify_self]
      exact ⟨hsched, rfl, rfl, hphase⟩

/-- A thread is stolen. -/
theorem Inv.steal {victim thief enough : Nat} (ha : s.agents a = .idle)
    (hq : (s.rqs victim).trySteal info s.threads enough = some (some t, rq, threads)) :
    (s.requeue a (.stolen t thief) victim rq threads).Inv info := by
  have hon : ∀ u ∈ (s.rqs victim).queued, (s.threads u).onRunqueue = true := fun u hu =>
    ((h.threads u ((h.rqs victim).toTiers.not_idle hu)).fits (.queue victim) hu).2.2.1
  rcases RunQueue.trySteal_spec (h.rqs victim) hon hq with
    ⟨hnone, -⟩ | ⟨t', ht', hmem, hinv, hperm, hcur, hsame⟩
  · cases hnone
  cases ht'
  have hidle := (h.rqs victim).toTiers.not_idle hmem
  have hok := h.threads t hidle
  have hhere : s.At t (.queue victim) := hmem
  obtain ⟨hsched, hstate, -, hphase⟩ := hok.fits _ hhere
  have hnotin : t ∉ rq.queued := (List.nodup_cons.1 (hperm.nodup_iff.1 (h.rqs victim).nodup)).1
  have hstate' : (threads t).state = .ready := by
    rw [Thread.state, (hsame t).1, modify_self]
    exact hstate
  refine h.requeue hinv hcur (fun u hu => ?_) ha holds_none holds_only rfl (fun u hu => ?_) hidle ?_
  · rw [hperm.mem_iff, List.mem_cons]
    exact (or_iff_right hu).symm
  · have hu' := hsame u
    rwa [modify_of_ne hu] at hu'
  · refine ThreadOk.held (l := .transit a) (fun l => ?_) ?_ nofun
    · rw [hok.at_requeue hhere hcur]
      simp only [hnotin, Agent.holds]
      tauto
    · refine ⟨?_, .inl hstate', hphase⟩
      simp only [Machine.requeue, (hsame t).1, modify_self]
      exact hsched

end

/-! ### Switching threads -/

/-- The machine after `switch_away` decided, with `prev` at `phase` in its loop. -/
def switched (s : Machine) (c : Nat) (rq : RunQueue) (threads : Threads)
    (phase : Phase) : Machine :=
  { s with
    threads := threads
    rqs := Function.update s.rqs c rq
    phase := Function.update s.phase (s.current c) phase }

theorem at_switched (l : Loc) : (s.switched c rq threads phase).At u l ↔ match l with
      | .cpu c' => if c' = c then rq.current = u else s.At u l
      | .queue c' => if c' = c then u ∈ rq.queued else s.At u l
      | .transit _ => s.At u l := by
  cases l with
  | cpu c' =>
    simp only [At, current, switched]
    by_cases hc : c' = c
    · rw [hc, update_self, if_pos rfl]
    · rw [update_of_ne hc, if_neg hc]
  | queue c' =>
    simp only [At, switched]
    by_cases hc : c' = c
    · rw [hc, update_self, if_pos rfl]
    · rw [update_of_ne hc, if_neg hc]
  | transit a => exact Iff.rfl

theorem at_switched_same (hcurrent : rq.current = u ↔ s.current c = u)
    (hmem : u ∈ rq.queued ↔ u ∈ (s.rqs c).queued)
    (l : Loc) : (s.switched c rq threads phase).At u l ↔ s.At u l := by
  cases l with
  | cpu c' =>
    exact (update_keeps (fun rq : RunQueue => rq.current = u) (propext hcurrent) c').to_iff
  | queue c' => exact (update_keeps (fun rq : RunQueue => u ∈ rq.queued) (propext hmem) c').to_iff
  | transit a => exact Iff.rfl

/-- Somebody who neither ran nor runs now. -/
theorem ThreadOk.bystander (hok : s.ThreadOk u) (hprev : u ≠ s.current c) (hnext : u ≠ rq.current)
    (hmem : u ∈ rq.queued ↔ u ∈ (s.rqs c).queued)
    (hflags : (threads u).flags = (s.threads u).flags ∧ (threads u).cpuId = (s.threads u).cpuId) :
    (s.switched c rq threads phase).ThreadOk u := by
  exact hok.frame (at_switched_same (iff_of_false hnext.symm hprev.symm) hmem) hflags
    (update_of_ne hprev ..) (fun hc => hc) fun _ _ hw => hw

/-- What `switch_away` needs to know about the thread it takes the CPU from. -/
structure MayLeave (s : Machine) (t : Nat) (stays : Bool) (phase : Phase) : Prop where
  carries : stays = true → OnCpu phase (s.threads t).state ∧ phase ≠ .exiting ∧
    (phase = .waiting → s.phase t = .waiting)
  leaves : stays = false → (s.threads t).state ≠ .running ∧ Gone (s.threads t) phase ∧
    (s.cond t = true → (s.threads t).state = .blocked → ∃ a, (s.agents a).wakes = some t)

/-- Where a thread of the CPU, or of its queue, is after a switch. -/
theorem ThreadOk.at_switched_iff {l₀ : Loc} (hok : s.ThreadOk u) (hhere : s.At u l₀)
    (hl₀ : l₀ = .cpu c ∨ l₀ = .queue c) (l : Loc) : (s.switched c rq threads phase).At u l ↔
      l = .cpu c ∧ rq.current = u ∨ l = .queue c ∧ u ∈ rq.queued := by
  have hother : l ≠ .cpu c → l ≠ .queue c → ¬ s.At u l := fun hcpu hqueue hl => by
    rcases hl₀ with rfl | rfl
    · exact hcpu (hok.unique _ _ hl hhere)
    · exact hqueue (hok.unique _ _ hl hhere)
  rw [at_switched]
  cases l with
  | cpu c' =>
    by_cases hc : c' = c
    · simp [hc]
    · simpa [hc] using hother (by simp [hc]) (by simp)
  | queue c' =>
    by_cases hc : c' = c
    · simp [hc]
    · simpa [hc] using hother (by simp) (by simp [hc])
  | transit a => simpa using hother (by simp) (by simp)

variable (hok : s.ThreadOk (s.current c))
include hok

/-- The thread that had the CPU carries on. -/
theorem ThreadOk.carriesOn (hcurrent : rq.current = s.current c)
    (hmem : ∀ u, u ∈ rq.queued ↔ u ∈ (s.rqs c).queued)
    (hflags : (threads (s.current c)).flags = (s.threads (s.current c)).flags ∧
      (threads (s.current c)).cpuId = (s.threads (s.current c)).cpuId)
      (hleave : s.MayLeave (s.current c) true phase) :
    (s.switched c rq threads phase).ThreadOk (s.current c) := by
  have hcpu : s.At (s.current c) (.cpu c) := rfl
  obtain ⟨hon, -, hwait⟩ := hleave.carries rfl
  obtain ⟨hsched, hcpuId, -⟩ := hok.fits _ hcpu
  have hstate : (threads (s.current c)).state = (s.threads (s.current c)).state :=
    congrArg ThreadFlags.state hflags.1
  have hnotin : s.current c ∉ rq.queued := fun hq =>
    Loc.noConfusion (hok.unique (.queue c) (.cpu c) ((hmem _).1 hq) hcpu)
  refine ThreadOk.placed (l := .cpu c) (fun l => ?_) ?_ ?_
  · rw [hok.at_switched_iff hcpu (.inl rfl)]
    simp [hcurrent, hnotin]
  · simp only [switched, update_self]
    exact ⟨hflags.1 ▸ hsched, hflags.2.trans hcpuId, by rw [hstate]; exact hon⟩
  · intro hc hblocked hw
    simp only [switched, update_self] at hw
    exact hok.woken hc (hstate.symm.trans hblocked) (.inl (hwait hw))

/-- The thread that had the CPU waits like the others now. -/
theorem ThreadOk.waits (hcurrent : rq.current ≠ s.current c)
    (hmem : s.current c ∈ rq.queued) (hflags : (threads (s.current c)).flags =
      { (s.threads (s.current c)).flags with onRunqueue := true, state := .ready })
    (hphase : phase ≠ .exiting) : (s.switched c rq threads phase).ThreadOk (s.current c) := by
  have hcpu : s.At (s.current c) (.cpu c) := rfl
  obtain ⟨hsched, -, -⟩ := hok.fits _ hcpu
  refine ThreadOk.held (l := .queue c) (fun l => ?_) ?_ nofun
  · rw [hok.at_switched_iff hcpu (.inl rfl)]
    simp [hcurrent, hmem]
  · simp only [switched, update_self, Fits, Thread.state, Thread.onRunqueue, hflags]
    exact ⟨hsched, trivial, trivial, hphase⟩

/-- The thread that had the CPU is gone. -/
theorem ThreadOk.left (hcurrent : rq.current ≠ s.current c)
    (hmem : s.current c ∉ rq.queued)
    (hflags : (threads (s.current c)).flags = (s.threads (s.current c)).flags)
    (hleave : s.MayLeave (s.current c) false phase) :
    (s.switched c rq threads phase).ThreadOk (s.current c) := by
  have hcpu : s.At (s.current c) (.cpu c) := rfl
  obtain ⟨-, hgone, hwoken⟩ := hleave.leaves rfl
  have hstate : (threads (s.current c)).state = (s.threads (s.current c)).state :=
    congrArg ThreadFlags.state hflags
  refine ThreadOk.away (fun l => ?_) ?_ fun hc hblocked => hwoken hc (hstate.symm.trans hblocked)
  · rw [hok.at_switched_iff hcpu (.inl rfl)]
    simp [hcurrent, hmem]
  · simp only [switched, update_self]
    unfold Gone at hgone ⊢
    rw [hflags, hstate]
    exact hgone

omit hok

/-- The thread that gets the CPU. -/
theorem ThreadOk.entered (hok : s.ThreadOk rq.current) (hprev : rq.current ≠ s.current c)
    (hmem : rq.current ∈ (s.rqs c).queued) (hnotin : rq.current ∉ rq.queued)
    (hflags : (threads rq.current).flags.scheduled = (s.threads rq.current).flags.scheduled ∧
      (threads rq.current).state = .running ∧ (threads rq.current).cpuId = c) :
    (s.switched c rq threads phase).ThreadOk rq.current := by
  have hqueue : s.At rq.current (.queue c) := hmem
  obtain ⟨hsched, -, -, hphase⟩ := hok.fits _ hqueue
  refine ThreadOk.placed (l := .cpu c) (fun l => ?_) ?_ ?_
  · rw [hok.at_switched_iff hqueue (.inr rfl)]
    simp [hnotin]
  · simp only [switched, update_of_ne hprev]
    refine ⟨hflags.1.trans hsched, hflags.2.2, ?_⟩
    rw [hflags.2.1]
    cases hp : s.phase rq.current with
    | free => rfl
    | exiting => exact absurd hp hphase
    | prepared => exact .inl rfl
    | waiting => exact .inl rfl
    | met => exact .inl rfl
  · intro _ hblocked
    exact nomatch hblocked.symm.trans hflags.2.1

theorem switchTo_of_ne (hprev : u ≠ prev) (hnext : u ≠ next) :
    switchTo c prev next threads u = threads u := by
  rw [switchTo, modify_of_ne hnext, modify_of_ne hprev]

theorem switchTo_prev (hne : next ≠ prev) : switchTo c prev next threads prev =
      if (threads prev).state = .running then (threads prev).setState .ready else threads prev := by
  rw [switchTo, modify_of_ne hne.symm, modify_self]

theorem switchTo_next (hne : next ≠ prev) :
    switchTo c prev next threads next = { (threads next).setState .running with cpuId := c } := by
  rw [switchTo, modify_self, modify_of_ne hne]

section

variable {threads' : Threads} {stays : Bool} (hne : next ≠ prev) (hsame : threads'.Same
  ((if stays then threads.modify prev Thread.markQueued else threads).modify next
    (Thread.setOnRunqueue false)))
include hsame

/-- What `pick_next_locked` does to those it neither takes the CPU from nor gives it to. -/
theorem picked_other (hprev : u ≠ prev) (hnext : u ≠ next) :
    (threads' u).flags = (threads u).flags ∧ (threads' u).cpuId = (threads u).cpuId := by
  have hu := hsame u
  rw [modify_of_ne hnext] at hu
  split at hu
  · rwa [modify_of_ne hprev] at hu
  · exact hu

include hne

theorem picked_prev : (threads' prev).flags =
      (if stays then { (threads prev).flags with onRunqueue := true, state := .ready }
        else (threads prev).flags) ∧
    (threads' prev).cpuId = (threads prev).cpuId := by
  have hprev := hsame prev
  rw [modify_of_ne hne.symm] at hprev
  rw [hprev.1, hprev.2]
  split
  · rw [modify_self]
    exact ⟨rfl, rfl⟩
  · exact ⟨rfl, rfl⟩

theorem picked_next : (threads' next).flags.scheduled = (threads next).flags.scheduled := by
  rw [(hsame next).1, modify_self]
  split
  · rw [modify_of_ne hne]
    rfl
  · rfl

end

/-- **The switch keeps every thread accounted for.** -/
theorem Inv.switched {rq₀ : RunQueue} {stays : Bool} (h : s.Inv info)
    (hqueued : rq₀.queued = (s.rqs c).queued)
    (hidleThread : rq₀.idleThread = (s.rqs c).idleThread) (hrq : rq.Inv info)
    (houtcome : RunQueue.Outcome info rq₀ rq s.threads threads (s.current c) stays next)
    (hidle : (info (s.current c)).isIdle = true → phase = .free ∧ stays = false)
    (hleave : (info (s.current c)).isIdle = false → s.MayLeave (s.current c) stays phase) :
    (s.switched c rq (if next = s.current c then threads else switchTo c (s.current c) next threads)
      phase).Inv info := by
  have hrqs : ∀ threads', ∀ c', ((s.switched c rq threads' phase).rqs c').Inv info :=
    fun _ => update_forall hrq h.rqs
  have hphase : ∀ u, (info u).isIdle = true →
      (Function.update s.phase (s.current c) phase) u = .free := by
    intro u hu
    by_cases hu' : u = s.current c
    · subst hu'
      rw [update_self]
      exact (hidle hu).1
    · rw [update_of_ne hu']
      exact (h.idle u hu).2
  cases houtcome with
  | carriesOn hstays hcurrent hmem hsame =>
    rw [if_pos rfl]
    have hmem' : ∀ u, u ∈ rq.queued ↔ u ∈ (s.rqs c).queued := fun u => by rw [hmem, hqueued]
    refine ⟨hrqs _, fun u hu => ⟨?_, hphase u hu⟩, fun u hu => ?_⟩
    · rw [show ((s.switched c rq threads phase).threads u).state = (s.threads u).state from
        congrArg ThreadFlags.state (hsame u).1]
      exact (h.idle u hu).1
    · by_cases hu' : u = s.current c
      · subst hu'
        have hstays : stays = true := hstays.resolve_right (by rw [hu]; exact Bool.false_ne_true)
        exact (h.threads _ hu).carriesOn hcurrent hmem' (hsame _) (hstays ▸ hleave hu)
      · exact (h.threads u hu).bystander hu' (by rwa [hcurrent]) (hmem' u) (hsame u)
  | switches hne hcurrent hnext hmem hsame =>
    rw [if_neg hne]
    rw [hqueued] at hnext hmem
    rw [hidleThread] at hnext
    have hprev := (picked_prev hne hsame).1
    refine ⟨hrqs _, fun u hu => ⟨?_, hphase u hu⟩, fun u hu => ?_⟩
    · show (switchTo c (s.current c) next threads u).state = .running ∨
        (switchTo c (s.current c) next threads u).state = .ready
      by_cases hu' : u = s.current c
      · subst hu'
        rw [switchTo_prev hne]
        split
        · exact .inr rfl
        · rw [(hidle hu).2, if_neg Bool.false_ne_true] at hprev
          rw [Thread.state, hprev]
          exact (h.idle _ hu).1
      · by_cases hun : u = next
        · rw [hun, switchTo_next hne]
          exact .inl rfl
        · rw [switchTo_of_ne hu' hun, Thread.state, (picked_other hsame hu' hun).1]
          exact (h.idle u hu).1
    · have hok := h.threads u hu
      by_cases hu' : u = s.current c
      · subst hu'
        have hmoved : rq.current ≠ s.current c := by rwa [hcurrent]
        cases stays with
        | true =>
          rw [if_pos rfl] at hprev
          refine hok.waits hmoved ((hmem _).2 ⟨hne.symm, .inr ⟨rfl, rfl⟩⟩) ?_
            ((hleave hu).carries rfl).2.1
          rw [switchTo_prev hne, if_neg (by rw [Thread.state, hprev]; exact nofun), hprev]
        | false =>
          rw [if_neg Bool.false_ne_true] at hprev
          refine hok.left hmoved (fun hin => ?_) ?_ (hleave hu)
          · rcases ((hmem _).1 hin).2 with hin | ⟨hfalse, -⟩
            · exact (h.rqs c).current hin
            · cases hfalse
          · rw [switchTo_prev hne, if_neg, hprev]
            rw [Thread.state, hprev]
            exact ((hleave hu).leaves rfl).1
      · by_cases hun : u = next
        · subst hun
          have hin : u ∈ (s.rqs c).queued := by
            refine hnext.resolve_left fun heq => ?_
            rw [heq, (h.rqs c).idle] at hu
            cases hu
          subst hcurrent
          refine hok.entered hu' hin (fun hin' => ((hmem _).1 hin').1 rfl) ?_
          rw [switchTo_next hne]
          exact ⟨picked_next hne hsame, rfl, rfl⟩
        · refine hok.bystander hu' (by rwa [hcurrent]) ?_ ?_
          · rw [hmem]
            constructor
            · rintro ⟨-, hin | ⟨-, heq⟩⟩
              · exact hin
              · exact absurd heq hu'
            · exact fun hin => ⟨hun, .inl hin⟩
          · rw [switchTo_of_ne hu' hun]
            exact picked_other hsame hu' hun

/-- The machine as `switch_away` leaves it. -/
theorem switchAway_switched (h : s.Inv info) (hs : s.switchAway info c mode nowNs = some s') :
    ∃ rq₀ rq threads next, rq₀.queued = (s.rqs c).queued ∧
    rq₀.idleThread = (s.rqs c).idleThread ∧ rq.Inv info ∧
      RunQueue.Outcome info rq₀ rq s.threads threads (s.current c)
        (RunQueue.runnable info s.threads (s.current c) mode) next ∧
      s' = s.switched c rq (if next = s.current c then threads
        else switchTo c (s.current c) next threads) (s.phase (s.current c)) ∧ rq.dead =
        if (info (s.current c)).isIdle = false ∧
        RunQueue.runnable info s.threads (s.current c) mode = false ∧
            (s.threads (s.current c)).state = .dead then
          s.current c :: (s.rqs c).dead
        else (s.rqs c).dead := by
  obtain ⟨hclock, hqueued, hcurrent, hidleThread⟩ := RunQueue.updateClockLocked_spec (h.rqs c) nowNs
  unfold Machine.switchAway at hs
  simp only at hs
  split at hs
  · cases hs
  rename_i next rq threads hpick
  obtain ⟨hrq, houtcome⟩ := RunQueue.pickNextLocked_spec hclock hpick
  have hdead := RunQueue.pickNextLocked_dead hclock rfl hpick
  rw [RunQueue.updateClockLocked_dead] at hdead
  rw [hcurrent] at houtcome hdead hs
  cases hs
  refine ⟨_, rq, threads, next, hqueued, hidleThread, hrq, houtcome, ?_, hdead⟩
  unfold switched
  rw [update_eq_self]
  rfl

/-- `switch_away`, as the outcome of `pick_next_locked`. -/
theorem Inv.switchAway (h : s.Inv info) (hs : s.switchAway info c mode nowNs = some s')
    (hidle : (info (s.current c)).isIdle = true → phase = .free)
    (hleave : (info (s.current c)).isIdle = false →
      s.MayLeave (s.current c) (RunQueue.runnable info s.threads (s.current c) mode) phase) :
    { s' with phase := Function.update s'.phase (s.current c) phase }.Inv info := by
  obtain ⟨rq₀, rq, threads, next, hqueued, hidleThread, hrq, houtcome, rfl, -⟩ :=
    switchAway_switched h hs
  have hinv := h.switched hqueued hidleThread hrq houtcome
    (fun hi => ⟨hidle hi, by rw [RunQueue.runnable, hi]; rfl⟩) hleave
  simpa only [Machine.switched, update_idem] using hinv

theorem Inv.switchAway_same (h : s.Inv info) (hs : s.switchAway info c mode nowNs = some s')
    (hleave : (info (s.current c)).isIdle = false →
      s.MayLeave (s.current c) (RunQueue.runnable info s.threads (s.current c) mode)
        (s.phase (s.current c))) :
    s'.Inv info := by
  have hinv := h.switchAway hs (fun hi => (h.idle _ hi).2) hleave
  obtain ⟨rq₀, rq, threads, next, -, -, -, -, rfl, -⟩ := switchAway_switched h hs
  simpa only [Machine.switched, update_idem] using hinv

/-- What holds of a thread on its CPU. -/
theorem Inv.on_cpu (h : s.Inv info) (hidle : (info (s.current c)).isIdle = false) :
    (s.threads (s.current c)).flags.scheduled = true ∧
      OnCpu (s.phase (s.current c)) (s.threads (s.current c)).state := by
  obtain ⟨hsched, -, hon⟩ := (h.threads _ hidle).fits (.cpu c) rfl
  exact ⟨hsched, hon⟩

theorem not_runnable (hmode : mode ≠ .preempted) (hidle : (info t).isIdle = false) :
    RunQueue.runnable info s.threads t mode = decide ((s.threads t).state = .running) := by
  rw [RunQueue.runnable, hidle, decide_eq_false hmode]
  rfl

variable (h : s.Inv info)
include h

/-- `schedule` at the end of the loop. -/
theorem Inv.block (hphase : s.phase (s.current c) = .waiting)
    (hs : s.switchAway info c .voluntary nowNs = some s') :
    { s' with phase := Function.update s'.phase (s.current c) .free }.Inv info := by
  refine h.switchAway hs (fun _ => rfl) fun hidle => ?_
  obtain ⟨hsched, hon⟩ := h.on_cpu hidle
  rw [hphase] at hon
  rw [not_runnable PickMode.noConfusion hidle]
  refine ⟨fun hstays => ?_, fun hstays => ?_⟩
  · have hrun : (s.threads (s.current c)).state = .running := of_decide_eq_true hstays
    exact ⟨hrun, nofun, fun hp => Phase.noConfusion hp⟩
  · have hrun := of_decide_eq_false hstays
    have hblocked := hon.resolve_left hrun
    refine ⟨hrun, ?_, fun hc hb => (h.threads _ hidle).woken hc hb (.inl hphase)⟩
    rw [Gone, hsched, if_pos rfl]
    exact .inl ⟨hblocked, nofun⟩

theorem Inv.reschedule (hphase : s.phase (s.current c) = .free) (hmode : mode ≠ .preempted)
    (hs : s.switchAway info c mode nowNs = some s') : s'.Inv info := by
  refine h.switchAway_same hs fun hidle => ?_
  obtain ⟨-, hon⟩ := h.on_cpu hidle
  rw [hphase] at hon ⊢
  rw [not_runnable hmode hidle]
  refine ⟨fun _ => ⟨hon, nofun, fun hp => Phase.noConfusion hp⟩, fun hstays => ?_⟩
  have hrun : (s.threads (s.current c)).state ≠ .running := of_decide_eq_false hstays
  exact absurd hon hrun

theorem Inv.preempt (hidle : (info (s.current c)).isIdle = false)
    (hdead : (s.threads (s.current c)).state ≠ .dead)
    (hs : s.switchAway info c .preempted nowNs = some s') : s'.Inv info := by
  refine h.switchAway_same hs fun _ => ?_
  obtain ⟨-, hon⟩ := h.on_cpu hidle
  have hrunnable : RunQueue.runnable info s.threads (s.current c) .preempted = true := by
    rw [RunQueue.runnable, hidle]
    rfl
  rw [hrunnable]
  refine ⟨fun _ => ⟨hon, fun hp => ?_, fun hp => hp⟩, fun hfalse => ?_⟩
  · rw [hp] at hon
    exact hdead hon
  · cases hfalse

theorem Inv.leave (hphase : s.phase (s.current c) = .exiting)
    (hs : s.switchAway info c .voluntary nowNs = some s') : s'.Inv info := by
  refine h.switchAway_same hs fun hidle => ?_
  obtain ⟨hsched, hon⟩ := h.on_cpu hidle
  rw [hphase] at hon ⊢
  have hdead : (s.threads (s.current c)).state = .dead := hon
  rw [not_runnable PickMode.noConfusion hidle, hdead]
  refine ⟨fun hfalse => absurd hfalse Bool.false_ne_true, fun _ => ⟨by rw [hdead]; decide, ?_, ?_⟩⟩
  · rw [Gone, hsched, if_pos rfl]
    exact .inr hdead
  · intro _ hblocked
    exact nomatch hblocked.symm.trans hdead

/-- **Every step keeps the invariant.** -/
theorem Inv.step (hstep : Step info s s') : s'.Inv info := by
  cases hstep with
  | prepare c hidle hphase => exact h.moveOn hidle (.inr rfl) nofun
  | check c hphase => exact h.check hphase
  | cancel c hphase =>
    exact h.moveOn (h.not_idle (by rw [hphase]; exact nofun)) rfl nofun
  | block c nowNs hphase hs => exact h.block hphase hs
  | reschedule c nowNs mode hphase hmode hs => exact h.reschedule hphase hmode hs
  | preempt c nowNs hidle hdead hs => exact h.preempt hidle hdead hs
  | exit c hidle hphase => exact h.moveOn hidle rfl nofun
  | leave c nowNs hphase hs => exact h.leave hphase hs
  | signal a t ha =>
    have hbecome : (s.become a (.waking t)).Inv info := h.become ha rfl rfl fun _ _ => nofun
    refine hbecome.setCond (a := a) fun _ => ?_
    simp only [Machine.become, update_self]
    rfl
  | poke a t ha => exact h.become ha rfl rfl fun _ _ => nofun
  | reset t => exact h.setCond (a := 0) fun hfalse => by cases hfalse
  | look a t ha => exact h.become ha rfl rfl fun _ _ hu => hu
  | wake a t cpu ha => exact h.wakeLocked ha
  | offer a t ha hidle hstate => exact h.become ha rfl rfl fun _ _ => nofun
  | hand a t ha hnot => exact h.hand ha hnot
  | handTaken a t ha _ => exact h.become ha rfl rfl fun _ _ => nofun
  | place a t cpu fresh ha => exact h.headFor ha rfl rfl
  | revoke a t ha => exact h.revoke ha
  | arrive a t cpu nowNs ha hq => exact h.arrive ha hq
  | steal a victim thief enough t ha hq => exact h.steal ha hq
  | adopt a t thief ha => exact h.headFor ha rfl rfl

omit h

/-- When the CPUs come up. -/
theorem Boot.inv (h : Boot info s) : s.Inv info := by
  have hqueued : ∀ c, (s.rqs c).queued = [] := by
    intro c
    obtain ⟨i, -, hrq⟩ := h.rqs c
    rw [hrq]
    rfl
  refine ⟨fun c => ?_, fun t ht => ⟨.inl (h.idle t ht), h.phase t⟩, fun t ht => ?_⟩
  · obtain ⟨i, hi, hrq⟩ := h.rqs c
    rw [hrq]
    refine ⟨⟨EevdfQueue.empty_shape, List.nodup_nil, hi, nofun, nofun,
      fun _ => rfl⟩, List.not_mem_nil, fun _ => rfl, ?_⟩
    rw [if_neg
      (by rw [RunQueue.isFair_iff, show (info (RunQueue.initialized i).current).isIdle = true
        from hi]; simp)]
    rfl
  · obtain ⟨hsched, hstate⟩ := h.threads t ht
    refine ThreadOk.away (fun l hl => ?_) ?_ fun _ hblocked => ?_
    · cases l with
      | cpu c =>
        obtain ⟨i, hi, hrq⟩ := h.rqs c
        have heq : i = t := by
          simp only [At, current, hrq] at hl
          exact hl
        rw [← heq, hi] at ht
        cases ht
      | queue c =>
        simp only [At, hqueued c, List.not_mem_nil] at hl
      | transit a =>
        simp only [At, h.agents a] at hl
        cases hl
    · rw [Gone, hsched, if_neg Bool.false_ne_true, h.phase t]
      exact ⟨hstate, nofun⟩
    · rcases hstate with heq | heq <;> exact nomatch hblocked.symm.trans heq

theorem reachable_inv (h : (system info).Reachable s) : s.Inv info :=
  h.invariant (I := Inv info) (fun _ hboot => Boot.inv hboot) fun _ _ hinv hstep =>
    Inv.step hinv hstep

end

/-- **No wakeup is lost.**  In every reachable state, a thread that the scheduler has, that has not
ended, whose condition holds and that no call of `wake` is under way for, is on a CPU, on a run
queue, or in transit to one. -/
theorem no_lost_wakeup (s : Machine) (h : (system info).Reachable s) (t : Nat)
    (hidle : (info t).isIdle = false) (hscheduled : (s.threads t).flags.scheduled = true)
    (halive : (s.threads t).state ≠ .dead) (hcond : s.cond t = true)
    (hwakers : ∀ a, (s.agents a).wakes ≠ some t) : ∃ l, s.At t l := by
  have hok := (reachable_inv h).threads t hidle
  by_contra hnowhere
  have hnot : ∀ l, ¬ s.At t l := fun l hl => hnowhere ⟨l, hl⟩
  have hgone := hok.gone hnot
  rw [Gone, hscheduled, if_pos rfl] at hgone
  obtain ⟨a, ha⟩ := hok.woken hcond (hgone.resolve_right halive).1 (.inr hnot)
  exact hwakers a ha

/-- Even numbers are idle threads. -/
def evenIdle (t : Nat) : ThreadInfo where
  priorityClass := if t % 2 = 0 then .idle else .normal
  isIdle := t % 2 == 0
  isPinned := false

/-- A machine that has just come up. -/
def fresh : Machine where
  threads t :=
    { flags := ⟨if t % 2 = 0 then .running else .ready, false, false⟩
      cpuId := 0
      entity := ⟨t, 1024, nice0Weight_pos, 2 ^ 32, 2000000, 0, 0, 0⟩ }
  rqs c := RunQueue.initialized (2 * c)
  cond _ := false
  phase _ := .free
  agents _ := .idle

theorem fresh_boot : Boot evenIdle fresh where
  rqs c := ⟨2 * c, by simp [evenIdle], rfl⟩
  idle t ht := by
    simp only [evenIdle, beq_iff_eq] at ht
    simp [fresh, Thread.state, ht]
  threads t ht := by
    simp only [evenIdle, beq_eq_false_iff_ne] at ht
    simp [fresh, Thread.state, ht]
  phase _ := rfl
  agents _ := rfl

/-- Thread 1 is started, waits, and is woken once it has left its CPU; after that it is on its way
to one. -/
theorem no_lost_wakeup_one :
    ∃ s, (system evenIdle).Reachable s ∧ s.cond 1 = true ∧ ∃ l, s.At 1 l := by
  have h₁ := System.Reachable.init (S := system evenIdle) fresh_boot
  have h₂ := (h₁.step (Step.offer 0 1 rfl rfl (.inl rfl))).step (Step.hand 0 1 rfl rfl)
  have h₃ := (h₂.step (Step.place 0 1 0 true rfl)).step (Step.arrive 0 1 0 0 rfl rfl)
  have h₄ := (h₃.step (Step.reschedule 0 0 .voluntary rfl nofun rfl)).step (Step.prepare 0 rfl rfl)
  have h₅ := (h₄.step (Step.check 0 rfl)).step (Step.block 0 0 rfl rfl)
  have h₆ := (h₅.step (Step.signal 0 1 rfl)).step (Step.look 0 1 rfl)
  have h₇ := h₆.step (Step.wake 0 1 0 rfl)
  refine ⟨_, h₇, rfl, no_lost_wakeup evenIdle _ h₇ 1 rfl rfl nofun rfl fun a => ?_⟩
  cases a with
  | zero => exact nofun
  | succ a => exact nofun

end Machine

end Erebus.Sched
