import Erebus.Sched.Blocking

/-!
# Inside the lock sections

The same machine with its lock sections taken apart. A CPU's run-queue lock keeps out whoever wants
that lock, and nobody else: between the moment `wake` reads a thread's state and the moment it
writes its own decision, the thread itself may go on, as `prepare_to_block`, `cancel_block` and
`exit_current` take no lock. A context switch holds the lock until the thread that left is off its
CPU.

* `Cpus`: the machine, who is inside a lock section, and how often `enqueue` has succeeded for each
  thread.
* `Step`: one step of anybody; a thread announces a block, takes it back, gives up its CPU and ends
  at any time.
* `Ok`: the invariant of all runs in which no thread ends behind the back of somebody who is about
  to wake it.

`switch_away`, `enqueue_locked` and `try_steal` remain one step each: what they read and write
belongs to the queue they have locked, or to a thread that is in their hands.
-/

namespace Erebus.Sched

open Function (update_self update_of_ne update_eq_self)

/-- All CPUs, with the lock sections that are under way. -/
structure Cpus where
  machine : Machine
  /-- The calls of `wake` that hold the lock and have found their thread waiting. -/
  decided : Nat → Bool
  /-- The thread that a CPU is switching away from. -/
  leaving : Nat → Option Nat
  /-- How often `enqueue` has succeeded for a thread. -/
  enqueued : Nat → Nat

namespace Cpus

open Threads (modify_self modify_of_ne)

variable (info : Nat → ThreadInfo)

def current (s : Cpus) (c : Nat) : Nat := s.machine.current c

/-- Somebody holds the lock of a CPU's run queue. -/
def Locked (s : Cpus) (c : Nat) : Prop :=
  s.leaving c ≠ none ∨ ∃ a t, s.decided a = true ∧ s.machine.agents a = .looked t c

/-- A CPU is running its thread, which is not the idle one and has not begun to end. -/
structure Runs (s : Cpus) (c : Nat) : Prop where
  settled : s.leaving c = none
  idle : (info (s.current c)).isIdle = false
  alive : s.machine.phase (s.current c) ≠ .exiting

/-- Only the machine changes. -/
def on (s : Cpus) (m : Machine) : Cpus := { s with machine := m }

/-- A CPU changes threads, and keeps its lock until the old one is gone. -/
def switch (s : Cpus) (c : Nat) (m : Machine) : Cpus :=
  { s with
    machine := m
    leaving :=
      Function.update s.leaving c (if m.current c = s.current c then none else some (s.current c)) }

/-- `wake` has the lock, and looks at the thread. -/
def inspect (s : Cpus) (a t cpu : Nat) : Cpus :=
  let state := (s.machine.threads t).state
  if (s.machine.threads t).cpuId ≠ cpu then s.on (s.machine.become a (.waking t))
  else if state ≠ .blocked ∧ state ≠ .sleeping then s.on (s.machine.become a .idle)
  else { s with decided := Function.update s.decided a true }

/-- `wake` acts on what it saw. -/
def decide (s : Cpus) (a t cpu : Nat) : Cpus :=
  { s with
    machine :=
      if s.current cpu = t then s.machine.act a .idle t (Thread.setState .running)
      else s.machine.act a (.placing t false) t Thread.markQueued
    decided := Function.update s.decided a false }

/-- `enqueue` will succeed once `place` has chosen a CPU. -/
def place (s : Cpus) (a t cpu : Nat) (fresh : Bool) : Cpus :=
  { s with
    machine := s.machine.act a (.carrying t cpu) t (Thread.setCpuId cpu)
    enqueued := if fresh then Function.update s.enqueued t (s.enqueued t + 1) else s.enqueued }

/-- One step of anybody. `exits` says when a thread may end. -/
inductive Step (exits : Cpus → Nat → Prop) (s : Cpus) : Cpus → Prop
  /-- `prepare_to_block`. -/
  | prepare (c : Nat) : s.Runs info c →
      Step exits s (s.on (s.machine.moveOn (s.current c) .blocked .prepared))
  /-- `cancel_block`. -/
  | cancel (c : Nat) : s.Runs info c →
      Step exits s (s.on (s.machine.moveOn (s.current c) .running .free))
  /-- `schedule` or `yield`; what an idle thread does, too. -/
  | reschedule (c nowNs : Nat) (mode : PickMode) {m : Machine} :
      s.machine.phase (s.current c) ≠ .exiting → mode ≠ .preempted → ¬ s.Locked c →
        s.machine.switchAway info c mode nowNs = some m → Step exits s (s.switch c m)
  /-- `preempt_from_interrupt`. -/
  | preempt (c nowNs : Nat) {m : Machine} :
      s.Runs info c → (s.machine.threads (s.current c)).state ≠ .dead → ¬ s.Locked c →
        s.machine.switchAway info c .preempted nowNs = some m → Step exits s (s.switch c m)
  /-- `exit_current` sets the state; interrupts are off from here on. -/
  | exit (c : Nat) :
      s.Runs info c → exits s (s.current c) →
      Step exits s (s.on (s.machine.moveOn (s.current c) .dead .exiting))
  /-- `exit_current` leaves the CPU. -/
  | leave (c nowNs : Nat) {m : Machine} : s.machine.phase (s.current c) = .exiting → ¬ s.Locked c →
        s.machine.switchAway info c .voluntary nowNs = some m → Step exits s (s.switch c m)
  /-- `finish_switch`. -/
  | finish (c : Nat) : Step exits s { s with leaving := Function.update s.leaving c none }
  /-- A call of `wake`. -/
  | poke (a t : Nat) : s.machine.agents a = .idle →
      Step exits s (s.on (s.machine.become a (.waking t)))
  /-- `wake` reads the thread's CPU. -/
  | look (a t : Nat) : s.machine.agents a = .waking t →
        Step exits s (s.on (s.machine.become a (.looked t (s.machine.threads t).cpuId)))
  /-- `wake` takes the lock, and reads. -/
  | inspect (a t cpu : Nat) : s.machine.agents a = .looked t cpu → ¬ s.Locked cpu →
      Step exits s (s.inspect a t cpu)
  /-- `wake` writes, and lets go of the lock. -/
  | decide (a t cpu : Nat) : s.machine.agents a = .looked t cpu → s.decided a = true →
      Step exits s (s.decide a t cpu)
  /-- `enqueue` looks at the thread's state. -/
  | offer (a t : Nat) : s.machine.agents a = .idle → (info t).isIdle = false →
        (s.machine.threads t).state = .ready ∨ (s.machine.threads t).state = .created →
        Step exits s (s.on (s.machine.become a (.handing t)))
  /-- `try_hand_to_scheduler`. -/
  | hand (a t : Nat) : s.machine.agents a = .handing t →
      (s.machine.threads t).flags.scheduled = false →
        Step exits s (s.on (s.machine.act a (.placing t true) t (Thread.setScheduled true)))
  /-- `try_hand_to_scheduler`, too late. -/
  | handTaken (a t : Nat) : s.machine.agents a = .handing t →
      (s.machine.threads t).flags.scheduled = true → Step exits s (s.on (s.machine.become a .idle))
  /-- `place` has chosen a CPU. -/
  | place (a t cpu : Nat) (fresh : Bool) : s.machine.agents a = .placing t fresh →
      Step exits s (s.place a t cpu fresh)
  /-- `revoke_from_scheduler`, when there is no CPU for a new thread. -/
  | revoke (a t : Nat) : s.machine.agents a = .placing t true →
        Step exits s (s.on (s.machine.act a .idle t (Thread.setScheduled false)))
  /-- The thread is put on the queue of `cpu`. -/
  | arrive (a t cpu nowNs : Nat) {preempts : Bool} {rq : RunQueue} {threads : Threads} :
      s.machine.agents a = .carrying t cpu → ¬ s.Locked cpu →
        ((s.machine.rqs cpu).updateClockLocked nowNs).enqueueLocked info s.machine.threads t =
          some (preempts, rq, threads) →
          Step exits s (s.on (s.machine.requeue a .idle cpu rq threads))
  /-- The idle `thief` takes a thread from `victim`. -/
  | steal (a victim thief enough t : Nat) {rq : RunQueue} {threads : Threads} :
      s.machine.agents a = .idle → ¬ s.Locked victim →
        (s.machine.rqs victim).trySteal info s.machine.threads enough = some (some t, rq, threads) →
        Step exits s (s.on (s.machine.requeue a (.stolen t thief) victim rq threads))
  /-- The thief makes the thread its own. -/
  | adopt (a t thief : Nat) : s.machine.agents a = .stolen t thief →
        Step exits s (s.on (s.machine.act a (.carrying t thief) t (Thread.setCpuId thief)))

/-- When the CPUs come up, nobody waits and nobody is inside a lock section. -/
structure Boot (s : Cpus) : Prop where
  machine : s.machine.Boot info
  cond : ∀ t, s.machine.cond t = false
  decided : ∀ a, s.decided a = false
  leaving : ∀ c, s.leaving c = none
  enqueued : ∀ t, s.enqueued t = 0

/-- The scheduler as a transition system. -/
def system (exits : Cpus → Nat → Prop) : System Cpus where
  init := Boot info
  step := Step info exits

/-- Nobody who is about to wake the thread has looked at it already. -/
def Unwatched (s : Cpus) (t : Nat) : Prop :=
  ∀ a c, s.decided a = true → s.machine.agents a ≠ .looked t c

/-! ## The invariant -/

/-- Nothing about a thread has changed. -/
structure Same (m m' : Machine) (t : Nat) : Prop where
  at_iff : ∀ l, m'.At t l ↔ m.At t l
  flags : (m'.threads t).flags = (m.threads t).flags
  cpuId : (m'.threads t).cpuId = (m.threads t).cpuId
  phase : m'.phase t = m.phase t

/-- What `wake` found is still so: the thread is on the CPU that is locked, or it is blocked. -/
def Awaits (m : Machine) (t c : Nat) : Prop :=
  (m.threads t).cpuId = c ∧
    (m.At t (.cpu c) ∧ m.phase t ≠ .exiting ∨ (∀ l, ¬ m.At t l) ∧ (m.threads t).state = .blocked)

/-- One thread, as the lock sections see it. -/
structure Track (s : Cpus) (t : Nat) : Prop where
  awaits : ∀ a c, s.decided a = true → s.machine.agents a = .looked t c → Awaits s.machine t c
  left : ∀ c, s.leaving c = some t → (s.machine.threads t).cpuId = c ∧
    (s.machine.threads t).flags.scheduled = true ∧ ∀ l, s.machine.At t l → l = .queue c
  enqueued : s.enqueued t = 0 ∨
    s.enqueued t = 1 ∧ (s.machine.threads t).flags.scheduled = true ∧
    ∀ a, s.machine.agents a ≠ .placing t true
  ended : (s.machine.threads t).state = .dead → s.machine.phase t = .exiting
  dead : ∀ c, t ∈ (s.machine.rqs c).dead → s.machine.phase t = .exiting ∧ ∀ l, ¬ s.machine.At t l
  buried : s.machine.phase t = .exiting → (∀ l, ¬ s.machine.At t l) →
    ∃ c, (s.machine.rqs c).dead.count t = 1 ∧ ∀ c', c' ≠ c → t ∉ (s.machine.rqs c').dead

/-- `enqueue` counts a thread once, as it is handed over. -/
abbrev Enqueued (s : Cpus) (t : Nat) : Prop := s.enqueued t = 0 ∨
  s.enqueued t = 1 ∧ (s.machine.threads t).flags.scheduled = true ∧
  ∀ a, s.machine.agents a ≠ .placing t true

/-- A lock has one holder. -/
structure Locks (s : Cpus) : Prop where
  looked : ∀ a, s.decided a = true → ∃ t c, s.machine.agents a = .looked t c
  alone : ∀ a a' t t' c, s.decided a = true → s.decided a' = true →
    s.machine.agents a = .looked t c → s.machine.agents a' = .looked t' c → a = a'
  settled : ∀ a t c, s.decided a = true → s.machine.agents a = .looked t c → s.leaving c = none

structure Ok (s : Cpus) : Prop where
  inv : s.machine.Inv info
  cond : ∀ t, s.machine.cond t = false
  locks : s.Locks
  idle : ∀ a t c, s.decided a = true → s.machine.agents a = .looked t c → (info t).isIdle = false
  threads : ∀ t, (info t).isIdle = false → s.Track t

section Frames

variable {info} {s s' : Cpus} {m m' : Machine} {a c t u : Nat} {agent : Agent}

theorem Awaits.same (h : Awaits m t c) (hsame : Same m m' t) : Awaits m' t c := by
  obtain ⟨hcpu, hwhere⟩ := h
  refine ⟨hsame.cpuId.trans hcpu, hwhere.imp (fun hon => ?_) fun hgone => ?_⟩
  · exact ⟨(hsame.at_iff _).2 hon.1, by rw [hsame.phase]; exact hon.2⟩
  · refine ⟨fun l hl => hgone.1 l ((hsame.at_iff l).1 hl), ?_⟩
    rw [Thread.state, hsame.flags]
    exact hgone.2

/-- A thread that nobody touched. -/
theorem Track.same (h : s.Track t) (hsame : Same s.machine s'.machine t)
    (hdecided : ∀ a, s'.decided a = true → s.decided a = true ∧
      s'.machine.agents a = s.machine.agents a)
    (hleaving : ∀ c, s'.leaving c = some t → s.leaving c = some t)
    (henqueued : s'.enqueued t = s.enqueued t)
    (hplacing : ∀ a, s'.machine.agents a = .placing t true → s.machine.agents a = .placing t true)
    (hdead : ∀ c, (s'.machine.rqs c).dead.count t = (s.machine.rqs c).dead.count t) :
    s'.Track t := by
  have hmem : ∀ c, t ∈ (s'.machine.rqs c).dead ↔ t ∈ (s.machine.rqs c).dead := by
    intro c
    rw [← List.count_pos_iff, hdead, List.count_pos_iff]
  refine ⟨fun a c hd ha => ?_, fun c hc => ?_, ?_, fun hstate => ?_, fun c hc => ?_,
    fun hphase hnot => ?_⟩
  · obtain ⟨hd', hagents⟩ := hdecided a hd
    exact (h.awaits a c hd' (hagents.symm.trans ha)).same hsame
  · obtain ⟨hcpu, hsched, hat⟩ := h.left c (hleaving c hc)
    exact ⟨hsame.cpuId.trans hcpu, by rw [hsame.flags]; exact hsched,
      fun l hl => hat l ((hsame.at_iff l).1 hl)⟩
  · rw [henqueued, hsame.flags]
    exact h.enqueued.imp_right fun hone =>
      ⟨hone.1, hone.2.1, fun a ha => hone.2.2 a (hplacing a ha)⟩
  · rw [Thread.state, hsame.flags] at hstate
    exact hsame.phase.trans (h.ended hstate)
  · obtain ⟨hphase, hnot⟩ := h.dead c ((hmem c).1 hc)
    exact ⟨hsame.phase.trans hphase, fun l hl => hnot l ((hsame.at_iff l).1 hl)⟩
  · obtain ⟨c, hcount, hother⟩ :=
      h.buried (hsame.phase.symm.trans hphase) fun l hl => hnot l ((hsame.at_iff l).2 hl)
    exact ⟨c, (hdead c).trans hcount, fun c' hc' hin => hother c' hc' ((hmem c').1 hin)⟩

/-- Only who has looked at a thread decides about it. -/
theorem Locks.undecided (h : s.Locks) (ha : s.machine.agents a = agent)
    (hnot : ∀ t c, agent ≠ .looked t c) : ∀ a', s.decided a' = true → a' ≠ a := by
  rintro a' hd rfl
  obtain ⟨t, c, hlooked⟩ := h.looked a' hd
  exact hnot t c (ha.symm.trans hlooked)

/-- Locks are let go of, or taken when nobody has them. -/
theorem Locks.same (h : s.Locks)
    (hdecided : ∀ a, s'.decided a = true → s.decided a = true ∧
      s'.machine.agents a = s.machine.agents a)
    (hleaving : ∀ c, s.Locked c → s.leaving c = none → s'.leaving c = none) : s'.Locks := by
  refine ⟨fun a hd => ?_, fun a a' t t' c hd hd' ha ha' => ?_, fun a t c hd ha => ?_⟩
  · obtain ⟨hd', hagents⟩ := hdecided a hd
    rw [hagents]
    exact h.looked a hd'
  · obtain ⟨hd₁, hagents₁⟩ := hdecided a hd
    obtain ⟨hd₂, hagents₂⟩ := hdecided a' hd'
    exact h.alone a a' t t' c hd₁ hd₂ (hagents₁.symm.trans ha) (hagents₂.symm.trans ha')
  · obtain ⟨hd', hagents⟩ := hdecided a hd
    have ha' := hagents.symm.trans ha
    exact hleaving c (.inr ⟨a, t, hd', ha'⟩) (h.settled a t c hd' ha')

/-- **The frame rule**: a step that touches some threads has to answer for those. -/
theorem Ok.of_same (h : s.Ok info) (touched : Nat → Prop) (hinv : s'.machine.Inv info)
    (hcond : s'.machine.cond = s.machine.cond)
    (hdecided : ∀ a, s'.decided a = true → s.decided a = true ∧
      s'.machine.agents a = s.machine.agents a)
    (hlocks : ∀ c, s.Locked c → s.leaving c = none → s'.leaving c = none)
    (hsame : ∀ u, (info u).isIdle = false → ¬ touched u → Same s.machine s'.machine u)
    (hleaving : ∀ u, ¬ touched u → ∀ c, s'.leaving c = some u → s.leaving c = some u)
    (henqueued : ∀ u, ¬ touched u → s'.enqueued u = s.enqueued u)
    (hplacing : ∀ u, ¬ touched u → ∀ a, s'.machine.agents a = .placing u true →
      s.machine.agents a = .placing u true)
    (hdead : ∀ u, ¬ touched u → ∀ c, (s'.machine.rqs c).dead.count u =
      (s.machine.rqs c).dead.count u)
    (htouched : ∀ u, (info u).isIdle = false → touched u → s'.Track u) : s'.Ok info := by
  refine ⟨hinv, fun u => by rw [hcond]; exact h.cond u, h.locks.same hdecided hlocks,
    fun a u c hd ha => ?_, fun u hu => ?_⟩
  · obtain ⟨hd', hagents⟩ := hdecided a hd
    exact h.idle a u c hd' (hagents.symm.trans ha)
  by_cases ht : touched u
  · exact htouched u hu ht
  · exact (h.threads u hu).same (hsame u hu ht) hdecided (hleaving u ht) (henqueued u ht)
      (hplacing u ht) (hdead u ht)

theorem same_become (hholds : agent.holds = some u ↔ (m.agents a).holds = some u) :
    Same m (m.become a agent) u :=
  ⟨Machine.at_become hholds, rfl, rfl, rfl⟩

theorem same_act {f : Thread → Thread} (hne : u ≠ t)
    (hholds : agent.holds = some u ↔ (m.agents a).holds = some u) :
    Same m (m.act a agent t f) u := by
  refine ⟨Machine.at_become hholds, ?_, ?_, rfl⟩ <;> simp only [Machine.act, modify_of_ne hne]

theorem same_moveOn {state : ThreadState} {phase : Phase} (hne : u ≠ t) :
    Same m (m.moveOn t state phase) u := by
  refine ⟨fun l => ?_, ?_, ?_, update_of_ne hne ..⟩
  · cases l <;> exact Iff.rfl
  · simp only [Machine.moveOn, modify_of_ne hne]
  · simp only [Machine.moveOn, modify_of_ne hne]

theorem update_agents_of_ne {a' : Nat} (h : a' ≠ a) : (m.become a agent).agents a' = m.agents a' :=
  update_of_ne h ..

end Frames

/-! ## Agents -/

section

variable {info} {s s' : Cpus} {a c t cpu : Nat} {old agent : Agent}

/-- An agent with no thread in its hands moves on. -/
theorem Ok.become (h : s.Ok info) (ha : s.machine.agents a = old)
    (hdecided : ∀ a', s.decided a' = true → a' ≠ a)
    (hold : old.holds = none) (hnew : agent.holds = none)
    (hwakes : ∀ u, (s.machine.threads u).state = .blocked → old.wakes = some u →
    agent.wakes = some u) : (s.on (s.machine.become a agent)).Ok info := by
  subst ha
  refine h.of_same (fun _ => False) (h.inv.become rfl hold hnew hwakes) rfl
    (fun a' hd => ⟨hd, update_agents_of_ne (hdecided a' hd)⟩) (fun _ _ hnone => hnone)
    (fun u _ _ => same_become (by rw [hold, hnew])) (fun _ _ _ hc => hc) (fun _ _ => rfl)
    (fun u _ a' ha' => ?_) (fun _ _ _ => rfl) fun _ _ => False.elim
  by_cases haa : a' = a
  · rw [haa, show (s.on (s.machine.become a agent)).machine.agents a = agent from
      update_self ..] at ha'
    rw [ha'] at hnew
    cases hnew
  · exact (update_agents_of_ne haa).symm.trans ha'

/-- Nobody but `a` has an eye on a thread. -/
structure Clear (s : Cpus) (a t : Nat) : Prop where
  decided : ∀ a' c, a' ≠ a → s.decided a' = true → s.machine.agents a' ≠ .looked t c
  leaving : ∀ c, s.leaving c ≠ some t
  phase : s.machine.phase t ≠ .exiting

theorem Track.of_clear (h : s.Track t) (hclear : s.Clear a t)
    (hdecided : ∀ a', s'.decided a' = true → a' ≠ a ∧ s.decided a' = true ∧
      s'.machine.agents a' = s.machine.agents a')
    (hleaving : s'.leaving = s.leaving) (hphase : s'.machine.phase = s.machine.phase)
    (hdead : ∀ c, (s'.machine.rqs c).dead = (s.machine.rqs c).dead)
    (hstate : (s'.machine.threads t).state = .dead → (s.machine.threads t).state = .dead)
    (henqueued : s'.Enqueued t) : s'.Track t := by
  refine ⟨fun a' c hd ha => ?_, fun c hc => ?_, henqueued, fun hs => ?_, fun c hc => ?_,
    fun hexit _ => ?_⟩
  · obtain ⟨hne, hd', hagents⟩ := hdecided a' hd
    exact absurd (hagents.symm.trans ha) (hclear.decided a' c hne hd')
  · rw [hleaving] at hc
    exact absurd hc (hclear.leaving c)
  · exact absurd (h.ended (hstate hs)) hclear.phase
  · rw [hdead] at hc
    exact absurd (h.dead c hc).1 hclear.phase
  · rw [hphase] at hexit
    exact absurd hexit hclear.phase

/-- An agent moves on, and does not begin an `enqueue`. -/
theorem Track.enqueued_same (h : s.Track t) (henqueued : s'.enqueued t = s.enqueued t)
    (hscheduled : (s'.machine.threads t).flags.scheduled = (s.machine.threads t).flags.scheduled)
    (hagents : ∀ a', a' ≠ a → s'.machine.agents a' = s.machine.agents a')
    (hself : s'.machine.agents a ≠ .placing t true) : s'.Enqueued t := by
  rw [Enqueued, henqueued, hscheduled]
  refine h.enqueued.imp_right fun hone => ⟨hone.1, hone.2.1, fun a' ha' => ?_⟩
  by_cases haa : a' = a
  · exact hself (haa ▸ ha')
  · exact hone.2.2 a' ((hagents a' haa).symm.trans ha')

theorem Track.enqueued_act {f : Thread → Thread} (h : s.Track t)
    (hmachine : s'.machine = s.machine.act a agent t f) (henqueued : s'.enqueued t = s.enqueued t)
    (hscheduled : (f (s.machine.threads t)).flags.scheduled = (s.machine.threads t).flags.scheduled)
    (hself : agent ≠ .placing t true) : s'.Enqueued t := by
  refine h.enqueued_same (a := a) henqueued ?_ (fun a' haa => ?_) ?_ <;> rw [hmachine]
  · rwa [show (s.machine.act a agent t f).threads t = _ from modify_self ..]
  · exact update_of_ne haa ..
  · rwa [show (s.machine.act a agent t f).agents a = _ from update_self ..]

/-- Whoever is on no CPU is in nobody's eye. -/
theorem Ok.clear_of_at {l : Machine.Loc} (h : s.Ok info) (hidle : (info t).isIdle = false)
    (hat : s.machine.At t l)
    (hcpu : ∀ c, l ≠ .cpu c) (hqueue : ∀ c, l = .queue c → s.leaving c = none) : s.Clear a t := by
  have hok := h.inv.threads t hidle
  have htrack := h.threads t hidle
  refine ⟨fun a' c _ hd ha => ?_, fun c hc => ?_, fun hexit => ?_⟩
  · rcases (htrack.awaits a' c hd ha).2 with hon | hgone
    · exact hcpu c (hok.unique _ _ hat hon.1)
    · exact hgone.1 l hat
  · have hl := (htrack.left c hc).2.2 l hat
    rw [hqueue c hl] at hc
    cases hc
  · have hfits := hok.fits l hat
    cases l with
    | cpu c => exact hcpu c rfl
    | queue c => exact hfits.2.2.2 hexit
    | transit a' => exact hfits.2.2 hexit

/-- Whoever the scheduler does not have is in nobody's eye. -/
theorem Ok.clear_of_unscheduled (h : s.Ok info) (hidle : (info t).isIdle = false)
    (hnot : (s.machine.threads t).flags.scheduled = false) : s.Clear a t := by
  have hok := h.inv.threads t hidle
  have htrack := h.threads t hidle
  have hnowhere := hok.unscheduled hnot
  have hgone := hok.gone hnowhere
  rw [Machine.Gone, hnot, if_neg Bool.false_ne_true] at hgone
  refine ⟨fun a' c _ hd ha => ?_, fun c hc => ?_, hgone.2⟩
  · rcases (htrack.awaits a' c hd ha).2 with hon | haway
    · exact hnowhere _ hon.1
    · rcases hgone.1 with heq | heq <;> cases haway.2.symm.trans heq
  · rw [(htrack.left c hc).2.1] at hnot
    cases hnot

/-- An agent changes a thread that nobody else has an eye on. -/
theorem Ok.act {f : Thread → Thread} (h : s.Ok info)
    (hmachine : s'.machine = s.machine.act a agent t f)
    (hinv : s'.machine.Inv info)
    (hdecided : ∀ a', s'.decided a' = true → a' ≠ a ∧ s.decided a' = true)
    (hleaving : s'.leaving = s.leaving) (hother : ∀ u, u ≠ t → s'.enqueued u = s.enqueued u)
    (ha : s.machine.agents a = old) (hold : ∀ u, u ≠ t → old.holds ≠ some u)
    (hnew : ∀ u, u ≠ t → agent.holds ≠ some u) (hclear : (info t).isIdle = false → s.Clear a t)
    (hstate : (f (s.machine.threads t)).state = .dead → (s.machine.threads t).state = .dead)
    (henqueued : (info t).isIdle = false → s'.Enqueued t) : s'.Ok info := by
  have hagents : ∀ a', a' ≠ a → s'.machine.agents a' = s.machine.agents a' := by
    intro a' ha'
    rw [hmachine]
    exact update_of_ne ha' ..
  have hrqs : s'.machine.rqs = s.machine.rqs := by rw [hmachine]; rfl
  refine h.of_same (fun u => u = t) hinv (by rw [hmachine]; rfl)
    (fun a' hd => ⟨(hdecided a' hd).2, hagents a' (hdecided a' hd).1⟩)
      (fun c _ hnone => by rwa [hleaving])
    (fun u _ hu => ?_) (fun u _ c hc => by rwa [hleaving] at hc) hother (fun u hu a' ha' => ?_)
    (fun u _ c => by rw [hrqs]) fun u hidle hu => ?_
  · rw [hmachine]
    exact same_act hu (iff_of_false (hnew u hu) (ha ▸ hold u hu))
  · by_cases haa : a' = a
    · rw [haa, hmachine, show (s.machine.act a agent t f).agents a = agent from
        update_self ..] at ha'
      exact absurd (by rw [ha']; rfl) (hnew u hu)
    · rwa [hagents a' haa] at ha'
  · subst hu
    refine (h.threads u hidle).of_clear (hclear hidle)
      (fun a' hd => ⟨(hdecided a' hd).1, (hdecided a' hd).2, hagents a' (hdecided a' hd).1⟩)
        hleaving
      (by rw [hmachine]; rfl) (fun c => by rw [hrqs]) (fun hs => hstate ?_) (henqueued hidle)
    rwa [hmachine, show (s.machine.act a agent u f).threads u = f (s.machine.threads u) from
      modify_self ..] at hs

/-- A run queue changes by one thread. -/
theorem Ok.requeue {rq : RunQueue} {threads : Threads} (h : s.Ok info)
    (hinv : (s.machine.requeue a agent c rq threads).Inv info)
    (hne : ∀ a', s.decided a' = true → a' ≠ a)
    (hcurrent : rq.current = s.current c)
    (hmem : ∀ u, u ≠ t → (u ∈ rq.queued ↔ u ∈ (s.machine.rqs c).queued))
    (hdead : rq.dead = (s.machine.rqs c).dead)
    (hthreads : ∀ u, u ≠ t → (threads u).flags = (s.machine.threads u).flags ∧
      (threads u).cpuId = (s.machine.threads u).cpuId)
    (hscheduled : (threads t).flags.scheduled = (s.machine.threads t).flags.scheduled)
    (hstate : (threads t).state = .dead → (s.machine.threads t).state = .dead)
    (ha : s.machine.agents a = old) (hold : ∀ u, u ≠ t → old.holds ≠ some u)
    (hnew : ∀ u, u ≠ t → agent.holds ≠ some u)
    (hplacing : agent ≠ .placing t true) (hclear : (info t).isIdle = false → s.Clear a t) :
    (s.on (s.machine.requeue a agent c rq threads)).Ok info := by
  have hagents : ∀ a', a' ≠ a → (s.machine.requeue a agent c rq threads).agents a' =
      s.machine.agents a' :=
    fun a' ha' => update_of_ne ha' ..
  have hdead' : ∀ c', ((s.machine.requeue a agent c rq threads).rqs c').dead =
      (s.machine.rqs c').dead :=
    update_keeps RunQueue.dead hdead
  have hself : (s.machine.requeue a agent c rq threads).agents a = agent := update_self ..
  refine h.of_same (fun u => u = t) hinv rfl (fun a' hd => ⟨hd, hagents a' (hne a' hd)⟩)
    (fun _ _ hnone => hnone)
    (fun u _ hu => ?_) (fun _ _ _ hc => hc) (fun _ _ => rfl) (fun u hu a' ha' => ?_)
    (fun u _ c' => congrArg _ (hdead' c')) fun u hidle hu => ?_
  · exact ⟨Machine.at_requeue_of_ne hcurrent (hmem u hu)
      (iff_of_false (hnew u hu) (ha ▸ hold u hu)), (hthreads u hu).1, (hthreads u hu).2, rfl⟩
  · by_cases haa : a' = a
    · rw [haa] at ha'
      have hagent : agent = .placing u true := hself.symm.trans ha'
      exact absurd (by rw [hagent]; rfl) (hnew u hu)
    · exact (hagents a' haa).symm.trans ha'
  · subst hu
    have htrack := h.threads u hidle
    exact htrack.of_clear (hclear hidle) (fun a' hd => ⟨hne a' hd, hd, hagents a' (hne a' hd)⟩) rfl
      rfl hdead' hstate
      (htrack.enqueued_same rfl hscheduled hagents fun hself' => hplacing (hself.symm.trans hself'))

end

/-! ## Threads on their CPUs -/

section

variable {info} {s : Cpus} {m m' : Machine} {a c cpu : Nat}
variable {threads : Threads} {u : Nat} {mode : PickMode} {nowNs : Nat} {phase : Phase}
  {state : ThreadState} {rq : RunQueue}

/-- A thread on its CPU sets its own state. It may end if nobody has looked at it already. -/
theorem Ok.moveOn (h : s.Ok info) (hruns : s.Runs info c)
    (hstate : Machine.OnCpu phase state) (hphase : phase ≠ .waiting)
    (hends : state = .dead → phase = .exiting)
    (hexits : phase = .exiting → s.Unwatched (s.current c)) :
    (s.on (s.machine.moveOn (s.current c) state phase)).Ok info := by
  have hon : s.machine.At (s.current c) (.cpu c) := rfl
  refine h.of_same (fun u => u = s.current c)
    (h.inv.moveOn hruns.idle hstate fun hw => absurd hw hphase) rfl
    (fun _ hd => ⟨hd, rfl⟩) (fun _ _ hnone => hnone) (fun u _ hu => same_moveOn hu)
      (fun _ _ _ hc => hc)
    (fun _ _ => rfl) (fun _ _ _ ha => ha) (fun _ _ _ => rfl) fun u hidle hu => ?_
  subst hu
  have hok := h.inv.threads _ hidle
  have htrack := h.threads _ hidle
  have hat : ∀ l, (s.machine.moveOn (s.current c) state phase).At (s.current c) l ↔
      s.machine.At (s.current c) l := fun l => by cases l <;> exact Iff.rfl
  have hcpuId : ((s.machine.moveOn (s.current c) state phase).threads (s.current c)).cpuId =
      (s.machine.threads (s.current c)).cpuId := by
    simp only [Machine.moveOn, modify_self, Thread.setState]
  have hscheduled :
      ((s.machine.moveOn (s.current c) state phase).threads (s.current c)).flags.scheduled =
      (s.machine.threads (s.current c)).flags.scheduled := by
    simp only [Machine.moveOn, modify_self, Thread.setState]
  have hphase' : (s.machine.moveOn (s.current c) state phase).phase (s.current c) = phase :=
    update_self ..
  refine ⟨fun a c' hd ha => ?_, fun c' hc' => ?_, ?_, fun hdead => ?_, fun c' hc' => ?_,
    fun _ hnot => ?_⟩
  · obtain ⟨hcpu, hwhere⟩ := htrack.awaits a c' hd ha
    refine ⟨hcpuId.trans hcpu, .inl ⟨?_, fun hexit => ?_⟩⟩
    · exact (hat _).2 (hwhere.resolve_right fun hgone => hgone.1 _ hon).1
    · exact hexits (hphase'.symm.trans hexit) a c' hd ha
  · exact absurd ((htrack.left c' hc').2.2 _ hon) (by simp)
  · exact htrack.enqueued.imp_right fun hone => ⟨hone.1, hscheduled.trans hone.2.1, hone.2.2⟩
  · simp only [on, Machine.moveOn, modify_self] at hdead
    exact hphase'.trans (hends hdead)
  · exact absurd hon ((htrack.dead c' hc').2 _)
  · exact absurd ((hat _).2 hon) (hnot _)

/-- What `switch_away` does to the machine. -/
structure Switches (info : Nat → ThreadInfo) (m m' : Machine) (c : Nat) : Prop where
  agents : m'.agents = m.agents
  cond : m'.cond = m.cond
  phase : m'.phase = m.phase
  rqs : ∀ c', c' ≠ c → m'.rqs c' = m.rqs c'
  others : ∀ u, u ≠ m.current c → u ≠ m'.current c → Same m m' u
  scheduled : ∀ u, (m'.threads u).flags.scheduled = (m.threads u).flags.scheduled
  state : ∀ u, (m'.threads u).state = .dead → (m.threads u).state = .dead
  stays : m'.current c = m.current c → Same m m' (m.current c)
  leaves : m'.current c ≠ m.current c → (m'.threads (m.current c)).cpuId =
    (m.threads (m.current c)).cpuId
  next : m'.current c ≠ m.current c → (info (m'.current c)).isIdle = true ∨
    m'.current c ∈ (m.rqs c).queued

section

variable {threads' : Threads} {prev next : Nat} {stays : Bool} (hne : next ≠ prev)
  (hsame : threads'.Same
  ((if stays then threads.modify prev Thread.markQueued else threads).modify next
    (Thread.setOnRunqueue false)))
include hne hsame

/-- The flags of everybody but the thread that gets the CPU, when it changes hands. -/
theorem switchTo_flags :
    (switchTo c prev next threads' u).flags.scheduled = (threads u).flags.scheduled ∧
      (u ≠ next → (switchTo c prev next threads' u).cpuId = (threads u).cpuId) ∧
      (u ≠ next → u ≠ prev → (switchTo c prev next threads' u).flags = (threads u).flags) := by
  by_cases hun : u = next
  · subst hun
    refine ⟨?_, fun hfalse => absurd rfl hfalse, fun hfalse => absurd rfl hfalse⟩
    rw [Machine.switchTo_next hne]
    exact Machine.picked_next hne hsame
  by_cases hup : u = prev
  · subst hup
    obtain ⟨hflags, hcpu⟩ := Machine.picked_prev hne hsame
    have hsched : (threads' u).flags.scheduled = (threads u).flags.scheduled := by
      rw [hflags]
      split <;> rfl
    refine ⟨?_, fun _ => ?_, fun _ hfalse => absurd rfl hfalse⟩ <;> rw [Machine.switchTo_prev hne]
    · split <;> exact hsched
    · split <;> exact hcpu
  · obtain ⟨hflags, hcpu⟩ := Machine.picked_other hsame hup hun
    rw [Machine.switchTo_of_ne hup hun, hflags]
    exact ⟨rfl, fun _ => hcpu, fun _ _ => rfl⟩

/-- Nobody dies of a switch. -/
theorem switchTo_state (hdead : (switchTo c prev next threads' u).state = .dead) :
    (threads u).state = .dead := by
  by_cases hun : u = next
  · rw [hun, Machine.switchTo_next hne] at hdead
    cases hdead
  by_cases hup : u = prev
  · subst hup
    rw [Machine.switchTo_prev hne] at hdead
    split at hdead
    · cases hdead
    · rw [Thread.state, (Machine.picked_prev hne hsame).1] at hdead
      cases stays with
      | false => exact hdead
      | true => cases hdead
  · rwa [Thread.state, (switchTo_flags hne hsame).2.2 hun hup] at hdead

end

/-- A thread that neither loses nor gets the CPU. -/
theorem same_switched (hcurrent : rq.current = u ↔ m.current c = u)
    (hmem : u ∈ rq.queued ↔ u ∈ (m.rqs c).queued) (hflags : (threads u).flags = (m.threads u).flags)
    (hcpuId : (threads u).cpuId = (m.threads u).cpuId) :
    Same m (m.switched c rq threads (m.phase (m.current c))) u :=
  ⟨Machine.at_switched_same hcurrent hmem, hflags, hcpuId, congrFun (update_eq_self ..) u⟩

theorem switchAway_switches (h : m.Inv info)
    (hs : m.switchAway info c mode nowNs = some m') : Switches info m m' c := by
  obtain ⟨rq₀, rq, threads, next, hqueued, hidleThread, hrq, houtcome, rfl, -⟩ :=
    Machine.switchAway_switched h hs
  have hnow : ∀ threads', (m.switched c rq threads' (m.phase (m.current c))).current c =
      rq.current := by
    intro threads'
    simp only [Machine.current, Machine.switched, update_self]
  have hphase : Function.update m.phase (m.current c) (m.phase (m.current c)) = m.phase :=
    update_eq_self ..
  have hrqs : ∀ c', c' ≠ c → Function.update m.rqs c rq c' = m.rqs c' :=
    fun c' hc => update_of_ne hc ..
  cases houtcome with
  | carriesOn hstays hcurrent hmem hsame =>
    rw [if_pos rfl]
    have hall : ∀ u, Same m (m.switched c rq threads (m.phase (m.current c))) u := fun u =>
      same_switched (by rw [hcurrent]) (by rw [hmem, hqueued]) (hsame u).1 (hsame u).2
    exact ⟨rfl, rfl, hphase, hrqs, fun u _ _ => hall u,
      fun u => congrArg ThreadFlags.scheduled (hall u).flags,
      fun u hdead => (congrArg ThreadFlags.state (hall u).flags).symm.trans hdead, fun _ => hall _,
      fun _ => (hall _).cpuId, fun hne => absurd ((hnow _).trans hcurrent) hne⟩
  | switches hne hcurrent hnext hmem hsame =>
    rw [if_neg hne]
    rw [hqueued] at hnext hmem
    rw [hidleThread] at hnext
    have hnow' := (hnow (switchTo c (m.current c) next threads)).trans hcurrent
    refine ⟨rfl, rfl, hphase, hrqs, fun u hprev hu => ?_, fun u => (switchTo_flags hne hsame).1,
      fun u => switchTo_state hne hsame, fun heq => absurd (hnow'.symm.trans heq) hne,
      fun _ => (switchTo_flags hne hsame).2.1 hne.symm, fun _ => ?_⟩
    · rw [hnow'] at hu
      refine same_switched ?_ ?_ ((switchTo_flags hne hsame).2.2 hu hprev)
        ((switchTo_flags hne hsame).2.1 hu)
      · rw [hcurrent]
        exact iff_of_false (Ne.symm hu) (Ne.symm hprev)
      · rw [hmem]
        exact ⟨fun hin => hin.2.resolve_right fun hfalse => hprev hfalse.2,
          fun hin => ⟨hu, .inl hin⟩⟩
    · rw [hnow']
      exact hnext.imp_left fun heq => by rw [heq]; exact (h.rqs c).idle

/-- Where the thread that lost the CPU can be: on that CPU's queue. -/
theorem Switches.at_prev {l : Machine.Loc} (hsw : Switches info m m' c)
    (hok : m.ThreadOk (m.current c))
    (hne : m'.current c ≠ m.current c) (hl : m'.At (m.current c) l) : l = .queue c := by
  have hon : m.At (m.current c) (.cpu c) := rfl
  cases l with
  | cpu c' =>
    by_cases hc : c' = c
    · rw [hc] at hl
      exact absurd hl hne
    · have hl' : m.At (m.current c) (.cpu c') := by
        rw [Machine.At, Machine.current, ← hsw.rqs c' hc]
        exact hl
      exact absurd (Machine.Loc.cpu.inj (hok.unique _ _ hl' hon)) hc
  | queue c' =>
    by_cases hc : c' = c
    · rw [hc]
    · have hl' : m.At (m.current c) (.queue c') := by
        rw [Machine.At, ← hsw.rqs c' hc]
        exact hl
      cases hok.unique _ _ hl' hon
  | transit a =>
    have hl' : m.At (m.current c) (.transit a) := by
      rw [Machine.At, ← hsw.agents]
      exact hl
    cases hok.unique _ _ hl' hon

theorem Track.switch_enqueued (htrack : s.Track u) (hsw : Switches info s.machine m c) :
    (s.switch c m).Enqueued u :=
  htrack.enqueued.imp_right fun hone =>
    ⟨hone.1, (hsw.scheduled u).trans hone.2.1, fun a ha =>
      hone.2.2 a ((congrFun hsw.agents a).symm.trans ha)⟩

section Switch

variable (h : s.Ok info) (hsw : Switches info s.machine m c) (hdead : (m.rqs c).dead =
  if s.machine.phase (s.current c) = .exiting then s.current c :: (s.machine.rqs c).dead else
  (s.machine.rqs c).dead) (hne : m.current c ≠ s.current c)
include h hsw hdead hne

omit h hne in
/-- Only the thread that leaves, if it ends, is new on a dead list. -/
theorem switch_new_dead {c' : Nat} (hnew : ∀ c', u ∉ (s.machine.rqs c').dead)
    (hin : u ∈ ((s.switch c m).machine.rqs c').dead) :
    c' = c ∧ u = s.current c ∧ s.machine.phase (s.current c) = .exiting := by
  by_cases hc : c' = c
  · rw [hc, show ((s.switch c m).machine.rqs c).dead = _ from hdead] at hin
    split at hin
    · rename_i hexit
      exact ⟨hc, (List.mem_cons.1 hin).resolve_right (hnew c), hexit⟩
    · exact absurd hin (hnew c)
  · rw [show (s.switch c m).machine.rqs c' = _ from hsw.rqs c' hc] at hin
    exact absurd hin (hnew c')

/-- The thread that lost the CPU. -/
theorem Ok.track_prev (hlock : ¬ s.Locked c) (hinv : m.Inv info)
    (hidle : (info (s.current c)).isIdle = false) : (s.switch c m).Track (s.current c) := by
  have hon : s.machine.At (s.current c) (.cpu c) := rfl
  have hok := h.inv.threads _ hidle
  have htrack := h.threads _ hidle
  have hqueue : ∀ l, m.At (s.current c) l → l = .queue c := fun l hl => hsw.at_prev hok hne hl
  obtain ⟨hsched, hcpu, -⟩ := hok.fits _ hon
  have hnew : ∀ c', s.current c ∉ (s.machine.rqs c').dead :=
    fun c' hin => (htrack.dead c' hin).2 _ hon
  refine ⟨fun a c' hd ha => ?_, fun c' hc' => ?_, htrack.switch_enqueued hsw,
    fun hdead => (congrFun hsw.phase _).trans (htrack.ended (hsw.state _ hdead)), fun c' hc' => ?_,
    fun hexit _ => ⟨c, ?_, fun c' hc' hin => ?_⟩⟩
  · have ha' := (congrFun hsw.agents a).symm.trans ha
    rcases (htrack.awaits a c' hd ha').2 with hthere | hgone
    · have hc := Machine.Loc.cpu.inj (hok.unique _ _ hthere.1 hon)
      exact absurd (.inr ⟨a, _, hd, hc ▸ ha'⟩) hlock
    · exact absurd hon (hgone.1 _)
  · have hc : c' = c := by
      by_contra hc
      rw [show (s.switch c m).leaving c' = s.leaving c' from update_of_ne hc ..] at hc'
      exact nomatch (htrack.left c' hc').2.2 _ hon
    rw [hc]
    exact ⟨(hsw.leaves hne).trans hcpu, (hsw.scheduled _).trans hsched, hqueue⟩
  · obtain ⟨-, -, hexit⟩ := switch_new_dead hsw hdead hnew hc'
    have hexit' : m.phase (s.current c) = .exiting := (congrFun hsw.phase _).trans hexit
    refine ⟨hexit', fun l hl => ?_⟩
    have hfits := (hinv.threads _ hidle).fits l hl
    rw [hqueue l hl] at hfits
    exact hfits.2.2.2 hexit'
  · have hexit' : s.machine.phase (s.current c) = .exiting :=
      (congrFun hsw.phase _).symm.trans hexit
    rw [show ((s.switch c m).machine.rqs c).dead = _ from hdead, if_pos hexit',
      List.count_cons_self, List.count_eq_zero_of_not_mem (hnew c)]
  · exact hc' (switch_new_dead hsw hdead hnew hin).1

/-- The thread that got the CPU. -/
theorem Ok.track_next (hidle : (info (m.current c)).isIdle = false) :
    (s.switch c m).Track (m.current c) := by
  have hmem : s.machine.At (m.current c) (.queue c) :=
    (hsw.next hne).resolve_left (by rw [hidle]; exact Bool.false_ne_true)
  have hok := h.inv.threads _ hidle
  have htrack := h.threads _ hidle
  have hnew : ∀ c', m.current c ∉ (s.machine.rqs c').dead :=
    fun c' hin => (htrack.dead c' hin).2 _ hmem
  refine ⟨fun a c' hd ha => ?_, fun c' hc' => ?_, htrack.switch_enqueued hsw,
    fun hdead => (congrFun hsw.phase _).trans (htrack.ended (hsw.state _ hdead)), fun c' hc' => ?_,
    fun hexit _ => ?_⟩
  · rcases (htrack.awaits a c' hd ((congrFun hsw.agents a).symm.trans ha)).2 with hthere | hgone
    · exact nomatch hok.unique _ _ hthere.1 hmem
    · exact absurd hmem (hgone.1 _)
  · by_cases hc : c' = c
    · rw [hc, show (s.switch c m).leaving c = if m.current c = s.current c then none
        else some (s.current c) from update_self .., if_neg hne] at hc'
      exact absurd (Option.some.inj hc').symm hne
    · rw [show (s.switch c m).leaving c' = s.leaving c' from update_of_ne hc ..] at hc'
      exact absurd (Machine.Loc.queue.inj ((htrack.left c' hc').2.2 _ hmem)).symm hc
  · exact absurd (switch_new_dead hsw hdead hnew hc').2.1 hne
  · exact absurd ((congrFun hsw.phase _).symm.trans hexit) (hok.fits _ hmem).2.2.2

end Switch

/-- **A CPU changes threads.**  A thread that ends goes on the dead list as it leaves. -/
theorem Ok.switch (h : s.Ok info) (hinv : m.Inv info) (hlock : ¬ s.Locked c)
    (hsw : Switches info s.machine m c)
    (hdead : (m.rqs c).dead = if s.machine.phase (s.current c) = .exiting then
      s.current c :: (s.machine.rqs c).dead else (s.machine.rqs c).dead)
    (hends : s.machine.phase (s.current c) = .exiting → m.current c ≠ s.current c) :
    (s.switch c m).Ok info := by
  have hsettled : s.leaving c = none := by
    by_contra hleaving
    exact hlock (.inl hleaving)
  have hother : ∀ c', c' ≠ c → (s.switch c m).leaving c' = s.leaving c' :=
    fun c' hc => update_of_ne hc ..
  have hself : (s.switch c m).leaving c = if m.current c = s.current c then none
      else some (s.current c) :=
    update_self ..
  have hon : s.machine.At (s.current c) (.cpu c) := rfl
  refine h.of_same (fun u => m.current c ≠ s.current c ∧ (u = s.current c ∨ u = m.current c)) hinv
    hsw.cond
    (fun a hd => ⟨hd, congrFun hsw.agents a⟩) (fun c' hlocked hnone => ?_) (fun u _ hu => ?_)
      (fun u hu c' hc' => ?_)
    (fun _ _ => rfl) (fun u _ a ha => (congrFun hsw.agents a).symm.trans ha) (fun u hu c' => ?_)
      fun u hidle hu => ?_
  · rw [hother c' fun hc => hlock (hc ▸ hlocked)]
    exact hnone
  · by_cases hstays : m.current c = s.current c
    · by_cases hprev : u = s.current c
      · rw [hprev]
        exact hsw.stays hstays
      · exact hsw.others u hprev (by rw [hstays]; exact hprev)
    · exact hsw.others u (fun heq => hu ⟨hstays, .inl heq⟩) fun heq => hu ⟨hstays, .inr heq⟩
  · by_cases hc : c' = c
    · rw [hc, hself] at hc'
      split at hc'
      · cases hc'
      · rename_i hne
        exact absurd ⟨hne, .inl (Option.some.inj hc').symm⟩ hu
    · rwa [hother c' hc] at hc'
  · by_cases hc : c' = c
    · rw [hc, show ((s.switch c m).machine.rqs c).dead = _ from hdead]
      split
      · rename_i hexit
        exact List.count_cons_of_ne fun heq => hu ⟨hends hexit, .inl heq.symm⟩
      · rfl
    · rw [show (s.switch c m).machine.rqs c' = _ from hsw.rqs c' hc]
  · obtain ⟨hne, hwho⟩ := hu
    rcases hwho with rfl | rfl
    · exact h.track_prev hsw hdead hne hlock hinv hidle
    · exact h.track_next hsw hdead hne hidle

theorem alive_of_onCpu (hon : Machine.OnCpu phase state)
    (hphase : phase ≠ .exiting) : state = .running ∨ state = .blocked := by
  cases phase with
  | free => exact .inl hon
  | exiting => exact absurd rfl hphase
  | prepared => exact hon
  | waiting => exact hon
  | met => exact hon

/-- `schedule` or `yield`, wherever the thread is in its loop. -/
theorem inv_reschedule (h : s.Ok info) (hphase : s.machine.phase (s.current c) ≠ .exiting)
    (hmode : mode ≠ .preempted)
    (hs : s.machine.switchAway info c mode nowNs = some m) : m.Inv info := by
  refine h.inv.switchAway_same hs fun hidle => ?_
  obtain ⟨hsched, hon⟩ := h.inv.on_cpu hidle
  rw [Machine.not_runnable hmode hidle]
  refine ⟨fun _ => ⟨hon, hphase, fun hp => hp⟩, fun hleaves => ?_⟩
  have hnot : (s.machine.threads (s.current c)).state ≠ .running := of_decide_eq_false hleaves
  refine ⟨hnot, ?_, fun hcond => absurd hcond (by rw [h.cond]; exact Bool.false_ne_true)⟩
  rw [Machine.Gone, hsched, if_pos rfl]
  exact .inl ⟨(alive_of_onCpu hon hphase).resolve_left hnot, hphase⟩

theorem switched_rqs {threads : Threads} :
    (m.switched c rq threads phase).rqs c = rq := update_self ..

theorem switchAway_dead (h : m.Inv info)
    (hs : m.switchAway info c mode nowNs = some m') : (m'.rqs c).dead =
      if (info (m.current c)).isIdle = false ∧
      RunQueue.runnable info m.threads (m.current c) mode = false ∧
          (m.threads (m.current c)).state = .dead then
        m.current c :: (m.rqs c).dead
      else (m.rqs c).dead := by
  obtain ⟨rq₀, rq, threads, next, -, -, -, -, rfl, hdead⟩ := Machine.switchAway_switched h hs
  rw [← hdead, switched_rqs]

/-- Whoever may not stay does not. -/
theorem switchAway_ne (h : m.Inv info)
    (hs : m.switchAway info c mode nowNs = some m') (hidle : (info (m.current c)).isIdle = false)
    (hnot : RunQueue.runnable info m.threads (m.current c) mode = false) :
    m'.current c ≠ m.current c := by
  obtain ⟨rq₀, rq, threads, next, -, -, -, houtcome, rfl, -⟩ := Machine.switchAway_switched h hs
  rw [Machine.current, switched_rqs]
  cases houtcome with
  | carriesOn hstays _ _ _ =>
    rw [hnot, hidle] at hstays
    exact (hstays.elim Bool.false_ne_true Bool.false_ne_true).elim
  | switches hne hcurrent _ _ _ =>
    rw [hcurrent]
    exact hne

/-- A thread that goes on living gives up its CPU, or has to. -/
theorem Ok.switch_alive (h : s.Ok info) (hphase : s.machine.phase (s.current c) ≠ .exiting)
    (hlock : ¬ s.Locked c)
    (hs : s.machine.switchAway info c mode nowNs = some m) (hinv : m.Inv info) :
    (s.switch c m).Ok info := by
  refine h.switch hinv hlock (switchAway_switches h.inv hs) ?_ fun hexit => absurd hexit hphase
  rw [switchAway_dead h.inv hs, if_neg hphase, if_neg]
  · rintro ⟨hidle, -, hdead⟩
    rcases alive_of_onCpu (h.inv.on_cpu hidle).2 hphase with heq | heq <;>
      exact nomatch hdead.symm.trans heq

/-- A thread that ends leaves its CPU for good. -/
theorem Ok.leave (h : s.Ok info) (hphase : s.machine.phase (s.current c) = .exiting)
    (hlock : ¬ s.Locked c) (hs : s.machine.switchAway info c .voluntary nowNs = some m) :
    (s.switch c m).Ok info := by
  have hidle : (info (s.current c)).isIdle = false := h.inv.not_idle (by rw [hphase]; exact nofun)
  have hdead : (s.machine.threads (s.current c)).state = .dead := by
    have hon := (h.inv.on_cpu hidle).2
    rw [show s.machine.phase (s.machine.current c) = .exiting from hphase] at hon
    exact hon
  have hnot : RunQueue.runnable info s.machine.threads (s.current c) .voluntary = false := by
    rw [Machine.not_runnable PickMode.noConfusion hidle, hdead]
    rfl
  refine h.switch (h.inv.leave hphase hs) hlock (switchAway_switches h.inv hs) ?_
    fun _ => switchAway_ne h.inv hs hidle hnot
  rw [switchAway_dead h.inv hs, if_pos hphase, if_pos ⟨hidle, hnot, hdead⟩]
  rfl

end

/-! ## `wake` under the lock -/

section

variable {info} {s : Cpus} {a t cpu : Nat}

/-- What `wake` sees under the lock. -/
theorem Ok.awaits_of_waiting (h : s.Ok info) (hcpu : (s.machine.threads t).cpuId = cpu)
    (hstate : (s.machine.threads t).state = .blocked ∨ (s.machine.threads t).state = .sleeping) :
    (info t).isIdle = false ∧ Awaits s.machine t cpu := by
  have hnot : ∀ state, state ≠ .blocked ∧ state ≠ .sleeping →
      (s.machine.threads t).state ≠ state := by
    rintro state ⟨hb, hs⟩ heq
    rcases hstate with hst | hst
    · exact hb (heq.symm.trans hst)
    · exact hs (heq.symm.trans hst)
  have hidle : (info t).isIdle = false := by
    rw [Bool.eq_false_iff]
    intro hidle
    exact (h.inv.idle t hidle).1.elim (hnot _ (by decide)) (hnot _ (by decide))
  have hok := h.inv.threads t hidle
  refine ⟨hidle, hcpu, ?_⟩
  by_cases hat : ∃ l, s.machine.At t l
  · obtain ⟨l, hl⟩ := hat
    have hfits := hok.fits l hl
    cases l with
    | cpu c =>
      obtain ⟨-, hc, hon⟩ := hfits
      rw [← hc.symm.trans hcpu]
      refine .inl ⟨hl, fun hexit => ?_⟩
      rw [hexit] at hon
      exact hnot _ (by decide) hon
    | queue c => exact absurd hfits.2.1 (hnot _ (by decide))
    | transit a =>
      exact (hfits.2.1.elim (hnot _ (by decide)) (hnot _ (by decide))).elim
  · have hnowhere : ∀ l, ¬ s.machine.At t l := fun l hl => hat ⟨l, hl⟩
    refine .inr ⟨hnowhere, ?_⟩
    have hgone := hok.gone hnowhere
    unfold Machine.Gone at hgone
    split at hgone
    · exact (hgone.resolve_right (hnot _ (by decide))).1
    · exact (hgone.1.elim (hnot _ (by decide)) (hnot _ (by decide))).elim

theorem Ok.inspect (h : s.Ok info) (ha : s.machine.agents a = .looked t cpu)
    (hlock : ¬ s.Locked cpu) : (s.inspect a t cpu).Ok info := by
  have hundecided : ∀ a', s.decided a' = true → a' ≠ a := by
    rintro a' hd rfl
    exact hlock (.inr ⟨a', t, hd, ha⟩)
  unfold Cpus.inspect
  simp only
  split
  · exact h.become ha hundecided rfl rfl fun u _ hu => hu
  split
  · rename_i hstate
    refine h.become ha hundecided rfl rfl fun u hblocked hu => ?_
    rw [← Option.some.inj hu] at hblocked
    exact absurd hblocked hstate.1
  rename_i hcpu hstate
  rw [not_not] at hcpu
  rw [not_and_or, not_not, not_not] at hstate
  obtain ⟨hidle, hawaits⟩ := h.awaits_of_waiting hcpu hstate
  have hcases : ∀ a', Function.update s.decided a true a' = true → a' = a ∨
      s.decided a' = true := by
    intro a' hd
    by_cases haa : a' = a
    · exact .inl haa
    · rw [update_of_ne haa] at hd
      exact .inr hd
  have htarget : ∀ {u c}, s.machine.agents a = .looked u c → u = t ∧ c = cpu := by
    intro u c hu
    rw [ha] at hu
    cases hu
    exact ⟨rfl, rfl⟩
  refine ⟨h.inv, h.cond,
    ⟨fun a' hd => ?_, fun a₁ a₂ t₁ t₂ c hd₁ hd₂ h₁ h₂ => ?_, fun a' u c hd ha' => ?_⟩,
    fun a' u c hd ha' => ?_, fun u hu => ?_⟩
  · rcases hcases a' hd with rfl | hd'
    · exact ⟨t, cpu, ha⟩
    · exact h.locks.looked a' hd'
  · rcases hcases a₁ hd₁ with rfl | hd₁' <;> rcases hcases a₂ hd₂ with rfl | hd₂'
    · rfl
    · rw [(htarget h₁).2] at h₂
      exact absurd (.inr ⟨a₂, t₂, hd₂', h₂⟩) hlock
    · rw [(htarget h₂).2] at h₁
      exact absurd (.inr ⟨a₁, t₁, hd₁', h₁⟩) hlock
    · exact h.locks.alone a₁ a₂ t₁ t₂ c hd₁' hd₂' h₁ h₂
  · rcases hcases a' hd with rfl | hd'
    · rw [(htarget ha').2]
      by_contra hleaving
      exact hlock (.inl hleaving)
    · exact h.locks.settled a' u c hd' ha'
  · rcases hcases a' hd with rfl | hd'
    · rw [(htarget ha').1]
      exact hidle
    · exact h.idle a' u c hd' ha'
  · have htrack := h.threads u hu
    refine ⟨fun a' c hd ha' => ?_, htrack.left, htrack.enqueued, htrack.ended, htrack.dead,
      htrack.buried⟩
    rcases hcases a' hd with rfl | hd'
    · rw [(htarget ha').1, (htarget ha').2]
      exact hawaits
    · exact htrack.awaits a' c hd' ha'

/-- A thread that has taken back its block is told to run when it runs already. -/
theorem act_running (m : Machine) (hrun : (m.threads t).state = .running) :
    m.act a .idle t (Thread.setState .running) = m.become a .idle := by
  have hthread : (m.threads t).setState .running = m.threads t := by
    rw [← hrun]
    rfl
  rw [Machine.act, Threads.modify, hthread, update_eq_self]
  rfl

variable (h : s.Ok info) (ha : s.machine.agents a = .looked t cpu) (hd : s.decided a = true)
include h ha hd

theorem Ok.decide_inv : (s.decide a t cpu).machine.Inv info := by
  have hidle := h.idle a t cpu hd ha
  obtain ⟨hcpu, hwhere⟩ := (h.threads t hidle).awaits a cpu hd ha
  have hlocked := h.inv.wakeLocked ha
  have hblocked : (s.machine.threads t).state = .blocked →
      (s.decide a t cpu).machine = s.machine.wakeLocked a t cpu := by
    intro hblocked
    rw [Machine.wakeLocked, if_neg (not_not.2 hcpu), if_neg (by rw [hblocked]; simp)]
    rfl
  by_cases hcurrent : s.current cpu = t
  · have hon : s.machine.At t (.cpu cpu) := hcurrent
    have hphase := (hwhere.resolve_right fun hgone => hgone.1 _ hon).2
    rcases alive_of_onCpu ((h.inv.threads t hidle).fits _ hon).2.2 hphase with hrun | hblock
    · rw [show (s.decide a t cpu).machine = s.machine.act a .idle t (Thread.setState .running) from
        if_pos hcurrent, act_running s.machine hrun]
      refine h.inv.become ha rfl rfl fun u hblock hu => ?_
      cases hu
      exact nomatch hblock.symm.trans hrun
    · rw [hblocked hblock]
      exact hlocked
  · rw [hblocked (hwhere.resolve_left fun hon => hcurrent hon.1).2]
    exact hlocked

theorem Ok.decide : (s.decide a t cpu).Ok info := by
  have hidle := h.idle a t cpu hd ha
  have hok := h.inv.threads t hidle
  have htrack := h.threads t hidle
  obtain ⟨hcpu, hwhere⟩ := htrack.awaits a cpu hd ha
  have hother : ∀ a', (s.decide a t cpu).decided a' = true → a' ≠ a ∧ s.decided a' = true := by
    intro a' hd'
    have haa : a' ≠ a := by
      rintro rfl
      rw [show (s.decide a' t cpu).decided a' = false from update_self ..] at hd'
      cases hd'
    refine ⟨haa, ?_⟩
    rwa [show (s.decide a t cpu).decided a' = s.decided a' from update_of_ne haa ..] at hd'
  have hclear : s.Clear a t := by
    refine ⟨fun a' c hne hd' ha' => ?_, fun c hc => ?_, fun hexit => ?_⟩
    · rw [← (htrack.awaits a' c hd' ha').1, hcpu] at ha'
      exact hne (h.locks.alone a' a t t cpu hd' hd ha' ha)
    · obtain ⟨hc', -, -⟩ := htrack.left c hc
      rw [← hc', hcpu, h.locks.settled a t cpu hd ha] at hc
      cases hc
    · rcases hwhere with hon | hgone
      · exact hon.2 hexit
      · have hfits := hok.gone hgone.1
        rw [Machine.Gone, hexit, hgone.2] at hfits
        split at hfits
        · exact hfits.elim (fun hf => hf.2 rfl) (by simp)
        · exact hfits.2 rfl
  by_cases hcurrent : s.current cpu = t
  · have hmachine : (s.decide a t cpu).machine =
        s.machine.act a .idle t (Thread.setState .running) := if_pos hcurrent
    exact h.act hmachine (h.decide_inv ha hd) hother rfl (fun _ _ => rfl) ha Machine.holds_none
      Machine.holds_none (fun _ => hclear) (by rintro ⟨⟩) fun _ =>
        htrack.enqueued_act hmachine rfl rfl (by simp)
  · have hmachine : (s.decide a t cpu).machine =
        s.machine.act a (.placing t false) t Thread.markQueued :=
      if_neg hcurrent
    exact h.act hmachine (h.decide_inv ha hd) hother rfl (fun _ _ => rfl) ha Machine.holds_none
      Machine.holds_only (fun _ => hclear) (by rintro ⟨⟩) fun _ =>
        htrack.enqueued_act hmachine rfl rfl (by simp)

omit h ha hd

end

/-! ## Runs -/

section

variable {info} {exits : Cpus → Nat → Prop} {s s' : Cpus} {a t cpu : Nat} {old : Agent}

variable (h : s.Ok info)
include h

theorem Ok.hand (ha : s.machine.agents a = .handing t)
    (hnot : (s.machine.threads t).flags.scheduled = false) :
    (s.on (s.machine.act a (.placing t true) t (Thread.setScheduled true))).Ok info := by
  refine h.act rfl (h.inv.hand ha hnot)
    (fun a' hd => ⟨h.locks.undecided ha nofun a' hd, hd⟩) rfl (fun _ _ => rfl) ha
    (fun _ _ => nofun) Machine.holds_only (fun hidle => h.clear_of_unscheduled hidle hnot) id
      fun hidle => ?_
  refine .inl ((h.threads t hidle).enqueued.resolve_right fun hone => ?_)
  rw [hone.2.1] at hnot
  cases hnot

/-- The agent stores the CPU its thread goes to. -/
theorem Ok.headFor
    (hmachine : s'.machine = s.machine.act a (.carrying t cpu) t (Thread.setCpuId cpu))
    (hdecided : s'.decided = s.decided) (hleaving : s'.leaving = s.leaving)
    (hother : ∀ u, u ≠ t → s'.enqueued u = s.enqueued u) (ha : s.machine.agents a = old)
    (hold : old.holds = some t) (hw : old.wakes = none)
    (henqueued : (info t).isIdle = false → s'.Enqueued t) : s'.Ok info := by
  refine h.act hmachine (by rw [hmachine]; exact h.inv.headFor ha hold hw) (fun a' hd => ?_)
    hleaving hother ha
    (by rw [hold]; exact Machine.holds_only) Machine.holds_only (fun hidle => ?_) id henqueued
  · rw [hdecided] at hd
    refine ⟨h.locks.undecided ha ?_ a' hd, hd⟩
    rintro u c rfl
    cases hold
  · exact h.clear_of_at hidle (l := .transit a) (by rw [Machine.At, ha, hold]) nofun nofun

/-- `place`, for a new thread or an old one. -/
theorem Ok.place {fresh : Bool} (ha : s.machine.agents a = .placing t fresh) :
    (s.place a t cpu fresh).Ok info := by
  refine h.headFor rfl rfl rfl (fun u hu => ?_) ha rfl rfl fun hidle => ?_
  · unfold Cpus.place
    split
    · exact update_of_ne hu ..
    · rfl
  have htrack := h.threads t hidle
  have hok := h.inv.threads t hidle
  have hhere : s.machine.At t (.transit a) := by rw [Machine.At, ha]; rfl
  have hself : (s.place a t cpu fresh).machine.agents a = .carrying t cpu := update_self ..
  have hsched : ((s.place a t cpu fresh).machine.threads t).flags.scheduled =
      (s.machine.threads t).flags.scheduled := by
    simp only [Cpus.place, Machine.act, modify_self, Thread.setCpuId]
  cases fresh with
  | false => exact htrack.enqueued_act rfl rfl rfl (by simp)
  | true =>
    have hzero : s.enqueued t = 0 := htrack.enqueued.resolve_right fun hone => hone.2.2 a ha
    refine .inr ⟨?_, hsched.trans (hok.fits _ hhere).1, fun a' ha' => ?_⟩
    · rw [show (s.place a t cpu true).enqueued t = s.enqueued t + 1 from update_self .., hzero]
    · by_cases haa : a' = a
      · rw [haa, hself] at ha'
        cases ha'
      · rw [show (s.place a t cpu true).machine.agents a' = s.machine.agents a' from
          update_of_ne haa ..] at ha'
        have hthere : s.machine.At t (.transit a') := by rw [Machine.At, ha']; rfl
        exact haa (Machine.Loc.transit.inj (hok.unique _ _ hthere hhere))

theorem Ok.adopt (ha : s.machine.agents a = .stolen t cpu) :
    (s.on (s.machine.act a (.carrying t cpu) t (Thread.setCpuId cpu))).Ok info := by
  exact h.headFor rfl rfl rfl (fun _ _ => rfl) ha rfl rfl fun hidle =>
    (h.threads t hidle).enqueued_act rfl rfl rfl nofun

theorem Ok.revoke (ha : s.machine.agents a = .placing t true) :
    (s.on (s.machine.act a .idle t (Thread.setScheduled false))).Ok info := by
  have hhere : s.machine.At t (.transit a) := by rw [Machine.At, ha]; rfl
  refine h.act rfl (h.inv.revoke ha) (fun a' hd => ⟨h.locks.undecided ha (by simp) a' hd, hd⟩) rfl
    (fun _ _ => rfl) ha
    Machine.holds_only Machine.holds_none
      (fun hidle => h.clear_of_at hidle hhere (by simp) (by simp)) id fun hidle => ?_
  exact .inl ((h.threads t hidle).enqueued.resolve_right fun hone => hone.2.2 a ha)

theorem Ok.arrive {nowNs : Nat} {preempts : Bool} {rq : RunQueue} {threads : Threads}
    (ha : s.machine.agents a = .carrying t cpu)
    (hq : ((s.machine.rqs cpu).updateClockLocked nowNs).enqueueLocked info s.machine.threads t =
      some (preempts, rq, threads)) :
      (s.on (s.machine.requeue a .idle cpu rq threads)).Ok info := by
  have hhere : s.machine.At t (.transit a) := by rw [Machine.At, ha]; rfl
  obtain ⟨hclock, hqueued, hcurrent, -⟩ := RunQueue.updateClockLocked_spec (h.inv.rqs cpu) nowNs
  have hidle : (info t).isIdle = false := (RunQueue.enqueueLocked_cases hq).1
  have hok := h.inv.threads t hidle
  have hfresh : t ∉ ((s.machine.rqs cpu).updateClockLocked nowNs).queued := by
    rw [hqueued]
    intro hmem
    cases hok.unique (.queue cpu) _ hmem hhere
  have hne : t ≠ ((s.machine.rqs cpu).updateClockLocked nowNs).current := by
    rw [hcurrent]
    intro heq
    cases hok.unique (.cpu cpu) _ heq.symm hhere
  have hinv := h.inv.arrive ha hq
  have hdead := (RunQueue.enqueueLocked_dead hq).trans (RunQueue.updateClockLocked_dead ..)
  obtain ⟨-, hperm, hcurrent', rfl⟩ := RunQueue.enqueueLocked_spec hclock hfresh hne hq
  rw [hqueued] at hperm
  refine h.requeue (t := t) hinv (h.locks.undecided ha (by simp)) (hcurrent'.trans hcurrent)
    (fun u hu => ?_) hdead (fun u hu => ?_) ?_ (fun hstate => ?_) ha Machine.holds_only
    Machine.holds_none (by simp) fun _ => h.clear_of_at hidle hhere (by simp) (by simp)
  · rw [hperm.mem_iff, List.mem_cons]
    exact or_iff_right hu
  · simp only [modify_of_ne hu, and_self]
  · rw [modify_self]
    rfl
  · rw [modify_self] at hstate
    cases hstate

theorem Ok.steal {victim thief enough : Nat} {rq : RunQueue} {threads : Threads}
    (ha : s.machine.agents a = .idle) (hlock : ¬ s.Locked victim)
    (hq : (s.machine.rqs victim).trySteal info s.machine.threads enough =
      some (some t, rq, threads)) :
    (s.on (s.machine.requeue a (.stolen t thief) victim rq threads)).Ok info := by
  have hon : ∀ u ∈ (s.machine.rqs victim).queued, (s.machine.threads u).onRunqueue = true :=
    fun u hu =>
    ((h.inv.threads u ((h.inv.rqs victim).toTiers.not_idle hu)).fits (.queue victim) hu).2.2.1
  rcases RunQueue.trySteal_spec (h.inv.rqs victim) hon hq with
    ⟨hnone, -⟩ | ⟨t', ht', hmem, -, hperm, hcurrent, hsame⟩
  · cases hnone
  cases ht'
  refine h.requeue (t := t) (h.inv.steal ha hq) (h.locks.undecided ha nofun) hcurrent
    (fun u hu => ?_) (RunQueue.trySteal_dead hq) (fun u hu => ?_) ?_ (fun hstate => ?_) ha
    (fun _ _ => nofun) Machine.holds_only nofun
    fun hidle => h.clear_of_at hidle (l := .queue victim) hmem nofun fun c hc => ?_
  · rw [hperm.mem_iff, List.mem_cons]
    exact (or_iff_right hu).symm
  · have hu' := hsame u
    rwa [modify_of_ne hu] at hu'
  · rw [(hsame t).1, modify_self]
    rfl
  · rwa [Thread.state, (hsame t).1, modify_self] at hstate
  · rw [← Machine.Loc.queue.inj hc]
    by_contra hleaving
    exact hlock (.inl hleaving)

theorem Ok.finish {c : Nat} :
    ({ s with leaving := Function.update s.leaving c none } : Cpus).Ok info := by
  have hleaving : ∀ c', Function.update s.leaving c none c' = none ∨
      Function.update s.leaving c none c' = s.leaving c' := by
    intro c'
    by_cases hc : c' = c
    · rw [hc]
      exact .inl (update_self ..)
    · exact .inr (update_of_ne hc ..)
  refine h.of_same (fun _ => False) h.inv rfl (fun _ hd => ⟨hd, rfl⟩) (fun c' _ hnone => ?_)
    (fun u _ _ => ⟨fun _ => Iff.rfl, rfl, rfl, rfl⟩) (fun u _ c' hc' => ?_) (fun _ _ => rfl)
    (fun _ _ _ ha => ha) (fun _ _ _ => rfl) fun _ _ => False.elim
  · exact (hleaving c').elim id fun heq => heq.trans hnone
  · rcases hleaving c' with heq | heq
    · cases heq.symm.trans hc'
    · exact heq.symm.trans hc'

omit h

/-- **Every step keeps the invariant**, if threads only end when nobody has looked at them
already. -/
theorem Ok.step (hexits : ∀ s t, exits s t → s.Unwatched t) (h : s.Ok info)
    (hstep : Step info exits s s') : s'.Ok info := by
  cases hstep with
  | prepare c hruns => exact h.moveOn hruns (.inr rfl) nofun nofun nofun
  | cancel c hruns => exact h.moveOn hruns rfl nofun nofun nofun
  | reschedule c nowNs mode hphase hmode hlock hs =>
    exact h.switch_alive hphase hlock hs (inv_reschedule h hphase hmode hs)
  | preempt c nowNs hruns hdead hlock hs =>
    exact h.switch_alive hruns.alive hlock hs (h.inv.preempt hruns.idle hdead hs)
  | exit c hruns hexit => exact h.moveOn hruns rfl nofun (fun _ => rfl) fun _ => hexits s _ hexit
  | leave c nowNs hphase hlock hs => exact h.leave hphase hlock hs
  | finish c => exact h.finish
  | poke a t ha => exact h.become ha (h.locks.undecided ha nofun) rfl rfl fun _ _ => nofun
  | look a t ha => exact h.become ha (h.locks.undecided ha nofun) rfl rfl fun _ _ hu => hu
  | inspect a t cpu ha hlock => exact h.inspect ha hlock
  | decide a t cpu ha hd => exact h.decide ha hd
  | offer a t ha _ _ => exact h.become ha (h.locks.undecided ha nofun) rfl rfl fun _ _ => nofun
  | hand a t ha hnot => exact h.hand ha hnot
  | handTaken a t ha _ => exact h.become ha (h.locks.undecided ha nofun) rfl rfl fun _ _ => nofun
  | place a t cpu fresh ha => exact h.place ha
  | revoke a t ha => exact h.revoke ha
  | arrive a t cpu nowNs ha _ hq => exact h.arrive ha hq
  | steal a victim thief enough t ha hlock hq => exact h.steal ha hlock hq
  | adopt a t thief ha => exact h.adopt ha

theorem Boot.ok (h : s.Boot info) : s.Ok info := by
  have hdecided : ∀ a, s.decided a ≠ true := fun a hd => by
    rw [h.decided a] at hd
    cases hd
  have hdead : ∀ c, (s.machine.rqs c).dead = [] := by
    intro c
    obtain ⟨i, -, hrq⟩ := h.machine.rqs c
    rw [hrq]
    rfl
  refine ⟨h.machine.inv, h.cond,
    ⟨fun a hd => absurd hd (hdecided a), fun a _ _ _ _ hd => absurd hd (hdecided a),
    fun a _ _ hd => absurd hd (hdecided a)⟩, fun a _ _ hd => absurd hd (hdecided a),
    fun t hidle => ?_⟩
  refine ⟨fun a _ hd => absurd hd (hdecided a), fun c hc => ?_, .inl (h.enqueued t),
    fun hstate => ?_, fun c hc => ?_, fun hexit => ?_⟩
  · rw [h.leaving c] at hc
    cases hc
  · rcases (h.machine.threads t hidle).2 with heq | heq <;> exact nomatch hstate.symm.trans heq
  · rw [hdead c] at hc
    cases hc
  · rw [h.machine.phase t] at hexit
    cases hexit

theorem reachable_ok (hexits : ∀ s t, exits s t → s.Unwatched t)
    (h : (system info exits).Reachable s) : s.Ok info :=
  h.invariant (I := Ok info) (fun _ hboot => Boot.ok hboot) fun _ _ hok hstep =>
    Ok.step hexits hok hstep

end

end Cpus
end Erebus.Sched
