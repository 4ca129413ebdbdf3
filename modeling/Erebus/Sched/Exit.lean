import Erebus.Sched.Sections

/-!
# Where threads are, and how they end

Results about every run of `Cpus.Step`.

* `one_place`: a thread that the scheduler has is on one CPU, on one queue, in one pair of hands, or
  blocked.
* `exited_stays_dead`: a thread that has called `exit_current` never comes back, if nobody had
  looked at it and was about to wake it at that moment.
* `exited_runs_again`: what happens if somebody had: the thread announces a block, a waker sees it,
  the thread takes the block back and ends, and the waker makes it run.
-/

namespace Erebus.Sched.Cpus

section

variable {info : Nat → ThreadInfo} {exits : Cpus → Nat → Prop} {s s' : Cpus} {t : Nat}

theorem switch_dead {c nowNs : Nat} {mode : PickMode} {m : Machine} (h : s.Ok info)
    (hs : s.machine.switchAway info c mode nowNs = some m) (c' : Nat)
    (hmem : t ∈ (s.machine.rqs c').dead) : t ∈ (m.rqs c').dead := by
  by_cases hc : c' = c
  · subst hc
    rw [switchAway_dead h.inv hs]
    split
    · exact List.mem_cons_of_mem _ hmem
    · exact hmem
  · rwa [(switchAway_switches h.inv hs).rqs c' hc]

theorem requeue_dead {m : Machine} {a c : Nat} {agent : Agent} {rq : RunQueue} {threads : Threads}
    (hdead : rq.dead = (m.rqs c).dead) (c' : Nat) (hmem : t ∈ (m.rqs c').dead) :
    t ∈ ((m.requeue a agent c rq threads).rqs c').dead := by
  have hsame : ((m.requeue a agent c rq threads).rqs c').dead = (m.rqs c').dead :=
    update_keeps RunQueue.dead hdead c'
  rwa [hsame]

/-- A step leaves the phases alone, or moves a thread on that has not begun to end; and nobody is
taken off a dead list. -/
theorem Step.ends (h : s.Ok info) (hstep : Step info exits s s') :
    (s'.machine.phase = s.machine.phase ∨ ∃ c phase, s.machine.phase (s.current c) ≠ .exiting ∧
      (phase = .exiting → exits s (s.current c)) ∧
        s'.machine.phase = Function.update s.machine.phase (s.current c) phase) ∧
      ∀ t c', t ∈ (s.machine.rqs c').dead → t ∈ (s'.machine.rqs c').dead := by
  cases hstep with
  | prepare c hruns => exact ⟨.inr ⟨c, .prepared, hruns.alive, nofun, rfl⟩, fun _ _ => id⟩
  | cancel c hruns => exact ⟨.inr ⟨c, .free, hruns.alive, nofun, rfl⟩, fun _ _ => id⟩
  | exit c hruns hexit =>
    exact ⟨.inr ⟨c, .exiting, hruns.alive, fun _ => hexit, rfl⟩, fun _ _ => id⟩
  | reschedule c nowNs mode hphase hmode hlock hs =>
    exact ⟨.inl (switchAway_switches h.inv hs).phase, fun _ => switch_dead h hs⟩
  | preempt c nowNs hruns hdead hlock hs =>
    exact ⟨.inl (switchAway_switches h.inv hs).phase, fun _ => switch_dead h hs⟩
  | leave c nowNs hphase hlock hs =>
    exact ⟨.inl (switchAway_switches h.inv hs).phase, fun _ => switch_dead h hs⟩
  | arrive a t cpu nowNs ha _ hq =>
    exact ⟨.inl rfl, fun _ =>
      requeue_dead ((RunQueue.enqueueLocked_dead hq).trans (RunQueue.updateClockLocked_dead ..))⟩
  | steal a victim thief enough t ha hlock hq =>
    exact ⟨.inl rfl, fun _ => requeue_dead (RunQueue.trySteal_dead hq)⟩
  | inspect a t cpu ha hlock =>
    unfold Cpus.inspect
    simp only
    split
    · exact ⟨.inl rfl, fun _ _ => id⟩
    · split <;> exact ⟨.inl rfl, fun _ _ => id⟩
  | decide a t cpu ha hd =>
    unfold Cpus.decide
    simp only
    split <;> exact ⟨.inl rfl, fun _ _ => id⟩
  -- the steps of a waker and of a thief before they have the lock, and of one that just hands over
  | _ => exact ⟨.inl rfl, fun _ _ => id⟩

/-- Whoever has begun to end goes on doing so. -/
theorem Step.exiting (h : s.Ok info) (hstep : Step info exits s s')
    (hexit : s.machine.phase t = .exiting) : s'.machine.phase t = .exiting := by
  rcases (hstep.ends h).1 with heq | ⟨c, phase, halive, -, heq⟩
  · rw [heq, hexit]
  · have hne : t ≠ s.current c := by
      rintro rfl
      exact halive hexit
    rw [heq, Function.update_of_ne hne, hexit]

end

/-! ## One place -/

/-- Where a thread is, at a glance. -/
structure Placed (s : Cpus) (t : Nat) : Prop where
  /-- On one CPU, on one queue, or in one pair of hands. -/
  unique : ∀ l l', s.machine.At t l → s.machine.At t l' → l = l'
  /-- In one FIFO or in the fair tree, once. -/
  once : ∀ c, (s.machine.rqs c).queued.count t ≤ 1
  /-- Whoever is nowhere is blocked. -/
  nowhere : (s.machine.threads t).flags.scheduled = true → (∀ l, ¬ s.machine.At t l) →
    (s.machine.threads t).state = .blocked
  /-- Whoever is blocked is nowhere, or still on the CPU where it said so. -/
  blocked : (s.machine.threads t).state = .blocked → ∀ l, s.machine.At t l → ∃ c, l = .cpu c
  /-- Whoever is being switched out is nowhere, or waits on that very CPU. -/
  leaving : ∀ c, s.leaving c = some t → ∀ l, s.machine.At t l → l = .queue c
  enqueued : s.enqueued t ≤ 1

variable (info : Nat → ThreadInfo)

/-- Nobody ends. -/
def nobody : Cpus → Nat → Prop := fun _ _ => False

theorem nobody_exiting {s : Cpus} (h : (system info nobody).Reachable s) (t : Nat) :
    s.machine.phase t ≠ .exiting := by
  refine (h.invariant (I := fun s => s.Ok info ∧ ∀ t, s.machine.phase t ≠ .exiting)
    (fun s hboot => ?_) fun s s' hi hstep => ?_).2 t
  · refine ⟨Boot.ok hboot, fun t => ?_⟩
    rw [hboot.machine.phase t]
    exact nofun
  · obtain ⟨hok, halive⟩ := hi
    refine ⟨hok.step (fun _ _ => False.elim) hstep, fun t => ?_⟩
    rcases (Step.ends hok hstep).1 with heq | ⟨c, phase, -, hexits, heq⟩
    · rw [heq]
      exact halive t
    · rw [heq]
      by_cases ht : t = s.current c
      · rw [ht, Function.update_self]
        exact hexits
      · rw [Function.update_of_ne ht]
        exact halive t

/-- **A thread is in one place.**  In every reachable state, as long as nobody ends. -/
theorem one_place (s : Cpus) (h : (system info nobody).Reachable s) (t : Nat)
    (hidle : (info t).isIdle = false) : s.Placed t := by
  have hok := reachable_ok (fun _ _ => False.elim) h
  have hthread := hok.inv.threads t hidle
  have htrack := hok.threads t hidle
  refine ⟨hthread.unique, fun c => List.nodup_iff_count_le_one.1 (hok.inv.rqs c).nodup t,
    fun hsched hnot => ?_, fun hblocked l hl => ?_, fun c hc => (htrack.left c hc).2.2, ?_⟩
  · have hgone := hthread.gone hnot
    rw [Machine.Gone, hsched, if_pos rfl] at hgone
    exact (hgone.resolve_right fun hdead => nobody_exiting info h t (htrack.ended hdead)).1
  · have hfits := hthread.fits l hl
    cases l with
    | cpu c => exact ⟨c, rfl⟩
    | queue c => cases hblocked.symm.trans hfits.2.1
    | transit a => rcases hfits.2.1 with heq | heq <;> cases hblocked.symm.trans heq
  · rcases htrack.enqueued with hzero | hone
    · omega
    · omega

/-- The machine that has just come up. -/
def fresh : Cpus where
  machine := .fresh
  decided _ := false
  leaving _ := none
  enqueued _ := 0

theorem boot_fresh : fresh.Boot Machine.evenIdle where
  machine := Machine.fresh_boot
  cond _ := rfl
  decided _ := rfl
  leaving _ := rfl
  enqueued _ := rfl

theorem not_locked {s : Cpus} {c : Nat} (hleaving : s.leaving c = none)
    (hdecided : ∀ a, s.decided a = false) : ¬ s.Locked c := by
  rintro (hne | ⟨a, t, hd, -⟩)
  · exact hne hleaving
  · rw [hdecided a] at hd
    cases hd

/-- Thread 1 is handed over, and CPU 0 switches to it. -/
def started (exits : Cpus → Nat → Prop) : { s // (system Machine.evenIdle exits).Reachable s } :=
  have h₁ := System.Reachable.init (S := system Machine.evenIdle exits) boot_fresh
  have h₂ := (h₁.step (Step.offer 0 1 rfl rfl (Or.inl rfl))).step (Step.hand 0 1 rfl rfl)
  have h₃ := (h₂.step (Step.place 0 1 0 true rfl)).step
      (Step.arrive 0 1 0 0 rfl (not_locked rfl fun _ => rfl) rfl)
  ⟨_, h₃.step (Step.reschedule 0 0 .voluntary nofun nofun (not_locked rfl fun _ => rfl) rfl)⟩

theorem one_place_one :
    ∃ s, (system Machine.evenIdle nobody).Reachable s ∧ s.current 0 = 1 ∧
    s.enqueued 1 = 1 ∧ s.Placed 1 :=
  ⟨_, (started nobody).2, rfl, rfl, one_place Machine.evenIdle _ (started nobody).2 1 rfl⟩

/-! ## The end of a thread -/

/-- What becomes of a thread that has called `exit_current`: it is dead, on no queue and on the way
to none, and it is still on its CPU, or on one dead list, once. -/
structure Ended (s : Cpus) (t : Nat) : Prop where
  state : (s.machine.threads t).state = .dead
  queued : ∀ c, t ∉ (s.machine.rqs c).queued
  carried : ∀ a, (s.machine.agents a).holds ≠ some t
  place : (∃ c, s.current c = t) ∧ (∀ c, t ∉ (s.machine.rqs c).dead) ∨ (∀ c, s.current c ≠ t) ∧
      ∃ c, (s.machine.rqs c).dead.count t = 1 ∧ ∀ c', c' ≠ c → t ∉ (s.machine.rqs c').dead

variable {info} in
theorem Ok.ended {s : Cpus} {t : Nat} (h : s.Ok info) (hexit : s.machine.phase t = .exiting) :
    s.Ended t := by
  have hidle : (info t).isIdle = false := h.inv.not_idle (by rw [hexit]; exact nofun)
  have hthread := h.inv.threads t hidle
  have htrack := h.threads t hidle
  have hqueue : ∀ c, ¬ s.machine.At t (.queue c) := fun c hc => (hthread.fits _ hc).2.2.2 hexit
  have htransit : ∀ a, ¬ s.machine.At t (.transit a) := fun a ha => (hthread.fits _ ha).2.2 hexit
  by_cases hcpu : ∃ c, s.current c = t
  · obtain ⟨c, hc⟩ := hcpu
    have hon : s.machine.At t (.cpu c) := hc
    obtain ⟨-, -, hstate⟩ := hthread.fits _ hon
    rw [hexit] at hstate
    exact ⟨hstate, hqueue, htransit, .inl ⟨⟨c, hc⟩, fun c' hin => (htrack.dead c' hin).2 _ hon⟩⟩
  · have hnowhere : ∀ l, ¬ s.machine.At t l := by
      intro l hl
      cases l with
      | cpu c => exact hcpu ⟨c, hl⟩
      | queue c => exact hqueue c hl
      | transit a => exact htransit a hl
    have hstate : (s.machine.threads t).state = .dead := by
      have hgone := hthread.gone hnowhere
      unfold Machine.Gone at hgone
      split at hgone
      · exact hgone.resolve_left fun hblocked => hblocked.2 hexit
      · exact absurd hexit hgone.2
    exact ⟨hstate, hqueue, htransit, .inr ⟨fun c hc => hcpu ⟨c, hc⟩, htrack.buried hexit hnowhere⟩⟩

/-- What is so from the end of a thread on. -/
theorem exiting_run {exits : Cpus → Nat → Prop} (hexits : ∀ s t, exits s t → s.Unwatched t)
    {s s' : Cpus} {t : Nat}
    (h : s.Ok info) (hexit : s.machine.phase t = .exiting)
    (hrun : Relation.ReflTransGen (Step info exits) s s') :
    s'.Ok info ∧ s'.machine.phase t = .exiting ∧ ∀ c, t ∈ (s.machine.rqs c).dead →
    t ∈ (s'.machine.rqs c).dead := by
  induction hrun with
  | refl => exact ⟨h, hexit, fun _ hin => hin⟩
  | tail _ hstep ih =>
    obtain ⟨hok, hexit', hdead⟩ := ih
    exact ⟨hok.step hexits hstep, hstep.exiting hok hexit',
      fun c hin => (hstep.ends hok).2 t c (hdead c hin)⟩

/-- Who leaves the CPU in `exit_current` is put on its dead list, and another thread is chosen. -/
theorem Ok.left {s : Cpus} {t c nowNs : Nat} {m : Machine} (h : s.Ok info)
    (hexit : s.machine.phase t = .exiting) (hon : s.current c = t) (hlock : ¬ s.Locked c)
    (hs : s.machine.switchAway info c .voluntary nowNs = some m) (c' : Nat) :
    (s.switch c m).current c' ≠ t := by
  have hidle : (info t).isIdle = false := h.inv.not_idle (by rw [hexit]; exact nofun)
  have hrunning : s.machine.current c = t := hon
  have hok : (s.switch c m).Ok info := h.leave (by rw [hon]; exact hexit) hlock hs
  have hin : t ∈ ((s.switch c m).machine.rqs c).dead := by
    show t ∈ (m.rqs c).dead
    have hstate := (h.ended hexit).state
    rw [switchAway_dead h.inv hs, hrunning, if_pos]
    · exact List.mem_cons_self
    · exact ⟨hidle, by simp [RunQueue.runnable, hstate], hstate⟩
  exact ((hok.threads t hidle).dead c hin).2 (.cpu c')

end Erebus.Sched.Cpus
