import Erebus.Sched.Order

/-!
# Whether the running thread should give way

Three functions decide it, each in its own words: `enqueue_locked` when a thread comes,
`should_switch_locked` when something changed, and `pick_next_locked` in the end.

* `pickNextLocked_shouldSwitch`, `enqueueLocked_shouldSwitch`: two of them at a time.
* `shouldSwitchLocked_agrees`: all of them, in every state of every run.
-/

namespace Erebus.Sched

namespace RunQueue

section Switching

variable {info : Nat → ThreadInfo} {rq rq' : RunQueue} {threads threads' : Threads} {t next : Nat}

/-- Why `enqueue_locked` answers that the running thread should give way. -/
theorem enqueueLocked_preempts (h : Inv info rq)
    (hq : rq.enqueueLocked info threads t = some (true, rq', threads')) :
    rq'.current = rq'.idleThread ∨ rtLevel (info t) < rtLevel (info rq.current) ∨
      ¬ rtLevel (info rq.current) < rtLevels ∧ ∃ best ∈ rq'.fair.tree.toList, rq'.fair.pick =
        some (some best) := by
  unfold enqueueLocked at hq
  simp only at hq
  split at hq
  · cases hq
  split at hq
  · split at hq
    · cases hq
    · simp only [Option.some.injEq, Prod.mk.injEq, Bool.or_eq_true, beq_iff_eq,
        decide_eq_true_eq] at hq
      obtain ⟨hdone, rfl, -⟩ := hq
      exact hdone.imp_right .inl
  · split at hq
    · cases hq
    · rename_i fair henqueue
      simp only [Option.some.injEq, Prod.mk.injEq, Bool.or_eq_true, beq_iff_eq, Bool.and_eq_true,
        Bool.not_eq_true', decide_eq_false_iff_not] at hq
      obtain ⟨hdone, rfl, -⟩ := hq
      refine hdone.imp_right fun ⟨hlevel, hpreempts⟩ => .inr ⟨hlevel, ?_⟩
      obtain ⟨-, -, hperm, -⟩ := EevdfQueue.enqueue_spec h.shape henqueue
      have hmem := List.mem_append_left fair.current.toList (hperm.mem_iff.2 List.mem_cons_self)
      obtain ⟨best, hbest, hpick, -⟩ := (h.shape.enqueue henqueue).preemptsCurrent hmem hpreempts
      exact ⟨best, hbest, hpick⟩

theorem Counted.waiting_ne_zero (h : Counted info rq) (ht : t ∈ rq.queued) : rq.waiting ≠ 0 := by
  rw [h.waiting]
  exact (List.length_pos_of_mem ht).ne'

/-- The answer for a fair thread that runs, if the fair queue picks one of those who wait. -/
theorem Inv.chosen_ne (h : Inv info rq) (ht : t ∈ rq.fair.waiting) :
    (some t != rq.fair.current.map Entity.id) = true := by
  rw [bne_iff_ne, h.running]
  split
  · rintro ⟨⟩
    exact h.current (List.mem_append_left _ ht)
  · exact nofun

theorem enqueueLocked_shouldSwitch (h : Inv info rq) (h' : Inv info rq')
    (hcounted : Counted info rq') (ht : t ∈ rq'.queued) (hcurrent : rq'.current = rq.current)
    (hq : rq.enqueueLocked info threads t = some (true, rq', threads')) :
    rq'.shouldSwitchLocked info = some true := by
  have hle := highestRtLevel_le h'.toTiers ht
  have hlevel := rtLevel_le (info rq.current)
  unfold shouldSwitchLocked
  simp only
  split
  · rw [decide_eq_true (hcounted.waiting_ne_zero ht)]
  · rename_i hidle
    rw [hcurrent]
    rcases (enqueueLocked_preempts h hq).resolve_left hidle with hlt | ⟨hfair, best, hbest, hpick⟩
    · rw [if_pos (by omega), decide_eq_true (by omega)]
    · split
      · rw [decide_eq_true (by omega)]
      · rw [hpick, Option.map_some, Option.map_some, h'.chosen_ne (List.mem_map_of_mem hbest)]

/-- A thread that goes on is not filed anywhere. -/
theorem filePrev_voluntary (hrunning : (threads t).state = .running ∨ (info t).isIdle = true) :
    rq.filePrev info threads t .voluntary = some (rq, threads) := by
  have hstays : (!(info t).isIdle && !runnable info threads t .voluntary) = false := by
    rcases hrunning with h | h <;> simp [runnable, h]
  simp [filePrev, hstays]

theorem pickNextLocked_shouldSwitch (h : Inv info rq) (hcounted : Counted info rq)
    (hrunning : (threads rq.current).state = .running ∨ rq.current = rq.idleThread)
    (hq : rq.pickNextLocked info threads rq.current .voluntary = some (next, rq', threads')) :
    rq.shouldSwitchLocked info = some (decide (next ≠ rq.current)) := by
  have hidle : rq.current = rq.idleThread → (info rq.current).isIdle = true :=
    fun heq => by rw [heq, h.idle]
  obtain ⟨rq₁, threads₁, hfile, hfiled, hpicks⟩ := pickNextLocked_picks h hq
  cases hfile.symm.trans (filePrev_voluntary (hrunning.imp_right hidle))
  have hstays : rq.current ≠ rq.idleThread →
      runnable info threads rq.current .voluntary = true := by
    intro hne
    have hnot := Bool.eq_false_iff.2 (mt h.idle_current hne)
    simp [runnable, hnot, hrunning.resolve_right hne]
  have hwaits : next ∈ rq.queued → decide (next ≠ rq.current) = true :=
    fun ht => decide_eq_true fun heq => h.current (heq ▸ ht)
  unfold shouldSwitchLocked
  simp only
  cases hpicks with
  | realtime hrunnable hl hle _ =>
    simp [h.toTiers.ne_idleThread (not_idle_of_runnable hrunnable), hl, Nat.not_lt.2 hle]
  | head htop hrefiles hout hpop =>
    have hwaited := hrefiles.head_waited hfiled h htop hout hpop
    rw [hwaits hwaited, if_pos htop]
    split
    · rw [decide_eq_true (hcounted.waiting_ne_zero hwaited)]
    · rename_i hne
      have hlt : rq.highestRtLevel < rtLevel (info rq.current) := by
        by_cases hl : rtLevel (info rq.current) < rtLevels
        · exact (hout (hstays hne) hl).resolve_right (by simp)
        · omega
      rw [decide_eq_true hlt]
  | idles htop hgone hpick heq =>
    have hempty : rq.queued = [] := by
      rw [queued, EevdfQueue.waiting, (hfiled.tiers.shape.pick_none hpick).2,
        realtime_of_not_highest htop 0 (by decide), realtime_of_not_highest htop 1 (by decide)]
      rfl
    rw [if_pos heq, hcounted.waiting, hempty]
    simp
  | idle htop hgone hpick hne => exact absurd (hstays hne) (by rw [hgone]; decide)
  | current htop hrunnable hisfair hpick heq =>
    have hlevel := (isFair_iff.1 hisfair).2
    rw [if_neg (h.toTiers.ne_idleThread (isFair_iff.1 hisfair).1), if_neg htop,
      if_neg hlevel.not_lt, hpick, h.running, if_pos hisfair, Option.map_some, Option.map_some, heq]
    simp
  | chosen htop hfair hpick hmem _ _ =>
    have hwaited := List.mem_append_left (rq.realtime 0 ++ rq.realtime 1) hmem
    rw [hwaits hwaited, if_neg htop]
    split
    · rw [decide_eq_true (hcounted.waiting_ne_zero hwaited)]
    · rename_i hne
      rw [if_neg (isFair_iff.1 (hfair (hstays hne))).2.not_lt, hpick, Option.map_some,
        Option.map_some, h.chosen_ne hmem]

end Switching

end RunQueue

namespace Desk

open RunQueue

/-- **The three decisions agree** in every state of every run: while the running thread could go on,
`should_switch_locked` answers what `pick_next_locked` would do, and it says yes once
`enqueue_locked` did. -/
theorem shouldSwitchLocked_agrees (s : Desk) (h : system.Reachable s) :
    ((s.threads s.rq.current).state = .running ∨ s.rq.current = s.rq.idleThread →
      (∀ next rq threads, s.rq.pickNextLocked s.info s.threads s.rq.current .voluntary =
        some (next, rq, threads) →
        s.rq.shouldSwitchLocked s.info = some (decide (next ≠ s.rq.current))) ∧
      (s.fits → ∃ r, s.rq.pickNextLocked s.info s.threads s.rq.current .voluntary = some r)) ∧
    ∀ t rq threads, t ∉ s.members → t ≠ s.rq.current →
      s.rq.enqueueLocked s.info s.threads t = some (true, rq, threads) →
      rq.shouldSwitchLocked s.info = some true := by
  have hok := reachable_ok h
  refine ⟨fun hrunning =>
    ⟨fun _ _ _ => pickNextLocked_shouldSwitch hok.inv hok.counted hrunning, fun hfits => ?_⟩,
    fun t rq threads ht hcurrent hq => ?_⟩
  · exact pickNextLocked_exact_answers _ _ hok.inv (hok.totals hfits)
  · have hnext := hok.enqueue ht hcurrent hq
    have hmem : t ∈ rq.queued := (hnext.members t).1 (Finset.mem_insert_self ..)
    obtain ⟨-, -, hsame, -⟩ := enqueueLocked_spec hok.inv (mt (hok.members t).2 ht) hcurrent hq
    exact enqueueLocked_shouldSwitch hok.inv hnext.inv hnext.counted hmem hsame hq

/-- A thread notes that it runs. -/
theorem reachable_running {s : Desk} (h : system.Reachable s) (t : Nat) :
    system.Reachable { s with threads := s.threads.modify t (Thread.setState .running) } := by
  refine h.step (Step.elsewhere _ fun u _ => ?_)
  by_cases hu : u = t
  · rw [hu, Threads.modify_self]
    rfl
  · rw [Threads.modify_of_ne hu]

/-- Three ordinary threads come, and one of them runs until its slice is over. -/
def contended : { s // system.Reachable s } :=
  have h : system.Reachable quiet := .init ⟨⟨0, rfl, rfl⟩, rfl, trivial⟩
  have h := h.step (Step.enqueue 2 (Finset.notMem_empty 2) (by decide) rfl)
  have h := h.step (Step.enqueue 3 (by decide) (by decide) rfl)
  have h := h.step (Step.enqueue 4 (by decide) (by decide) rfl)
  have h := h.step (Step.pick .voluntary rfl)
  have h := h.step (Step.updateClock 5000000)
  ⟨_, reachable_running h 2⟩

/-- The next thread's turn has come, and a real-time thread does not wait for it. -/
theorem shouldSwitchLocked_agrees_contended : ∃ s, system.Reachable s ∧ s.rq.current = 2 ∧
    isFair s.info 2 = true ∧ s.rq.waiting = 2 ∧
    (∃ rq threads, s.rq.pickNextLocked s.info s.threads s.rq.current .voluntary =
      some (3, rq, threads) ∧ s.rq.shouldSwitchLocked s.info = some true) ∧
    ∃ rq threads, s.rq.enqueueLocked s.info s.threads 1 = some (true, rq, threads) ∧
      rq.shouldSwitchLocked s.info = some true := by
  obtain ⟨hgoes, hcomes⟩ := shouldSwitchLocked_agrees contended.1 contended.2
  refine ⟨contended.1, contended.2, rfl, rfl, rfl, ⟨_, _, rfl, (hgoes (.inl rfl)).1 3 _ _ rfl⟩,
    _, _, rfl, ?_⟩
  exact hcomes 1 _ _ (by decide) (by decide) rfl

end Desk

end Erebus.Sched
