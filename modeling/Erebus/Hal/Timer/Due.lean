import Erebus.Hal.Timer.Sections

/-!
# What `expire` runs, and what it leaves

A queue orders its timers by the end of their slack, but a timer may run from its deadline on, and a
pass stops at the first timer that may not run yet. That everything due has run by then rests on the
order, and on what a timer says about itself not changing under the tree.

* `Timer.endNs`: the end of the slack, as an integer; `Orderly`: it is a 64-bit number whenever a
  timer is put on a queue, and deadlines are only moved on while their timer waits nowhere.
* `Timed`: what the tree knows about a timer is what the timer says.
* `turn_runs`, `turn_leaves`: a turn of the loop runs nothing too early, and leaves nothing that is
  over.
* `Punctual`, `orderly_punctual`: the same of every pass of every run of orderly steps, for queues
  without hardware.
* `overdue`: a slack that ends past 2^64 hides what is due.
-/

namespace Erebus.Timers

open Function (update update_self update_of_ne)

/-- The end of a timer's slack, as an integer; an `Exact` timer has none. -/
def Timer.endNs (t : Timer) : Nat := t.deadlineNs + if t.precision = .exact then 0 else t.slackNs

namespace Sections

/-- Whether a step leaves times in order. -/
def Orderly (s : Machine) : Event → Prop
  | .quiet => True
  | .links timer => timer.endNs < 2 ^ 64
  | .forwards t => (s.timers t).queue = none

def orderly : System Machine where
  init := Boot
  step s s' := ∃ e, Orderly s e ∧ Step s e s'

/-- What a queue without hardware knows about its timers is what they say. -/
structure Timed (s : Machine) : Prop where
  times : ∀ c, (s.queues c).queue.hasHardware = false → ∀ e ∈ (s.queues c).queue.waiting,
    e.fireNs = (s.timers e.timer).endNs ∧ e.earliestNs = (s.timers e.timer).deadlineNs

/-- How many callbacks a pass has run once this place is left. -/
def Pass.ran (pass : Pass) : Nat :=
  match pass.place with
  | .entered => pass.expired
  | .callback _ => pass.expired + 1

/-- The promises of a queue, in one state and for the steps from there. -/
structure Punctual (s : Machine) (c : Nat) : Prop where
  first : (s.queues c).queue.first = (s.queues c).queue.waiting.head?
  /-- Timers wait in the order of the ends of their slacks. The slack of an `Exact` timer is
  dropped: it waits by its deadline. -/
  order : (s.queues c).queue.waiting.Pairwise fun a b =>
    (s.timers a.timer).endNs ≤ (s.timers b.timer).endNs
  /-- No callback starts before its deadline. -/
  runs : ∀ e s' nowNs n t, Orderly s e → Step s e s' → s'.passes c = some ⟨nowNs, n, .callback t⟩ →
    s'.passes c ≠ s.passes c → (s'.timers t).deadlineNs ≤ nowNs
  /-- A pass that ends before the limit leaves no timer whose slack is over. -/
  leaves : ∀ e s' pass, Orderly s e → Step s e s' → s.passes c = some pass → s'.passes c = none →
    pass.ran < maxExpiriesPerPass → ∀ e' ∈ (s'.queues c).queue.waiting,
      ¬ (s'.timers e'.timer).deadlineNs + (s'.timers e'.timer).slackNs ≤ pass.nowNs

section Times

variable {s s' : Machine} {c t advanceNs : Nat} {timer : Timer}

theorem entry_times (q : TimerQueue) (id : Nat) (hhardware : q.hasHardware = false)
    (hend : timer.endNs < 2 ^ 64) :
    (q.entry id timer advanceNs).fireNs = timer.endNs ∧
    (q.entry id timer advanceNs).earliestNs = timer.deadlineNs := by
  unfold Timer.endNs at hend ⊢
  unfold TimerQueue.entry
  simp only [hhardware, Bool.false_eq_true, and_false, if_false, Nat.zero_min, Nat.sub_zero]
  rw [Nat.mod_eq_of_lt hend]
  refine ⟨rfl, ?_⟩
  split
  · exact Nat.add_zero _
  · rfl

/-- Neither the trees nor the times of the timers in them have changed. -/
theorem Timed.congr (h : Timed s) (hq : ∀ c, (s'.queues c).queue = (s.queues c).queue)
    (ht : ∀ c, ∀ e ∈ (s.queues c).queue.waiting, (s'.timers e.timer).endNs =
      (s.timers e.timer).endNs ∧
      (s'.timers e.timer).deadlineNs = (s.timers e.timer).deadlineNs) : Timed s' := by
  constructor
  intro c hhardware e he
  rw [hq] at hhardware he
  rw [(ht c e he).1, (ht c e he).2]
  exact h.times c hhardware e he

/-- A change to one timer that leaves its times alone. -/
theorem times_update (timers : Nat → Timer) (t : Nat) (timer : Timer)
    (hend : timer.endNs = (timers t).endNs)
    (hdeadline : timer.deadlineNs = (timers t).deadlineNs) (u : Nat) :
    (update timers t timer u).endNs = (timers u).endNs ∧
    (update timers t timer u).deadlineNs = (timers u).deadlineNs :=
  ⟨update_keeps Timer.endNs hend u, update_keeps Timer.deadlineNs hdeadline u⟩

variable (h : Timed s)
include h

theorem Timed.unlink (hlinked : Linked s) (hqueue : (s.timers t).queue = some c) :
    Timed (s.unlink c t) := by
  constructor
  intro c' hhardware e he
  have htimes := times_update s.timers t { s.timers t with queue := none } rfl rfl e.timer
  rw [show ((s.unlink c t).timers e.timer) =
    update s.timers t { s.timers t with queue := none } e.timer from rfl, htimes.1, htimes.2]
  replace hhardware : (update s.queues c _ c').queue.hasHardware = false := hhardware
  replace he : e ∈ (update s.queues c _ c').queue.waiting := he
  by_cases hc : c' = c
  · subst hc
    rw [update_self] at hhardware he
    exact h.times c' hhardware e
      ((TimerQueue.mem_unlinkLocked (hlinked.queues c') ((hlinked.linked t c').2 hqueue)).1 he).1
  · rw [update_of_ne hc] at hhardware he
    exact h.times c' hhardware e he

theorem Timed.link (hlinked : Linked s) (hnone : (s.timers t).queue = none)
    (hend : timer.endNs < 2 ^ 64) : Timed (s.link c t timer advanceNs) := by
  -- the timer is in no tree
  have hfresh : ∀ q, ∀ e ∈ (s.queues q).queue.waiting, e.timer ≠ t := by
    rintro q e he rfl
    rw [(hlinked.linked e.timer q).1 ⟨e, he, rfl⟩] at hnone
    cases hnone
  constructor
  intro c' hhardware e he
  replace hhardware : (update s.queues c _ c').queue.hasHardware = false := hhardware
  replace he : e ∈ (update s.queues c _ c').queue.waiting := he
  show e.fireNs = (update s.timers t _ e.timer).endNs ∧
      e.earliestNs = (update s.timers t _ e.timer).deadlineNs
  by_cases hc : c' = c
  · subst hc
    rw [update_self] at hhardware he
    rcases (TimerQueue.mem_linkLocked (hlinked.queues c')).1 he with rfl | he
    · rw [show ((s.queues c').queue.entry t timer advanceNs).timer = t from rfl, update_self]
      exact entry_times (s.queues c').queue t hhardware hend
    · rw [update_of_ne (hfresh c' e he)]
      exact h.times c' hhardware e he
  · rw [update_of_ne hc] at hhardware he
    rw [update_of_ne (hfresh c' e he)]
    exact h.times c' hhardware e he

theorem Timed.setQueue {q : CpuQueue} (hq : q.queue = (s.queues c).queue) :
    Timed (s.setQueue c q) :=
  h.congr (setQueue_queue s hq) fun _ _ _ => ⟨rfl, rfl⟩

theorem Timed.setTimer (t : Nat) (timer : Timer) (hend : timer.endNs = (s.timers t).endNs)
    (hdeadline : timer.deadlineNs = (s.timers t).deadlineNs) :
    Timed { s with timers := update s.timers t timer } :=
  h.congr (fun _ => rfl) fun _ e _ => times_update s.timers t timer hend hdeadline e.timer

theorem Timed.leave (c : Nat) : Timed (s.leave c) := by
  have hidle := h.setQueue (c := c) (q := { s.queues c with expiring := false }) rfl
  exact (hidle.setQueue (c := c) (reprogramLocked_queue ..)).congr (fun _ => rfl) fun _ _ _ =>
    ⟨rfl, rfl⟩

theorem Timed.turn (hlinked : Linked s) (c nowNs expired : Nat) :
    Timed (s.turn c nowNs expired) := by
  unfold Machine.turn
  split
  · exact h.leave c
  · rename_i e hfirst
    split
    · have hqueue := (hlinked.linked e.timer c).1 ⟨e, (hlinked.queues c).first_mem hfirst, rfl⟩
      exact ((h.unlink hlinked hqueue).setTimer e.timer
        { (s.unlink c e.timer).timers e.timer with runningOn := some c } rfl rfl).congr
        (fun _ => rfl) fun _ _ _ => ⟨rfl, rfl⟩
    · exact h.leave c

theorem Timed.returned (hlinked : Linked s) (c t : Nat) (pass : Pass) :
    Timed (s.returned c t pass) :=
  (h.setTimer t { s.timers t with runningOn := none } rfl rfl).turn
    (hlinked.setTimer t { s.timers t with runningOn := none } rfl) ..

theorem Timed.added (a : Nat) (call : Call) (q : Nat) : Timed (s.added a call q) := by
  unfold Machine.added
  simp only
  split
  · exact (h.setQueue (c := q) (reprogramLocked_queue ..)).congr (fun _ => rfl) fun _ _ _ =>
      ⟨rfl, rfl⟩
  · split <;> exact h.congr (fun _ => rfl) fun _ _ _ => ⟨rfl, rfl⟩

/-- **Orderly steps keep trees and times together.** -/
theorem Timed.step (hlinked : Linked s) {e : Event} (horderly : Orderly s e)
    (hstep : Step s e s') : Timed s' := by
  cases hstep with
  | cancel a q _ _ =>
    unfold Machine.cancelLocked
    split
    · rename_i hqueue
      exact (h.unlink hlinked hqueue).congr (fun _ => rfl) fun _ _ _ => ⟨rfl, rfl⟩
    · exact h.congr (fun _ => rfl) fun _ _ _ => ⟨rfl, rfl⟩
  | add a advanceNs _ hnone => exact (h.link hlinked hnone horderly).added ..
  | reprogram c _ =>
    exact (h.setQueue (c := c) (reprogramLocked_queue ..)).congr (fun _ => rfl) fun _ _ _ =>
      ⟨rfl, rfl⟩
  | interrupt c _ _ =>
    exact (h.setQueue (c := c) (q := { s.queues c with armedNs := notArmed }) rfl).congr
      (fun _ => rfl) fun _ _ _ => ⟨rfl, rfl⟩
  | enter c _ =>
    exact (h.setQueue (c := c) (q := { s.queues c with expiring := true }) rfl).turn
      (hlinked.setQueue rfl) ..
  | forward c t periodNs nowNs _ _ =>
    -- the timer is in no tree
    refine h.congr (fun _ => rfl) fun q e he => ?_
    have hne : e.timer ≠ t := by
      rintro rfl
      replace horderly : (s.timers e.timer).queue = none := horderly
      rw [(hlinked.linked e.timer q).1 ⟨e, he, rfl⟩] at horderly
      cases horderly
    show (update s.timers t _ e.timer).endNs = _ ∧ (update s.timers t _ e.timer).deadlineNs = _
    rw [update_of_ne hne]
    exact ⟨rfl, rfl⟩
  | restart c advanceNs _ _ hnone =>
    exact (h.link hlinked hnone horderly).returned (hlinked.link hnone) ..
  | done c _ _ => exact h.returned hlinked ..
  | limit c limitNs => exact h.setQueue rfl
  | _ => exact h.congr (fun _ => rfl) fun _ _ _ => ⟨rfl, rfl⟩

omit h

end Times

/-! ## One turn -/

section

variable {s s' : Machine} {c t nowNs n : Nat}

theorem leave_passes (s : Machine) (c : Nat) : (s.leave c).passes c = none := update_self ..

/-- A pass that ends leaves the queue as it is. -/
theorem leave_queue (s : Machine) (c : Nat) :
    ((s.leave c).queues c).queue = (s.queues c).queue ∧ (s.leave c).timers = s.timers := by
  refine ⟨?_, rfl⟩
  simp only [Machine.leave, Machine.reprogram, Machine.setQueue, Machine.setPass, update_self,
    reprogramLocked_queue]

/-- The pass of one CPU is no business of the others. -/
theorem turn_passes_of_ne (s : Machine) {c c' : Nat} (nowNs n : Nat) (hc : c' ≠ c) :
    (s.turn c nowNs n).passes c' = s.passes c' := by
  unfold Machine.turn
  split
  · exact update_of_ne hc ..
  · split <;> exact update_of_ne hc ..

variable (hlinked : Linked s) (htimed : Timed s)
  (hhardware : (s.queues c).queue.hasHardware = false)
include hlinked htimed hhardware

theorem waiting_order :
    (s.queues c).queue.waiting.Pairwise fun a b => (s.timers a.timer).endNs ≤
      (s.timers b.timer).endNs := by
  refine List.Pairwise.imp_of_mem ?_ (hlinked.queues c).sorted
  intro a b ha hb hless
  simp only [order, decide_eq_false_iff_not, not_lt] at hless
  rwa [← (htimed.times c hhardware a ha).1, ← (htimed.times c hhardware b hb).1]

/-- **A turn starts no callback before its deadline.** -/
theorem turn_runs {pass : Pass} (hpass : (s.turn c nowNs n).passes c = some pass) :
    ∃ t, pass = ⟨nowNs, n, .callback t⟩ ∧ ((s.turn c nowNs n).timers t).deadlineNs ≤ nowNs := by
  unfold Machine.turn at hpass ⊢
  split at hpass
  · rw [leave_passes] at hpass
    cases hpass
  · rename_i e hfirst
    split at hpass
    · rename_i hdue
      rw [if_pos hdue]
      replace hpass : update s.passes c (some ⟨nowNs, n, .callback e.timer⟩) c = some pass := hpass
      rw [update_self] at hpass
      refine ⟨e.timer, (Option.some.inj hpass).symm, ?_⟩
      -- neither store touches the deadline
      show (update (update s.timers e.timer _) e.timer _ e.timer).deadlineNs ≤ nowNs
      rw [update_self]
      show (update s.timers e.timer _ e.timer).deadlineNs ≤ nowNs
      rw [update_self]
      show (s.timers e.timer).deadlineNs ≤ nowNs
      rw [← (htimed.times c hhardware e ((hlinked.queues c).first_mem hfirst)).2]
      exact hdue.2
    · rw [leave_passes] at hpass
      cases hpass

/-- **A turn that ends the pass before the limit leaves no timer whose slack is over.** -/
theorem turn_leaves (hpass : (s.turn c nowNs n).passes c = none) (hn : n < maxExpiriesPerPass) :
    ∀ e ∈ ((s.turn c nowNs n).queues c).queue.waiting, nowNs <
      ((s.turn c nowNs n).timers e.timer).endNs := by
  intro e' he'
  unfold Machine.turn at hpass he' ⊢
  split at he'
  · -- nobody waits
    rename_i hnone
    rw [(leave_queue s c).1] at he'
    rw [(hlinked.queues c).first, List.head?_eq_none_iff] at hnone
    rw [hnone] at he'
    cases he'
  · rename_i e hfirst
    rw [hfirst] at hpass
    split at he'
    · rename_i hdue
      simp only [if_pos hdue] at hpass
      replace hpass : update s.passes c (some ⟨nowNs, n, .callback e.timer⟩) c = none := hpass
      rw [update_self] at hpass
      cases hpass
    · rename_i hnot
      rw [if_neg hnot, (leave_queue s c).2]
      rw [(leave_queue s c).1] at he'
      have hmem := (hlinked.queues c).first_mem hfirst
      obtain ⟨hfire, hearliest⟩ := htimed.times c hhardware e hmem
      -- the first timer may not run yet, and its slack is the first to end
      have hlate : nowNs < e.earliestNs := by
        by_contra hle
        exact hnot ⟨hn, not_lt.1 hle⟩
      calc nowNs < (s.timers e.timer).deadlineNs := hearliest ▸ hlate
        _ ≤ (s.timers e.timer).endNs := Nat.le_add_right _ _
        _ ≤ (s.timers e'.timer).endNs := by
          rw [← hfire, ← (htimed.times c hhardware e' he').1]
          exact (hlinked.queues c).first_le hfirst he'

/-- A callback returns, and the loop turns. -/
theorem returned_turn {pass : Pass} (hplace : pass.place = .callback t) :
    ∃ s₁, Linked s₁ ∧ Timed s₁ ∧ (s₁.queues c).queue.hasHardware = false ∧
      s.returned c t pass = s₁.turn c pass.nowNs pass.ran := by
  refine ⟨_, hlinked.setTimer t { s.timers t with runningOn := none } rfl,
    htimed.setTimer t { s.timers t with runningOn := none } rfl rfl, hhardware, ?_⟩
  rw [Machine.returned, Pass.ran, hplace, hhardware]
  rfl

/-- What a step does to a pass: it begins, or goes on by a turn, in a state where trees and times
fit together. -/
theorem step_passes {e : Event} (horderly : Orderly s e) (hstep : Step s e s')
    (hne : s'.passes c ≠ s.passes c) :
    s.passes c = none ∧ (∃ nowNs, s'.passes c = some ⟨nowNs, 0, .entered⟩) ∨
      ∃ s₁ pass, Linked s₁ ∧ Timed s₁ ∧ (s₁.queues c).queue.hasHardware = false ∧
      s.passes c = some pass ∧ s' = s₁.turn c pass.nowNs pass.ran := by
  cases hstep with
  | cancel a q _ _ =>
    unfold Machine.cancelLocked at hne
    split at hne <;> exact absurd rfl hne
  | add a advanceNs _ _ =>
    unfold Machine.added at hne
    simp only at hne
    split at hne
    · exact absurd rfl hne
    · split at hne <;> exact absurd rfl hne
  | interrupt c' hhas hnone =>
    by_cases hc : c = c'
    · subst hc
      rw [hhardware] at hhas
      cases hhas
    · exact absurd (update_of_ne hc ..) hne
  | expire c' nowNs _ hnone =>
    by_cases hc : c = c'
    · subst hc
      exact .inl ⟨hnone, nowNs, update_self ..⟩
    · exact absurd (update_of_ne hc ..) hne
  | @enter c' nowNs n hpass =>
    by_cases hc : c = c'
    · subst hc
      refine .inr ⟨s.setQueue c { s.queues c with expiring := true }, ⟨nowNs, n, .entered⟩,
        hlinked.setQueue rfl, htimed.setQueue rfl, ?_, hpass, rfl⟩
      show (update s.queues c _ c).queue.hasHardware = false
      rw [update_self]
      exact hhardware
    · exact absurd (turn_passes_of_ne _ _ _ hc) hne
  | @restart c' advanceNs pass t hpass hplace hnone =>
    by_cases hc : c = c'
    · subst hc
      have hkept : ((s.link c t (s.timers t) advanceNs).queues c).queue.hasHardware = false := by
        show (update s.queues c _ c).queue.hasHardware = false
        rw [update_self]
        exact hhardware
      obtain ⟨s₁, h₁, h₂, h₃, heq⟩ :=
        returned_turn (hlinked.link hnone) (htimed.link hlinked hnone horderly) hkept hplace
      exact .inr ⟨s₁, pass, h₁, h₂, h₃, hpass, heq⟩
    · exact absurd (turn_passes_of_ne _ _ _ hc) hne
  | @done c' pass t hpass hplace =>
    by_cases hc : c = c'
    · subst hc
      obtain ⟨s₁, h₁, h₂, h₃, heq⟩ := returned_turn hlinked htimed hhardware hplace
      exact .inr ⟨s₁, pass, h₁, h₂, h₃, hpass, heq⟩
    · exact absurd (turn_passes_of_ne _ _ _ hc) hne
  | _ => exact absurd rfl hne

end

theorem orderly_step {s s' : Machine} {e : Event} (h : orderly.Reachable s) (hstep : Step s e s')
    (horderly : Orderly s e) : orderly.Reachable s' := h.step ⟨e, horderly, hstep⟩

theorem orderly_linked {s : Machine} (h : orderly.Reachable s) : Linked s ∧ Timed s := by
  refine h.invariant (I := fun s => Linked s ∧ Timed s) (fun s hboot => ?_)
    fun s s' hinv hstep => ?_
  · replace hboot : Boot s := hboot
    refine ⟨hboot.linked, ⟨fun c _ e he => ?_⟩⟩
    obtain ⟨hardware, hq⟩ := hboot.queues c
    rw [hq] at he
    exact absurd he List.not_mem_nil
  · obtain ⟨e, horderly, hstep⟩ := hstep
    exact ⟨hinv.1.step hstep, hinv.2.step hinv.1 horderly hstep⟩

theorem deadline_slack_le (t : Timer) : t.endNs ≤ t.deadlineNs + t.slackNs := by
  unfold Timer.endNs
  split <;> omega

/-- **Every queue without hardware keeps its promises**, in every run of orderly steps. -/
theorem orderly_punctual (s : Machine) (h : orderly.Reachable s) (c : Nat)
    (hhardware : (s.queues c).queue.hasHardware = false) : Punctual s c := by
  obtain ⟨hlinked, htimed⟩ := orderly_linked h
  constructor
  · exact (hlinked.queues c).first
  · exact waiting_order hlinked htimed hhardware
  · intro e s' nowNs n t horderly hstep hpass hne
    rcases step_passes hlinked htimed hhardware horderly hstep hne with
      ⟨-, now, hbegins⟩ | ⟨s₁, pass, hlinked₁, htimed₁, hhardware₁, -, rfl⟩
    · rw [hbegins] at hpass
      cases hpass
    · obtain ⟨u, heq, hdue⟩ := turn_runs hlinked₁ htimed₁ hhardware₁ hpass
      cases heq
      exact hdue
  · intro e s' pass horderly hstep hpass hnone hran e' he'
    have hne : s'.passes c ≠ s.passes c := by
      rw [hpass, hnone]
      nofun
    rcases step_passes hlinked htimed hhardware horderly hstep hne with
      ⟨hidle, -⟩ | ⟨s₁, pass', hlinked₁, htimed₁, hhardware₁, hpass', rfl⟩
    · rw [hpass] at hidle
      cases hidle
    · obtain rfl : pass = pass' := Option.some.inj (hpass.symm.trans hpass')
      have hend := turn_leaves hlinked₁ htimed₁ hhardware₁ hnone hran e' he'
      have hle := deadline_slack_le ((s₁.turn c pass.nowNs pass.ran).timers e'.timer)
      omega

/-- Queues without hardware. -/
def bench : Machine where
  clockNs := 0
  timers _ := ⟨0, 0, .normal, none, none⟩
  queues _ := { queue := { hasHardware := false } }
  calls _ := none
  passes _ := none
  reprograms _ := 0

theorem bench_boot : Boot bench :=
  ⟨by decide, fun _ => rfl, fun _ => ⟨false, rfl⟩, fun _ => rfl, fun _ => rfl⟩

/-- A timer with slack waits while `expire(10)` is under way. -/
theorem orderly_punctual_bench : ∃ s, orderly.Reachable s ∧ s.passes 0 = some ⟨10, 0, .entered⟩ ∧
    (s.timers 1).queue = some 0 ∧ Punctual s 0 := by
  have h : orderly.Reachable bench := .init bench_boot
  have h := orderly_step h (.begin 0 0 1 (.add 0 5 20) rfl ⟨by decide, by decide⟩) trivial
  have h := orderly_step h (.load 0 rfl rfl) trivial
  have h := orderly_step h (.add 0 0 rfl rfl) (by decide : 25 < 2 ^ 64)
  have h := orderly_step h (.expire 0 10 rfl rfl) trivial
  exact ⟨_, h, rfl, rfl, orderly_punctual _ h 0 rfl⟩

/-- **A slack that ends past 2^64 hides what is due**: `expire(10)` runs nothing, and leaves a timer
for time 5. -/
theorem overdue :
    ∃ s s' e, system.Reachable s ∧ s.passes 0 = some ⟨10, 0, .entered⟩ ∧ Step s .quiet s' ∧
    s'.passes 0 = none ∧ e ∈ (s'.queues 0).queue.waiting ∧
    (s'.timers e.timer).deadlineNs + (s'.timers e.timer).slackNs ≤ 10 := by
  have h : system.Reachable bench := .init bench_boot
  have h := h.step ⟨_, .begin 0 0 1 (.add 0 (2 ^ 64 - 1) 1) rfl ⟨by decide, by decide⟩⟩
  have h := h.step ⟨_, Step.load 0 rfl rfl⟩
  have h := h.step ⟨_, Step.add 0 0 rfl rfl⟩
  have h := h.step ⟨_, .begin 0 0 2 (.add 0 5 0) rfl ⟨by decide, by decide⟩⟩
  have h := h.step ⟨_, Step.load 0 rfl rfl⟩
  have h := h.step ⟨_, Step.add 0 0 rfl rfl⟩
  have h := h.step ⟨_, Step.expire 0 10 rfl rfl⟩
  exact ⟨_, _, ⟨2, 5, 5⟩, h, rfl, Step.enter 0 rfl, rfl, by decide, by decide⟩

end Sections
end Erebus.Timers
