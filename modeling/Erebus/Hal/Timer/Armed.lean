import Erebus.Hal.Timer.Sections

/-!
# The hardware goes off in time

The hardware is only touched when a timer becomes the first of its queue. Cancels leave it armed for
what is gone, a timer that comes from another CPU is left to an interrupt, and what comes during a
pass to the end of the pass.

* `InTime`: the hardware goes off when the first timer wants to, or has done so already.
* `Minded`: the CPU is about to look at its queue anyway.
* `QueueOk`: one or the other, for every queue with hardware; every step keeps it.
* `hardware_in_time`: in every reachable state.
* `armed_late`: a timer that is started in the past finds the hardware armed for the present, which
  is later.
-/

namespace Erebus.Timers.Sections

open Function (update update_self update_of_ne)

/-- The hardware is armed, for the moment the timer goes off or for one that has come. -/
def InTime (clockNs : Nat) (q : CpuQueue) (e : Entry) : Prop :=
  q.armedNs < notArmed ∧ q.armedNs ≤ max e.fireNs clockNs

/-- The CPU of a queue is in its timer interrupt, a reprogram interrupt is on its way to it, or is
owed to it. -/
def Machine.Minded (s : Machine) (c : Nat) : Prop :=
  s.passes c ≠ none ∨ 0 < s.reprograms c ∨
    ∃ a cpu t deadlineNs slackNs, s.calls a = some ⟨cpu, .add c deadlineNs slackNs, t, .kick⟩

/-- Times are 64-bit numbers. -/
structure Sane (q : CpuQueue) : Prop where
  fires : ∀ e ∈ q.queue.waiting, e.fireNs ≤ notArmed
  armedNs : q.armedNs ≤ notArmed

structure QueueOk (s : Machine) (c : Nat) : Prop where
  sane : Sane (s.queues c)
  expiring : (s.queues c).expiring = true → s.passes c ≠ none
  armed : (s.queues c).queue.hasHardware = true → ∀ e, (s.queues c).queue.first = some e →
    e.fireNs = notArmed ∨ InTime s.clockNs (s.queues c) e ∨ s.Minded c

section

variable {q : TimerQueue} {e e' : Entry} {t advanceNs : Nat} {timer : Timer}

theorem fireNs_entry_le (q : TimerQueue) (t : Nat) (timer : Timer) (advanceNs : Nat) :
    (q.entry t timer advanceNs).fireNs ≤ notArmed := by
  have hlt : (q.entry t timer advanceNs).fireNs < 2 ^ 64 := Nat.mod_lt _ (by decide)
  unfold notArmed
  omega

/-- Once a timer is gone, the first one is not earlier than before. -/
theorem first_unlinkLocked (h : q.Inv) (hmem : ∃ e ∈ q.waiting, e.timer = t)
    (hfirst : (q.unlinkLocked t).first = some e') :
    ∃ e, q.first = some e ∧ e.fireNs ≤ e'.fireNs := by
  have he' := (TimerQueue.mem_unlinkLocked h hmem).1 ((h.unlinkLocked hmem).first_mem hfirst)
  cases hold : q.first with
  | none =>
    rw [h.first, List.head?_eq_none_iff] at hold
    rw [hold] at he'
    cases he'.1
  | some e => exact ⟨e, rfl, h.first_le hold he'.1⟩

/-- The timer that comes is the first one, or the first one stays. -/
theorem first_linkLocked (hfirst : (q.linkLocked t timer advanceNs).first = some e') :
    e' = q.entry t timer advanceNs ∨ q.first = some e' := by
  unfold TimerQueue.linkLocked at hfirst
  simp only at hfirst
  split at hfirst
  · exact .inl (Option.some.inj hfirst).symm
  · exact .inr hfirst

end

section

variable {q : CpuQueue} {clockNs clockNs' : Nat} {e e' : Entry}

theorem reprogramLocked_armedNs_le (hclock : clockNs < notArmed) (harmed : q.armedNs ≤ notArmed) :
    (q.reprogramLocked clockNs).armedNs ≤ notArmed := by
  unfold CpuQueue.reprogramLocked
  split
  · exact harmed
  · split
    · exact harmed
    · split
      · exact harmed
      · simp only
        omega

theorem reprogramLocked_expiring (q : CpuQueue) (clockNs : Nat) :
    (q.reprogramLocked clockNs).expiring = q.expiring := by
  unfold CpuQueue.reprogramLocked
  split
  · rfl
  · split
    · rfl
    · split <;> rfl

theorem InTime.mono (h : InTime clockNs q e) (hclock : clockNs ≤ clockNs')
    (hfire : e.fireNs ≤ e'.fireNs) : InTime clockNs' q e' :=
  ⟨h.1, h.2.trans (max_le_max hfire hclock)⟩

theorem Sane.unlinkLocked (h : Sane q) (hinv : q.queue.Inv) {t : Nat}
    (hmem : ∃ e ∈ q.queue.waiting, e.timer = t) :
    Sane { q with queue := q.queue.unlinkLocked t } := by
  refine ⟨fun e he => ?_, h.armedNs⟩
  exact h.fires e ((TimerQueue.mem_unlinkLocked hinv hmem).1 he).1

theorem Sane.linkLocked (h : Sane q) (hinv : q.queue.Inv) (t : Nat) (timer : Timer)
    (advanceNs : Nat) : Sane { q with queue := q.queue.linkLocked t timer advanceNs } := by
  refine ⟨fun e he => ?_, h.armedNs⟩
  rcases (TimerQueue.mem_linkLocked hinv).1 he with rfl | he
  · exact fireNs_entry_le ..
  · exact h.fires e he

theorem Sane.reprogramLocked (h : Sane q) (hclock : clockNs < notArmed) :
    Sane (q.reprogramLocked clockNs) := by
  refine ⟨fun e he => ?_, reprogramLocked_armedNs_le hclock h.armedNs⟩
  rw [reprogramLocked_queue] at he
  exact h.fires e he

/-- **`reprogram_locked`** arms the hardware for the first timer, unless it goes off in time
anyway. -/
theorem Sane.inTime (h : Sane q) (hclock : clockNs < notArmed) (hinv : q.queue.Inv)
    (hhardware : q.queue.hasHardware = true) (hexpiring : q.expiring = false)
    (hfirst : q.queue.first = some e) :
    e.fireNs = notArmed ∨ InTime clockNs (q.reprogramLocked clockNs) e := by
  have hfire := h.fires e (hinv.first_mem hfirst)
  have harmed := h.armedNs
  have hgo : ¬ (q.queue.hasHardware = false ∨ q.expiring = true) := by simp [hhardware, hexpiring]
  unfold CpuQueue.reprogramLocked
  rw [if_neg hgo, hfirst]
  simp only
  split
  · rename_i hearly
    by_cases hnever : e.fireNs = notArmed
    · exact .inl hnever
    · exact .inr ⟨by omega, hearly.trans (le_max_left _ _)⟩
  · right
    constructor
    · show clockNs + min (e.fireNs - clockNs) q.hardwareLimitNs < notArmed
      omega
    · show clockNs + min (e.fireNs - clockNs) q.hardwareLimitNs ≤ max e.fireNs clockNs
      omega

end

/-! ## Steps -/

/-- All that is needed to go on. -/
structure Ok (s : Machine) : Prop where
  linked : Linked s
  clockNs : s.clockNs < notArmed
  queues : ∀ c, QueueOk s c

section Steps

variable {s s' : Machine} {a c c' t : Nat}

/-- A queue that a step leaves alone. -/
theorem QueueOk.frame (h : QueueOk s c) (hq : s'.queues c = s.queues c)
    (hpass : s.passes c ≠ none → s'.passes c ≠ none)
    (hminded : s.Minded c → s'.Minded c) (hclock : s.clockNs ≤ s'.clockNs) : QueueOk s' c := by
  constructor
  · rw [hq]
    exact h.sane
  · rw [hq]
    exact fun hexpiring => hpass (h.expiring hexpiring)
  · rw [hq]
    intro hhardware e hfirst
    rcases h.armed hhardware e hfirst with hnever | hintime | hm
    · exact .inl hnever
    · exact .inr (.inl (hintime.mono hclock le_rfl))
    · exact .inr (.inr (hminded hm))

/-- A call goes on that owes nobody an interrupt. -/
theorem minded_setCall {next : Option Call}
    (hcall : ∀ call, s.calls a = some call → call.phase ≠ .kick)
    (h : s.Minded c) : (s.setCall a next).Minded c := by
  rcases h with hpass | hsent | ⟨b, cpu, t, deadlineNs, slackNs, hb⟩
  · exact .inl hpass
  · exact .inr (.inl hsent)
  · refine .inr (.inr ⟨b, cpu, t, deadlineNs, slackNs, ?_⟩)
    show update s.calls a next b = _
    rw [update_of_ne]
    · exact hb
    · rintro rfl
      exact hcall _ hb rfl

theorem QueueOk.setCall {next : Option Call} (h : QueueOk s c)
    (hcall : ∀ call, s.calls a = some call → call.phase ≠ .kick) : QueueOk (s.setCall a next) c :=
  h.frame rfl id (minded_setCall hcall) le_rfl

/-- A timer leaves: the first one is not earlier than before. -/
theorem QueueOk.unlink (h : ∀ c, QueueOk s c) (hlinked : Linked s)
    (hqueue : (s.timers t).queue = some c) (c' : Nat) : QueueOk (s.unlink c t) c' := by
  by_cases hc : c' = c
  · subst hc
    have hmem := (hlinked.linked t c').2 hqueue
    have hself : (s.unlink c' t).queues c' =
        { s.queues c' with queue := (s.queues c').queue.unlinkLocked t } :=
      update_self ..
    constructor
    · rw [hself]
      exact (h c').sane.unlinkLocked (hlinked.queues c') hmem
    · rw [hself]
      exact (h c').expiring
    · rw [hself]
      intro hhardware e' hfirst
      obtain ⟨e, he, hle⟩ := first_unlinkLocked (hlinked.queues c') hmem hfirst
      have hlater := (h c').sane.fires e' ((TimerQueue.mem_unlinkLocked (hlinked.queues c') hmem).1
        (((hlinked.queues c').unlinkLocked hmem).first_mem hfirst)).1
      rcases (h c').armed hhardware e he with hnever | hintime | hm
      · exact .inl (by omega)
      · exact .inr (.inl (InTime.mono ⟨hintime.1, hintime.2⟩ le_rfl hle))
      · exact .inr (.inr hm)
  · exact (h c').frame (update_of_ne hc ..) id id le_rfl

/-- The CPU is in a pass, which looks after its queue at the end. -/
theorem QueueOk.in_pass (hsane : Sane (s.queues c)) (hpass : s.passes c ≠ none) : QueueOk s c :=
  ⟨hsane, fun _ => hpass, fun _ _ _ => .inr (.inr (.inl hpass))⟩

/-- `reprogram_locked`, which leaves it to a pass if there is one. -/
theorem QueueOk.reprogram (hclock : s.clockNs < notArmed) (hinv : (s.queues c).queue.Inv)
    (hsane : Sane (s.queues c)) (hexpiring : (s.queues c).expiring = true → s.passes c ≠ none)
    (hself : s'.queues c = (s.queues c).reprogramLocked s.clockNs)
    (hpass : s'.passes c = s.passes c) (hsame : s'.clockNs = s.clockNs) : QueueOk s' c := by
  constructor
  · rw [hself]
    exact hsane.reprogramLocked hclock
  · rw [hself, reprogramLocked_expiring, hpass]
    exact hexpiring
  · rw [hself, reprogramLocked_queue, hsame]
    intro hhardware e hfirst
    cases hon : (s.queues c).expiring with
    | true => exact .inr (.inr (.inl (hpass ▸ hexpiring hon)))
    | false => exact (hsane.inTime hclock hinv hhardware hon hfirst).imp_right .inl

/-- Only one queue is reprogrammed. -/
theorem QueueOk.setQueue_of_ne (h : QueueOk s c') {q : CpuQueue} (hc : c' ≠ c) :
    QueueOk (s.setQueue c q) c' :=
  h.frame (update_of_ne hc ..) id id le_rfl

/-- The queue a timer comes to still has to be looked after, unless the timer is not its first
one. -/
theorem QueueOk.link (h : ∀ c, QueueOk s c) (hlinked : Linked s) (timer : Timer) (advanceNs : Nat)
    (hnot : c' = c → ((s.queues c).queue.linkLocked t timer advanceNs).first.any
    (fun e => e.timer == t) = false) : QueueOk (s.link c t timer advanceNs) c' := by
  by_cases hc : c' = c
  · subst hc
    have hself : (s.link c' t timer advanceNs).queues c' =
        { s.queues c' with queue := (s.queues c').queue.linkLocked t timer advanceNs } :=
      update_self ..
    constructor
    · rw [hself]
      exact (h c').sane.linkLocked (hlinked.queues c') ..
    · rw [hself]
      exact (h c').expiring
    · rw [hself]
      intro hhardware e hfirst
      replace hfirst : ((s.queues c').queue.linkLocked t timer advanceNs).first = some e := hfirst
      have hother := hnot rfl
      rw [hfirst, Option.any_some] at hother
      rcases first_linkLocked hfirst with rfl | hold
      · exact absurd hother (by simp [TimerQueue.entry])
      · exact (h c').armed hhardware e hold
  · exact (h c').frame (update_of_ne hc ..) id id le_rfl

/-- **`add`**: the hardware is armed here, an interrupt is owed, or nothing has changed for it. -/
theorem Ok.add (h : Ok s) {advanceNs cpu q deadlineNs slackNs : Nat} {timer : Timer}
    (hcall : s.calls a = some ⟨cpu, .add q deadlineNs slackNs, t, .claim⟩)
    (hnone : (s.timers t).queue = none) (c : Nat) :
    QueueOk
      ((s.link q t timer advanceNs).added a ⟨cpu, .add q deadlineNs slackNs, t, .claim⟩ q) c := by
  have hlinked : Linked (s.link q t timer advanceNs) := h.linked.link hnone
  have hphase : ∀ call, (s.link q t timer advanceNs).calls a = some call → call.phase ≠ .kick := by
    intro call heq
    obtain rfl := Option.some.inj (hcall.symm.trans heq)
    nofun
  have hself : (s.link q t timer advanceNs).queues q =
      { s.queues q with queue := (s.queues q).queue.linkLocked t timer advanceNs } := update_self ..
  have hsane : Sane ((s.link q t timer advanceNs).queues q) := by
    rw [hself]
    exact (h.queues q).sane.linkLocked (h.linked.queues q) ..
  have hexpiring : ((s.link q t timer advanceNs).queues q).expiring = true →
      (s.link q t timer advanceNs).passes q ≠ none := by
    rw [hself]
    exact (h.queues q).expiring
  have hother : c ≠ q → QueueOk (s.link q t timer advanceNs) c := fun hc =>
    QueueOk.link h.queues h.linked timer advanceNs fun heq => absurd heq hc
  unfold Machine.added
  simp only
  split
  · -- on its own CPU
    refine QueueOk.setCall ?_ hphase
    by_cases hc : c = q
    · subst hc
      exact QueueOk.reprogram (s := s.link c t timer advanceNs) h.clockNs (hlinked.queues c)
        hsane hexpiring (update_self ..) rfl rfl
    · exact (hother hc).setQueue_of_ne hc
  · split
    · -- from another CPU, as the first one
      by_cases hc : c = q
      · subst hc
        refine ⟨hsane, hexpiring, fun _ _ _ =>
          .inr (.inr (.inr (.inr ⟨a, cpu, t, deadlineNs, slackNs, ?_⟩)))⟩
        exact update_self ..
      · exact (hother hc).setCall hphase
    · rename_i hnot
      refine QueueOk.setCall (QueueOk.link h.queues h.linked timer advanceNs fun _ => ?_) hphase
      rw [hself] at hnot
      exact Bool.eq_false_iff.2 hnot

/-- A pass of another CPU. -/
theorem QueueOk.of_pass_ne (h : QueueOk s c') (hq : s'.queues c' = s.queues c')
    (hpass : s'.passes c' = s.passes c')
    (hcalls : s'.calls = s.calls) (hsent : s'.reprograms = s.reprograms)
    (hclock : s'.clockNs = s.clockNs) : QueueOk s' c' := by
  refine h.frame hq (fun hp => hpass ▸ hp) ?_ hclock.ge
  rintro (hp | hs | hkick)
  · exact .inl (hpass ▸ hp)
  · exact .inr (.inl (hsent ▸ hs))
  · exact .inr (.inr (hcalls ▸ hkick))

/-- The end of a pass: the hardware is armed for what is first now. -/
theorem QueueOk.leave (h : c' ≠ c → QueueOk s c') (hclock : s.clockNs < notArmed)
    (hinv : (s.queues c).queue.Inv) (hsane : Sane (s.queues c)) : QueueOk (s.leave c) c' := by
  by_cases hc : c' = c
  · subst hc
    have hself : (s.leave c').queues c' =
        CpuQueue.reprogramLocked { s.queues c' with expiring := false } s.clockNs := by
      simp only [Machine.leave, Machine.reprogram, Machine.setQueue, Machine.setPass, update_self]
    have hsane' : Sane { s.queues c' with expiring := false } := ⟨hsane.fires, hsane.armedNs⟩
    constructor
    · rw [hself]
      exact hsane'.reprogramLocked hclock
    · rw [hself, reprogramLocked_expiring]
      nofun
    · rw [hself, reprogramLocked_queue]
      intro hhardware e hfirst
      exact (hsane'.inTime hclock hinv hhardware rfl hfirst).imp_right .inl
  · refine (h hc).of_pass_ne ?_ (update_of_ne hc ..) rfl rfl rfl
    show update (update s.queues c _) c _ c' = s.queues c'
    rw [update_of_ne hc, update_of_ne hc]

theorem setPass_ne_none (s : Machine) (c : Nat) (pass : Pass) :
    (s.setPass c (some pass)).passes c ≠ none := by
  show update s.passes c (some pass) c ≠ none
  rw [update_self]
  nofun

variable (h : c' ≠ c → QueueOk s c') (hclock : s.clockNs < notArmed) (hlinked : Linked s)
  (hsane : Sane (s.queues c))
include h hclock hlinked hsane

/-- One turn of a pass; whatever the queue of the pass was like, it is looked after. -/
theorem QueueOk.turn (nowNs expired : Nat) : QueueOk (s.turn c nowNs expired) c' := by
  unfold Machine.turn
  split
  · exact QueueOk.leave h hclock (hlinked.queues c) hsane
  · rename_i e hfirst
    split
    · by_cases hc : c' = c
      · subst hc
        have hmem : ∃ e' ∈ (s.queues c').queue.waiting, e'.timer = e.timer :=
          ⟨e, (hlinked.queues c').first_mem hfirst, rfl⟩
        refine QueueOk.in_pass ?_ (setPass_ne_none _ _ _)
        show Sane (update s.queues c' _ c')
        rw [update_self]
        exact hsane.unlinkLocked (hlinked.queues c') hmem
      · exact (h hc).of_pass_ne (update_of_ne hc ..) (update_of_ne hc ..) rfl rfl rfl
    · exact QueueOk.leave h hclock (hlinked.queues c) hsane

theorem QueueOk.returned (t : Nat) (pass : Pass) : QueueOk (s.returned c t pass) c' := by
  refine QueueOk.turn
    (s := { s with timers := update s.timers t { s.timers t with runningOn := none } })
    (fun hc => ?_) hclock (hlinked.setTimer t _ rfl) hsane _ _
  exact (h hc).of_pass_ne rfl rfl rfl rfl rfl

omit h hclock hlinked hsane

theorem turn_clockNs (s : Machine) (c nowNs expired : Nat) :
    (s.turn c nowNs expired).clockNs = s.clockNs := by
  unfold Machine.turn
  split
  · rfl
  · split <;> rfl

/-- The clock only moves when it ticks. -/
theorem step_clockNs (h : s.clockNs < notArmed) {e : Event} (hstep : Step s e s') :
    s'.clockNs < notArmed := by
  cases hstep with
  | tick nowNs _ hlt => exact hlt
  | cancel a q _ _ =>
    unfold Machine.cancelLocked
    split <;> exact h
  | add a advanceNs _ _ =>
    unfold Machine.added
    simp only
    split
    · exact h
    · split <;> exact h
  | enter c _ =>
    rw [turn_clockNs]
    exact h
  | restart c advanceNs _ _ _ =>
    rw [Machine.returned, turn_clockNs]
    exact h
  | done c _ _ =>
    rw [Machine.returned, turn_clockNs]
    exact h
  | _ => exact h

/-- The interrupt that was owed is on its way. -/
theorem minded_kick {cpu t q deadlineNs slackNs : Nat}
    (hcall : s.calls a = some ⟨cpu, .add q deadlineNs slackNs, t, .kick⟩) (h : s.Minded c) :
    { s.setCall a none with
      reprograms := update s.reprograms q (s.reprograms q + 1) }.Minded c := by
  by_cases hc : c = q
  · subst hc
    refine .inr (.inl ?_)
    show 0 < update s.reprograms c _ c
    rw [update_self]
    exact Nat.succ_pos _
  · rcases h with hpass | hsent | ⟨b, cpu', t', deadlineNs', slackNs', hb⟩
    · exact .inl hpass
    · refine .inr (.inl ?_)
      show 0 < update s.reprograms q _ c
      rw [update_of_ne hc]
      exact hsent
    · refine .inr (.inr ⟨b, cpu', t', deadlineNs', slackNs', ?_⟩)
      show update s.calls a none b = _
      rw [update_of_ne]
      · exact hb
      · rintro rfl
        rw [hcall] at hb
        cases hb
        exact hc rfl

/-- The reprogram interrupt has arrived. -/
theorem QueueOk.kicked (h : QueueOk s c') (hc : c' ≠ c) (q : CpuQueue) (n : Nat) :
    QueueOk { s.setQueue c q with reprograms := update s.reprograms c n } c' := by
  refine h.frame (update_of_ne hc ..) id ?_ le_rfl
  rintro (hp | hs | hkick)
  · exact .inl hp
  · refine .inr (.inl ?_)
    show 0 < update s.reprograms c n c'
    rw [update_of_ne hc]
    exact hs
  · exact .inr (.inr hkick)

/-- **Every step leaves every queue looked after.** -/
theorem Ok.step (h : Ok s) {e : Event} (hstep : Step s e s') : Ok s' := by
  refine ⟨h.linked.step hstep, step_clockNs h.clockNs hstep, fun c' => ?_⟩
  -- a call that is not about to send an interrupt
  have hquiet : ∀ {a call}, s.calls a = some call → call.phase ≠ .kick →
      ∀ call', s.calls a = some call' → call'.phase ≠ .kick := by
    intro a call hcall hphase call' hcall'
    obtain rfl := Option.some.inj (hcall.symm.trans hcall')
    exact hphase
  cases hstep with
  | tick nowNs hle _ => exact (h.queues c').frame rfl id id hle
  | begin a cpu t goal hnone _ =>
    refine (h.queues c').setCall fun call heq => ?_
    rw [hnone] at heq
    cases heq
  | load a hcall hphase => exact (h.queues c').setCall (hquiet hcall (by rw [hphase]; nofun))
  | cancel a q hcall hphase =>
    unfold Machine.cancelLocked
    split
    · rename_i hqueue
      exact (QueueOk.unlink h.queues h.linked hqueue c').setCall
        (hquiet hcall (by rw [hphase]; nofun))
    · exact (h.queues c').setCall (hquiet hcall (by rw [hphase]; nofun))
  | add a advanceNs hcall hnone => exact h.add hcall hnone c'
  | addLost a hcall hphase _ => exact (h.queues c').setCall (hquiet hcall (by rw [hphase]; nofun))
  | kick a hcall => exact (h.queues c').frame rfl id (minded_kick hcall) le_rfl
  | reprogram c _ =>
    by_cases hc : c' = c
    · subst hc
      exact QueueOk.reprogram h.clockNs (h.linked.queues c') (h.queues c').sane
        (h.queues c').expiring (update_self ..) rfl rfl
    · exact (h.queues c').kicked hc _ _
  | interrupt c _ _ =>
    by_cases hc : c' = c
    · subst hc
      refine QueueOk.in_pass ?_ (setPass_ne_none _ _ _)
      show Sane (update s.queues c' _ c')
      rw [update_self]
      exact ⟨(h.queues c').sane.fires, le_rfl⟩
    · exact (h.queues c').of_pass_ne (update_of_ne hc ..) (update_of_ne hc ..) rfl rfl rfl
  | expire c nowNs _ _ =>
    by_cases hc : c' = c
    · subst hc
      exact QueueOk.in_pass (h.queues c').sane (setPass_ne_none _ _ _)
    · exact (h.queues c').of_pass_ne rfl (update_of_ne hc ..) rfl rfl rfl
  | enter c _ =>
    refine QueueOk.turn (fun hc => (h.queues c').setQueue_of_ne hc) h.clockNs ?_ ?_ _ _
    · exact h.linked.setQueue rfl
    · show Sane (update s.queues c _ c)
      rw [update_self]
      exact ⟨(h.queues c).sane.fires, (h.queues c).sane.armedNs⟩
  | forward c t periodNs nowNs _ _ => exact (h.queues c').frame rfl id id le_rfl
  | restart c advanceNs _ _ hnone =>
    refine QueueOk.returned (s := s.link c _ _ advanceNs) (fun hc => ?_) h.clockNs
      (h.linked.link hnone) ?_ _ _
    · exact QueueOk.link h.queues h.linked _ _ fun heq => absurd heq hc
    · show Sane (update s.queues c _ c)
      rw [update_self]
      exact (h.queues c).sane.linkLocked (h.linked.queues c) ..
  | done c _ _ =>
    exact QueueOk.returned (fun _ => h.queues c') h.clockNs h.linked (h.queues c).sane _ _
  | limit c limitNs =>
    by_cases hc : c' = c
    · subst hc
      have hself : (s.setQueue c' { s.queues c' with hardwareLimitNs := limitNs }).queues c' =
          { s.queues c' with hardwareLimitNs := limitNs } := update_self ..
      constructor
      · rw [hself]
        exact ⟨(h.queues c').sane.fires, (h.queues c').sane.armedNs⟩
      · rw [hself]
        exact (h.queues c').expiring
      · rw [hself]
        exact (h.queues c').armed
    · exact (h.queues c').setQueue_of_ne hc

theorem Boot.ok (h : Boot s) : Ok s := by
  refine ⟨h.linked, h.clockNs, fun c => ?_⟩
  obtain ⟨hardware, hq⟩ := h.queues c
  constructor
  · rw [hq]
    exact ⟨fun e he => absurd he List.not_mem_nil, le_rfl⟩
  · rw [hq]
    nofun
  · rw [hq]
    nofun

theorem reachable_ok (h : system.Reachable s) : Ok s := by
  refine h.invariant (I := Ok) (fun _ hboot => Boot.ok hboot) fun s s' hok hstep => ?_
  obtain ⟨e, he⟩ := hstep
  exact hok.step he

end Steps

/-- What can be relied on between two lock sections. -/
structure Sound (s : Machine) : Prop where
  /-- A timer is in the tree of the queue it says it waits on. -/
  linked : ∀ t q, (∃ e ∈ (s.queues q).queue.waiting, e.timer = t) ↔ (s.timers t).queue = some q
  /-- No queue with hardware is forgotten, as long as its first timer is to go off at all. -/
  armed : ∀ c e, (s.queues c).queue.hasHardware = true → (s.queues c).queue.first = some e →
    e.fireNs ≠ notArmed → InTime s.clockNs (s.queues c) e ∨ s.Minded c

/-- **Every waiting timer is found in the tree of its queue, and the hardware of the queue goes off
in time for it.** -/
theorem hardware_in_time (s : Machine) (h : system.Reachable s) : Sound s := by
  have hok := reachable_ok h
  refine ⟨hok.linked.linked, fun c e hhardware hfirst hfires => ?_⟩
  exact ((hok.queues c).armed hhardware e hfirst).resolve_left hfires

/-- CPUs with hardware, at time 10. -/
def ten : Machine where
  clockNs := 10
  timers _ := ⟨0, 0, .normal, none, none⟩
  queues _ := { queue := { hasHardware := true } }
  calls _ := none
  passes _ := none
  reprograms _ := 0

theorem ten_reachable : system.Reachable ten :=
  .init ⟨by decide, fun _ => rfl, fun _ => ⟨true, rfl⟩, fun _ => rfl, fun _ => rfl⟩

/-- CPU 1 starts a timer on the queue of CPU 0, and has not sent the interrupt yet. -/
theorem hardware_in_time_ten : ∃ s, system.Reachable s ∧ (s.timers 1).queue = some 0 ∧
    (s.queues 0).armedNs = notArmed ∧ s.calls 0 = some ⟨1, .add 0 50 0, 1, .kick⟩ ∧ Sound s := by
  have h := ten_reachable.step ⟨_, .begin 0 1 1 (.add 0 50 0) rfl ⟨by decide, by decide⟩⟩
  have h := h.step ⟨_, Step.load 0 rfl rfl⟩
  have h := h.step ⟨_, Step.add 0 0 rfl rfl⟩
  exact ⟨_, h, rfl, rfl, rfl, hardware_in_time _ h⟩

/-- The queue once `start_at` has returned on its own CPU. -/
def started (deadlineNs : Nat) : CpuQueue :=
  let queue : TimerQueue := { hasHardware := true }
  CpuQueue.reprogramLocked { queue := queue.linkLocked 1 ⟨deadlineNs, 0, .normal, none, none⟩ 0 } 10

theorem started_reachable (deadlineNs : Nat) (hfits : deadlineNs < 2 ^ 64) :
    ∃ s, system.Reachable s ∧ s.queues 0 = started deadlineNs ∧ ¬ s.Minded 0 := by
  have h := ten_reachable.step ⟨_, .begin 0 0 1 (.add 0 deadlineNs 0) rfl ⟨hfits, by decide⟩⟩
  have h := h.step ⟨_, Step.load 0 rfl rfl⟩
  have h := h.step ⟨_, Step.add 0 0 rfl rfl⟩
  refine ⟨_, h, rfl, ?_⟩
  rintro (hpass | hsent | ⟨b, cpu, t, deadlineNs, slackNs, hb⟩)
  · exact hpass rfl
  · exact absurd hsent (Nat.lt_irrefl 0)
  · by_cases hzero : b = 0
    · subst hzero
      cases hb
    · replace hb : update (update (update ten.calls 0 _) 0 _) 0 none b = some _ := hb
      rw [update_of_ne hzero, update_of_ne hzero, update_of_ne hzero] at hb
      cases hb

/-- **A timer for time 5 finds the hardware armed for time 10**, which is when it was started; and
one for the last moment of all finds it not armed. -/
theorem armed_late :
    (∃ s e, system.Reachable s ∧ (s.queues 0).queue.hasHardware = true ∧
      (s.queues 0).queue.first = some e ∧ ¬ (s.queues 0).armedNs ≤ e.fireNs ∧ ¬ s.Minded 0) ∧
    ∃ s e, system.Reachable s ∧ (s.queues 0).queue.hasHardware = true ∧
    (s.queues 0).queue.first = some e ∧ (s.queues 0).armedNs = notArmed ∧ ¬ s.Minded 0 := by
  constructor
  · obtain ⟨s, h, hqueue, hnot⟩ := started_reachable 5 (by decide)
    refine ⟨s, ⟨1, 5, 5⟩, h, ?_⟩
    rw [hqueue]
    exact ⟨rfl, rfl, by decide, hnot⟩
  · obtain ⟨s, h, hqueue, hnot⟩ := started_reachable (2 ^ 64 - 1) (by decide)
    refine ⟨s, ⟨1, 2 ^ 64 - 1, 2 ^ 64 - 1⟩, h, ?_⟩
    rw [hqueue]
    exact ⟨rfl, rfl, rfl, hnot⟩

end Erebus.Timers.Sections
