import Erebus.Hal.Timer.Order

/-!
# What `cancel_sync` guarantees

Once `cancel_sync` has returned, nothing of the timer should be left: no callback of it runs, and
none starts until somebody starts the timer again.

* `Quiet`: that, in one state.
* `quiet_fails`: it does not hold: `cancel_sync` may look between the two stores of an expiry.
* `Careful`: no step falls into one of the gaps: the two stores of an expiry, the two loads of
  `cancel_sync`, a second callback of a timer while one is running, and a move to another CPU while
  `cancel_sync` compares.
* `careful_quiet`: in runs of careful steps it holds in every state.
-/

namespace Erebus.Timers

open Function (update update_self update_of_ne)

namespace Expiry

/-- The timer that a pass has taken and is not done with. -/
def hand : Expiry → Option Nat
  | taken t | cleared t | marked t | invoke t | callback t _ | relock t _ | requeue t _ | relink
      t | clear t => some t
  | _ => none

/-- The timer whose callback a pass says is running. -/
def marks : Expiry → Option Nat
  | marked t | invoke t | callback t _ | relock t _ | requeue t _ | relink t | clear t => some t
  | _ => none

end Expiry

namespace Machine

variable {s s' : Machine}
variable {c t : Nat}

def hand (s : Machine) (c : Nat) : Option Nat := (s.passes c).bind fun p => p.place.hand

def marks (s : Machine) (c : Nat) : Option Nat := (s.passes c).bind fun p => p.place.marks

/-- The call that somebody is making. -/
def callOf (s : Machine) : Agent → Option Call
  | .caller a => (s.callers a).call
  | .pass c => (s.passes c).bind fun p => p.place.call

/-- A callback of the timer is executing on the CPU. -/
def Executing (s : Machine) (t c : Nat) : Prop := ∃ n call, s.passes c = some ⟨n, .callback t call⟩

/-- Nothing is left of a timer that `cancel_sync` has returned for since its last start. -/
def Quiet (s : Machine) : Prop := ∀ t, s.stopped t = true → ∀ c, ¬ s.Executing t c

/-- A step that does not fall into a gap. -/
def Careful (s : Machine) : Event → Prop
  /- not between the two stores of an expiry -/
  | .call (.looks t) => ∀ c n, s.passes c ≠ some ⟨n, .taken t⟩ ∧ s.passes c ≠ some ⟨n, .cleared t⟩
  /- no other callback of the timer, and not between the two loads of `cancel_sync` -/
  | .take t =>
    (∀ c, s.hand c ≠ some t) ∧ ∀ ag call, s.callOf ag = some call → call.timer = t →
      call.phase ≠ .queue
  /- not between the load and the comparison of `cancel_sync` -/
  | .move a => ∀ call c, (s.callers a).call = some call → call.phase ≠ .compare c
  | _ => True

def carefulSystem : System Machine where
  init := Boot
  step s s' := ∃ e, s.Careful e ∧ Step s e s'

theorem careful_step {e : Event} (h : carefulSystem.Reachable s) (hstep : Step s e s')
    (hcare : s.Careful e) : carefulSystem.Reachable s' :=
  h.step ⟨e, hcare, hstep⟩

/-! ## The invariant -/

structure Sound (s : Machine) : Prop where
  running : ∀ t c, (s.timers t).runningOn = some c ↔ s.marks c = some t
  alone : ∀ c c' t, s.hand c = some t → s.hand c' = some t → c = c'
  /-- `cancel_sync` has seen that no callback runs. -/
  deciding : ∀ ag call, s.callOf ag = some call → call.phase = .queue →
    ∀ c, s.hand c ≠ some call.timer
  /-- A callback on the own CPU is the one that called this. -/
  outside : ∀ a call c, (s.callers a).call = some call → call.phase = .compare c →
    c ≠ (s.callers a).cpu
  inside : ∀ c call, s.callOf (.pass c) = some call → call.phase = .compare c →
    s.hand c = some call.timer
  stopped : ∀ t, s.stopped t = true → (s.timers t).queue = none ∧ ∀ c, s.hand c ≠ some t

theorem Sound.quiet (h : s.Sound) : s.Quiet := by
  rintro t ht c ⟨n, call, hp⟩
  refine (h.stopped t ht).2 c ?_
  rw [hand, hp]
  rfl

theorem hand_of_marks (h : s.marks c = some t) : s.hand c = some t := by
  unfold marks at h
  unfold hand
  cases hp : s.passes c with
  | none =>
    rw [hp] at h
    cases h
  | some p =>
    rw [hp] at h
    obtain ⟨n, place⟩ := p
    cases place <;> first | exact h | cases h

/-- A timer in hand is marked, or the pass is between its two stores. -/
theorem marks_of_hand (h : s.hand c = some t) :
    s.marks c = some t ∨ ∃ n, s.passes c = some ⟨n, .taken t⟩ ∨
    s.passes c = some ⟨n, .cleared t⟩ := by
  unfold hand at h
  unfold marks
  cases hp : s.passes c with
  | none =>
    rw [hp] at h
    cases h
  | some p =>
    rw [hp] at h
    obtain ⟨n, place⟩ := p
    cases place with
    | taken t' =>
      obtain rfl := Option.some.inj h
      exact .inr ⟨n, .inl rfl⟩
    | cleared t' =>
      obtain rfl := Option.some.inj h
      exact .inr ⟨n, .inr rfl⟩
    | _ => exact .inl h

/-- **If nobody is between the two stores, `m_running_on` says whether the timer is in hand.** -/
theorem Sound.hand_none (h : s.Sound)
    (hgap : ∀ c n, s.passes c ≠ some ⟨n, .taken t⟩ ∧ s.passes c ≠ some ⟨n, .cleared t⟩)
    (hnone : (s.timers t).runningOn = none) (c : Nat) : s.hand c ≠ some t := by
  intro hhand
  rcases marks_of_hand hhand with hm | ⟨n, hp | hp⟩
  · rw [(h.running t c).2 hm] at hnone
    cases hnone
  · exact (hgap c n).1 hp
  · exact (hgap c n).2 hp

/-- A caller makes a step. -/
theorem Sound.caller (h : s.Sound) {a cpu : Nat} {next : Option Call}
    (hpasses : s'.passes = s.passes) (hcallers : s'.callers = update s.callers a ⟨cpu, next⟩)
    (hrun : ∀ t, (s'.timers t).runningOn = (s.timers t).runningOn)
    (hdec : ∀ call, next = some call → call.phase = .queue → ∀ c, s.hand c ≠ some call.timer)
    (hout : ∀ call c, next = some call → call.phase = .compare c → c ≠ cpu)
    (hstop : ∀ t, s'.stopped t = true → (s'.timers t).queue = none ∧ ∀ c, s.hand c ≠ some t) :
    s'.Sound := by
  have hhand : ∀ c, s'.hand c = s.hand c := fun c => by rw [hand, hand, hpasses]
  have hmarks : ∀ c, s'.marks c = s.marks c := fun c => by rw [marks, marks, hpasses]
  have hinner : ∀ c, s'.callOf (.pass c) = s.callOf (.pass c) :=
    fun c => by rw [callOf, callOf, hpasses]
  refine ⟨fun t c => ?_, ?_, fun ag call hcall hphase => ?_, fun b call c hcall hphase => ?_,
    fun c call hcall => ?_, ?_⟩
  · rw [hrun, hmarks]
    exact h.running t c
  · simp only [hhand]
    exact h.alone
  · simp only [hhand]
    cases ag with
    | caller b =>
      by_cases hb : b = a
      · subst hb
        rw [callOf, hcallers, update_self] at hcall
        exact hdec call hcall hphase
      · rw [callOf, hcallers, update_of_ne hb] at hcall
        exact h.deciding (.caller b) call hcall hphase
    | pass c =>
      rw [hinner] at hcall
      exact h.deciding (.pass c) call hcall hphase
  · rw [hcallers] at hcall ⊢
    by_cases hb : b = a
    · subst hb
      rw [update_self] at hcall ⊢
      exact hout call c hcall hphase
    · rw [update_of_ne hb] at hcall ⊢
      exact h.outside b call c hcall hphase
  · rw [hinner] at hcall
    rw [hhand]
    exact h.inside c call hcall
  · simp only [hhand]
    exact hstop

/-- The pass of a CPU makes a step and has the same timer in hand. -/
theorem Sound.pass (h : s.Sound) {p p' : Option Pass} (hp : s.passes c = p)
    (hpasses : s'.passes = update s.passes c p')
    (hcallers : s'.callers = s.callers)
    (hplace : (p'.bind fun p => p.place.hand) = (p.bind fun p => p.place.hand))
    (hmark : (p'.bind fun p => p.place.marks) = (p.bind fun p => p.place.marks))
    (hrun : ∀ t, (s'.timers t).runningOn = (s.timers t).runningOn)
    (hdec : ∀ call, (p'.bind fun p => p.place.call) = some call → call.phase = .queue →
      ∀ c, s.hand c ≠ some call.timer)
    (hin : ∀ call, (p'.bind fun p => p.place.call) = some call → call.phase = .compare c →
      s.hand c = some call.timer)
    (hstop : ∀ t, s'.stopped t = true → (s'.timers t).queue = none ∧ ∀ c, s.hand c ≠ some t) :
    s'.Sound := by
  have hall : ∀ {α : Type} (F : Pass → Option α), p'.bind F = p.bind F →
      ∀ c', (s'.passes c').bind F = (s.passes c').bind F := by
    intro α F heq c'
    rw [hpasses]
    exact update_keeps (Option.bind · F) (by rw [hp, heq]) c'
  have hhand : ∀ c', s'.hand c' = s.hand c' := hall _ hplace
  have hmarks : ∀ c', s'.marks c' = s.marks c' := hall _ hmark
  have hself : s'.callOf (.pass c) = p'.bind fun p => p.place.call := by
    rw [callOf, hpasses, update_self]
  have hother : ∀ c', c' ≠ c → s'.callOf (.pass c') = s.callOf (.pass c') := fun c' hc => by
    rw [callOf, callOf, hpasses, update_of_ne hc]
  refine ⟨fun t c' => ?_, ?_, fun ag call hcall hphase => ?_, ?_,
    fun c' call hcall hphase => ?_, ?_⟩
  · rw [hrun, hmarks]
    exact h.running t c'
  · simp only [hhand]
    exact h.alone
  · simp only [hhand]
    cases ag with
    | caller b =>
      rw [callOf, hcallers] at hcall
      exact h.deciding (.caller b) call hcall hphase
    | pass c' =>
      by_cases hc : c' = c
      · rw [hc, hself] at hcall
        exact hdec call hcall hphase
      · rw [hother c' hc] at hcall
        exact h.deciding (.pass c') call hcall hphase
  · rw [hcallers]
    exact h.outside
  · rw [hhand]
    by_cases hc : c' = c
    · subst hc
      rw [hself] at hcall
      exact hin call hcall hphase
    · rw [hother c' hc] at hcall
      exact h.inside c' call hcall hphase
  · simp only [hhand]
    exact hstop

/-! ## Calls -/

section

variable {me : Agent} {cpu : Nat} {call : Call} {next : Option Call} {note : Note}

theorem CallStep.runningOn (h : CallStep s me cpu call next note s') (t : Nat) :
    (s'.timers t).runningOn = (s.timers t).runningOn := by
  cases h with
  | store =>
    exact setTimer_field s _ (fun timer => { timer with queue := none }) Timer.runningOn rfl t
  | @claim u q _ _ _ =>
    exact setTimer_field s u (fun timer => { timer with queue := some q }) Timer.runningOn rfl t
  | @link u _ deadlineNs slackNs _ =>
    exact setTimer_field s u
      (fun timer => { timer with deadlineNs := deadlineNs, slackNs := slackNs })
      Timer.runningOn rfl t
  | _ => rfl

/-- A timer that waits nowhere is only claimed by `add`. -/
theorem CallStep.queue_none (h : CallStep s me cpu call next note s') {t : Nat}
    (hnone : (s.timers t).queue = none) : (s'.timers t).queue = none ∨ note = .starts t := by
  cases h with
  | @store goal u q =>
    by_cases hu : t = u
    · subst hu
      exact .inl (storeQueue_self ..)
    · exact .inl ((congrArg Timer.queue (storeQueue_of_ne s _ hu)).trans hnone)
  | @claim u q _ _ _ =>
    by_cases hu : t = u
    · subst hu
      exact .inr rfl
    · exact .inl ((congrArg Timer.queue (storeQueue_of_ne s _ hu)).trans hnone)
  | @link u _ deadlineNs slackNs _ =>
    exact .inl ((setTimer_field s u
      (fun timer => { timer with deadlineNs := deadlineNs, slackNs := slackNs })
      Timer.queue rfl t).trans hnone)
  | _ => exact .inl hnone

theorem cancelled_phase {goal : Goal} {t : Nat} {call' : Call} (h : goal.cancelled t = some call') :
    call'.phase = .running ∨ call'.phase = .claimLock := by
  cases goal with
  | cancel => cases h
  | cancelSync =>
    obtain rfl := Option.some.inj h
    exact .inl rfl
  | add q deadlineNs slackNs =>
    obtain rfl := Option.some.inj h
    exact .inr rfl

/-- `cancel_sync` goes on to its second load if no callback runs, and compares what it has found
otherwise. -/
theorem CallStep.decides (h : CallStep s me cpu call next note s') {call' : Call}
    (hnext : next = some call') :
    (call'.phase = .queue → (s.timers call'.timer).runningOn = none ∧ note = .looks call'.timer) ∧
      ∀ c, call'.phase = .compare c → (s.timers call'.timer).runningOn = some c := by
  cases h with
  | @loadNull goal t _ =>
    rcases cancelled_phase hnext with heq | heq <;> simp [heq]
  | @unlock goal t q =>
    rcases cancelled_phase hnext with heq | heq <;> simp [heq]
  | runningNull hnone =>
    obtain rfl := Option.some.inj hnext
    exact ⟨fun _ => ⟨hnone, rfl⟩, nofun⟩
  | running hsome =>
    obtain rfl := Option.some.inj hnext
    refine ⟨nofun, ?_⟩
    rintro c ⟨⟩
    exact hsome
  | queueNull _ => cases hnext
  | compareSelf => cases hnext
  | finish => cases hnext
  | _ =>
    obtain rfl := Option.some.inj hnext
    exact ⟨nofun, nofun⟩

/-- It returns from its second load, or because the callback is on the own CPU. -/
theorem CallStep.of_stops {t : Nat} (h : CallStep s me cpu call next (.stops t) s') :
    call.timer = t ∧
      (call.phase = .queue ∧ (s.timers t).queue = none ∧ (s'.timers t).queue = none ∨
        call.phase = .compare cpu) := by
  cases h with
  | queueNull hnone => exact ⟨rfl, .inl ⟨rfl, hnone, hnone⟩⟩
  | compareSelf => exact ⟨rfl, .inr rfl⟩

/-- What is remembered: the timers that were stopped and not started since, and perhaps one more. -/
theorem stopped_noted {inside : Option Nat} {u : Nat} (h : (s.noted inside note).stopped u = true) :
    note = .stops u ∧ inside ≠ some u ∨ s.stopped u = true ∧ note ≠ .starts u := by
  cases note with
  | stops t =>
    by_cases hin : inside = some t
    · rw [noted, if_pos hin] at h
      exact .inr ⟨h, (by simp)⟩
    · rw [noted, if_neg hin] at h
      by_cases hu : u = t
      · subst hu
        exact .inl ⟨rfl, hin⟩
      · exact .inr ⟨(update_of_ne hu ..).symm.trans h, (by simp)⟩
  | starts t =>
    have hu : u ≠ t := by
      rintro rfl
      have : update s.stopped u false u = true := h
      rw [update_self] at this
      cases this
    exact .inr ⟨(update_of_ne hu ..).symm.trans h, fun heq => hu (Note.starts.inj heq).symm⟩
  | silent => exact .inr ⟨h, (by simp)⟩
  | looks t => exact .inr ⟨h, (by simp)⟩

/-- A call leaves stopped timers alone, and what it stops has stopped. -/
theorem Sound.stopped_call (h : s.Sound) (s₁ : Machine)
    (hstep : CallStep s me cpu call next note s')
    {inside : Option Nat} (hcall : s.callOf me = some call)
    (hcompare : ∀ t, call.timer = t → call.phase = .compare cpu → inside = some t)
    (hstopped : s₁.stopped = s.stopped)
    {u : Nat} (hu : (s₁.noted inside note).stopped u = true) :
    (s'.timers u).queue = none ∧ ∀ c, s.hand c ≠ some u := by
  rcases stopped_noted hu with ⟨rfl, hin⟩ | ⟨hold, hnot⟩
  · obtain ⟨htimer, hq | hc⟩ := hstep.of_stops
    · refine ⟨hq.2.2, ?_⟩
      rw [← htimer]
      exact h.deciding me call hcall hq.1
    · exact absurd (hcompare u htimer hc) hin
  · rw [hstopped] at hold
    obtain ⟨hnone, hhand⟩ := h.stopped u hold
    exact ⟨(hstep.queue_none hnone).resolve_right hnot, hhand⟩

end

/-! ## The steps -/

theorem storeRunning_self (s : Machine) (t : Nat) (cpu : Option Nat) :
    ((s.storeRunning t cpu).timers t).runningOn = cpu := by
  show (update s.timers t _ t).runningOn = _
  rw [update_self]

theorem storeRunning_of_ne (s : Machine) {t u : Nat} (cpu : Option Nat) (hu : u ≠ t) :
    (s.storeRunning t cpu).timers u = s.timers u := update_of_ne hu ..

section Passes

variable {c n t : Nat}

/-- Of the passes only this one changes, and it makes no call. -/
structure Moves (s s' : Machine) (c : Nat) (p' : Option Pass) : Prop where
  passes : s'.passes = Function.update s.passes c p'
  callers : s'.callers = s.callers
  stopped : s'.stopped = s.stopped
  call : (p'.bind fun p => p.place.call) = none

section

variable {p' : Option Pass} (hm : Moves s s' c p')
include hm

theorem Moves.self :
    s'.hand c = (p'.bind fun p => p.place.hand) ∧ s'.marks c = p'.bind fun p => p.place.marks := by
  rw [hand, marks, hm.passes, update_self]
  exact ⟨rfl, rfl⟩

theorem Moves.other {c' : Nat} (hc : c' ≠ c) :
    s'.hand c' = s.hand c' ∧ s'.marks c' = s.marks c' := by
  rw [hand, hand, marks, marks, hm.passes, update_of_ne hc]
  exact ⟨rfl, rfl⟩

theorem Moves.calls {ag : Agent} {call : Call} (hag : s'.callOf ag = some call) :
    s.callOf ag = some call ∧ ag ≠ .pass c := by
  cases ag with
  | caller a =>
    rw [callOf, hm.callers] at hag
    exact ⟨hag, nofun⟩
  | pass c' =>
    by_cases hc : c' = c
    · rw [hc, callOf, hm.passes, update_self, hm.call] at hag
      cases hag
    · rw [callOf, hm.passes, update_of_ne hc] at hag
      exact ⟨hag, fun heq => hc (Agent.pass.inj heq)⟩

end

/-- The same timer is in hand, and nobody's `m_running_on` changes. -/
theorem Sound.move (h : s.Sound) {p p' : Option Pass} (hp : s.passes c = p) (hm : Moves s s' c p')
    (hplace : (p'.bind fun p => p.place.hand) = (p.bind fun p => p.place.hand))
    (hmark : (p'.bind fun p => p.place.marks) = (p.bind fun p => p.place.marks))
    (hrun : ∀ u, (s'.timers u).runningOn = (s.timers u).runningOn)
    (hqueue : ∀ u, (s.timers u).queue = none → (s'.timers u).queue = none ∨ s.hand c = some u) :
    s'.Sound := by
  refine h.pass hp hm.passes hm.callers hplace hmark hrun (fun call hcall => ?_)
    (fun call hcall => ?_) fun u hu => ?_
  · rw [hm.call] at hcall
    cases hcall
  · rw [hm.call] at hcall
    cases hcall
  · rw [hm.stopped] at hu
    obtain ⟨hnone, hhand⟩ := h.stopped u hu
    exact ⟨(hqueue u hnone).resolve_right (hhand c), hhand⟩

/-- **A timer is taken**, and nobody else has it or is about to decide that nobody has. -/
theorem Sound.take (h : s.Sound) (hord : s.Order) {e : Entry} (hp : s.passes c = some ⟨n, .look⟩)
    (hfirst : (s.queues c).first = some e) (hcare : s.Careful (.take e.timer)) :
    ((s.unlink c e.timer).setPass c (some ⟨n, .taken e.timer⟩)).Sound := by
  obtain ⟨halone, hdeciding⟩ := hcare
  generalize hs' : (s.unlink c e.timer).setPass c (some ⟨n, .taken e.timer⟩) = s'
  have hm : Moves s s' c (some ⟨n, .taken e.timer⟩) := by
    rw [← hs']
    exact ⟨rfl, rfl, rfl, rfl⟩
  have ht : s'.timers = s.timers := by rw [← hs']; rfl
  have hmarks : ∀ c', s'.marks c' = s.marks c' := by
    intro c'
    by_cases hc : c' = c
    · rw [hc, hm.self.2, marks, hp]
      rfl
    · exact (hm.other hc).2
  have hhand : ∀ c' u, s'.hand c' = some u → s.hand c' = some u ∨ c' = c ∧ u = e.timer := by
    intro c' u hu
    by_cases hc : c' = c
    · rw [hc, hm.self.1] at hu
      exact .inr ⟨hc, (Option.some.inj hu).symm⟩
    · rw [(hm.other hc).1] at hu
      exact .inl hu
  refine ⟨fun u c' => ?_, fun c₁ c₂ u h₁ h₂ => ?_, fun ag call hag hphase c' hu => ?_, ?_,
    fun c' call hag hphase => ?_, fun u hu => ?_⟩
  · rw [ht, hmarks]
    exact h.running u c'
  · rcases hhand c₁ u h₁ with h₁ | ⟨hc₁, hu₁⟩
    · rcases hhand c₂ u h₂ with h₂ | ⟨hc₂, hu₂⟩
      · exact h.alone c₁ c₂ u h₁ h₂
      · exact absurd (hu₂ ▸ h₁) (halone c₁)
    · rcases hhand c₂ u h₂ with h₂ | ⟨hc₂, hu₂⟩
      · exact absurd (hu₁ ▸ h₂) (halone c₂)
      · exact hc₁.trans hc₂.symm
  · rcases hhand c' _ hu with hu | ⟨rfl, htimer⟩
    · exact h.deciding ag call (hm.calls hag).1 hphase c' hu
    · exact hdeciding ag call (hm.calls hag).1 htimer hphase
  · rw [hm.callers]
    exact h.outside
  · obtain ⟨hold, hc⟩ := hm.calls hag
    rw [(hm.other fun heq => hc (congrArg _ heq)).1]
    exact h.inside c' call hold hphase
  · rw [hm.stopped] at hu
    obtain ⟨hnone, hnot⟩ := h.stopped u hu
    refine ⟨by rw [ht]; exact hnone, fun c' hc' => ?_⟩
    rcases hhand c' u hc' with hc' | ⟨-, rfl⟩
    · exact hnot c' hc'
    · rw [hord.tree c e ((hord.queues c).first_mem hfirst)] at hnone
      cases hnone

/-- `m_running_on` and what a pass marks change together, for a timer that only this pass has. -/
theorem Sound.remark (h : s.Sound) {p' : Option Pass} (on : Option Nat)
    (hm : Moves s s' c p') (ht : s'.timers = (s.storeRunning t on).timers)
    (hhand : s.hand c = some t) (hplace : ∀ u, (p'.bind fun p => p.place.hand) = some u → u = t)
    (hmark : ∀ u, (p'.bind fun p => p.place.marks) = some u ↔ u = t ∧ on = some c)
    (hon : on = some c ∨ on = none) : s'.Sound := by
  have hsub : ∀ c' u, s'.hand c' = some u → s.hand c' = some u := by
    intro c' u hu
    by_cases hc : c' = c
    · rw [hc, hm.self.1] at hu
      rw [hc, hhand, hplace u hu]
    · rwa [(hm.other hc).1] at hu
  have hqueue : ∀ u, (s'.timers u).queue = (s.timers u).queue := fun u => by
    rw [ht]
    exact setTimer_field s t (fun timer => { timer with runningOn := on }) Timer.queue rfl u
  refine ⟨fun u c' => ?_, fun c₁ c₂ u h₁ h₂ => h.alone c₁ c₂ u (hsub c₁ u h₁) (hsub c₂ u h₂),
    fun ag call hag hphase c' hu =>
      h.deciding ag call (hm.calls hag).1 hphase c' (hsub c' _ hu), ?_,
    fun c' call hag hphase => ?_, fun u hu => ?_⟩
  · by_cases hu : u = t
    · subst hu
      rw [ht, storeRunning_self]
      by_cases hc : c' = c
      · rw [hc, hm.self.2, hmark]
        exact ⟨fun heq => ⟨rfl, heq⟩, fun hand => hand.2⟩
      · rw [(hm.other hc).2]
        refine iff_of_false (fun heq => ?_) fun heq => hc (h.alone c' c u (hand_of_marks heq) hhand)
        rcases hon with rfl | rfl
        · exact hc (Option.some.inj heq).symm
        · cases heq
    · rw [ht, storeRunning_of_ne s on hu]
      by_cases hc : c' = c
      · rw [hc, hm.self.2, hmark]
        refine iff_of_false (fun heq => ?_) fun hand => hu hand.1
        have := hand_of_marks ((h.running u c).1 heq)
        rw [hhand] at this
        exact hu (Option.some.inj this).symm
      · rw [(hm.other hc).2]
        exact h.running u c'
  · rw [hm.callers]
    exact h.outside
  · obtain ⟨hold, hc⟩ := hm.calls hag
    rw [(hm.other fun heq => hc (congrArg _ heq)).1]
    exact h.inside c' call hold hphase
  · rw [hm.stopped] at hu
    obtain ⟨hnone, hnot⟩ := h.stopped u hu
    exact ⟨(hqueue u).trans hnone, fun c' hc' => hnot c' (hsub c' u hc')⟩

end Passes

theorem Sound.step (h : s.Sound) (hord : s.Order) {event : Event} (hcare : s.Careful event)
    (hstep : Step s event s') : s'.Sound := by
  cases hstep with
  | begin a goal t _ _ =>
    refine h.caller rfl rfl (fun _ => rfl) (fun call hcall hphase => ?_)
      (fun call c hcall hphase => ?_) h.stopped
    · obtain rfl := Option.some.inj hcall
      cases hphase
    · obtain rfl := Option.some.inj hcall
      cases hphase
  | @call a call next note s₁ hcall hidle hstep =>
    obtain ⟨hcallers, hpasses, hstopped⟩ := hstep.frame
    obtain ⟨ht, -, -, hc, hp⟩ := noted_frame (s₁.setCaller a ⟨(s.callers a).cpu, next⟩) none note
    have hset : (s₁.setCaller a ⟨(s.callers a).cpu, next⟩).callers =
        update s.callers a ⟨(s.callers a).cpu, next⟩ := by
      rw [← hcallers]
      rfl
    refine h.caller (hp.trans hpasses) (hc.trans hset)
      (fun t => by rw [ht]; exact hstep.runningOn t)
      (fun call' hnext hphase => ?_) (fun call' c hnext hphase heq => ?_) fun u hu => ?_
    · obtain ⟨hnone, rfl⟩ := (hstep.decides hnext).1 hphase
      exact h.hand_none hcare hnone
    · -- a callback that runs on this CPU would keep the caller from making a step
      have hmarks := (h.running _ c).1 ((hstep.decides hnext).2 c hphase)
      rw [heq, marks, hidle] at hmarks
      cases hmarks
    · rw [ht]
      exact h.stopped_call (s₁.setCaller a ⟨(s.callers a).cpu, next⟩) hstep hcall
        (fun t _ hphase => absurd rfl (h.outside a call _ hcall hphase)) hstopped hu
  | move a cpu _ _ =>
    refine h.caller rfl rfl (fun _ => rfl)
      (fun call hcall hphase => h.deciding (.caller a) call hcall hphase)
      (fun call c hcall hphase => absurd hphase (hcare call c hcall)) h.stopped
  | interrupt c hp _ => exact h.move hp ⟨rfl, rfl, rfl, rfl⟩ rfl rfl (fun _ => rfl) fun _ => .inl
  | enter c hp _ => exact h.move hp ⟨rfl, rfl, rfl, rfl⟩ rfl rfl (fun _ => rfl) fun _ => .inl
  | take c nowNs hp _ hfirst _ => exact h.take hord hp hfirst hcare
  | leave c nowNs hp _ => exact h.move hp ⟨rfl, rfl, rfl, rfl⟩ rfl rfl (fun _ => rfl) fun _ => .inl
  | @clearQueue c n t hp =>
    refine h.move hp ⟨rfl, rfl, rfl, rfl⟩ rfl rfl
      (fun u => setTimer_field s t (fun timer => { timer with queue := none })
      Timer.runningOn rfl u) fun u hnone => .inl ?_
    by_cases hu : u = t
    · subst hu
      exact storeQueue_self ..
    · exact (congrArg Timer.queue (storeQueue_of_ne s none hu)).trans hnone
  | @mark c n t hp =>
    refine h.remark (some c) ⟨rfl, rfl, rfl, rfl⟩ rfl (by rw [hand, hp]; rfl) (fun u hu => ?_)
      (fun u => ?_) (.inl rfl)
    · exact (Option.some.inj hu).symm
    · exact ⟨fun hu => ⟨(Option.some.inj hu).symm, rfl⟩, fun hu => by rw [hu.1]; rfl⟩
  | unlock c hp => exact h.move hp ⟨rfl, rfl, rfl, rfl⟩ rfl rfl (fun _ => rfl) fun _ => .inl
  | invoke c hp => exact h.move hp ⟨rfl, rfl, rfl, rfl⟩ rfl rfl (fun _ => rfl) fun _ => .inl
  | innerBegin c goal t' hp =>
    refine h.pass hp rfl rfl rfl rfl (fun _ => rfl) (fun call hcall hphase => ?_)
      (fun call hcall hphase => ?_) h.stopped
    · obtain rfl := Option.some.inj hcall
      cases hphase
    · obtain rfl := Option.some.inj hcall
      cases hphase
  | @inner c n t call next note s₁ hpass hstep =>
    obtain ⟨hcallers, hpasses, hstopped⟩ := hstep.frame
    obtain ⟨ht, -, -, hc, hp⟩ :=
      noted_frame (s₁.setPass c (some ⟨n, .callback t next⟩)) (some t) note
    have hset : (s₁.setPass c (some ⟨n, .callback t next⟩)).passes =
        update s.passes c (some ⟨n, .callback t next⟩) := by
      rw [← hpasses]
      rfl
    have hhand : s.hand c = some t := by rw [hand, hpass]; rfl
    have hcall : s.callOf (.pass c) = some call := by rw [callOf, hpass]; rfl
    refine h.pass hpass (hp.trans hset) (hc.trans hcallers) rfl rfl
      (fun t => by rw [ht]; exact hstep.runningOn t)
      (fun call' hnext hphase => ?_) (fun call' hnext hphase => ?_) fun u hu => ?_
    · obtain ⟨hnone, rfl⟩ := (hstep.decides hnext).1 hphase
      exact h.hand_none hcare hnone
    · exact hand_of_marks ((h.running _ c).1 ((hstep.decides hnext).2 c hphase))
    · rw [ht]
      refine h.stopped_call (s₁.setPass c (some ⟨n, .callback t next⟩)) hstep hcall
        (fun u hu hphase => ?_) hstopped hu
      have hin := h.inside c call hcall hphase
      rw [hhand, hu] at hin
      exact hin
  | @forward c t' periodNs nowNs n t hp =>
    refine h.pass (c := c) rfl (Function.update_eq_self ..).symm rfl rfl rfl (fun u => ?_)
      (fun call hcall hphase => ?_) (fun call hcall hphase => ?_) fun u hu => ?_
    · exact setTimer_field s t' (fun timer => (timer.forward periodNs nowNs).2) Timer.runningOn
        (Timer.forward_queue ..).2 u
    · exact h.deciding (.pass c) call hcall hphase
    · exact h.inside c call hcall hphase
    · obtain ⟨hnone, hnot⟩ := h.stopped u hu
      exact ⟨(setTimer_field s t' (fun timer => (timer.forward periodNs nowNs).2) Timer.queue
        (Timer.forward_queue ..).1 u).trans hnone, hnot⟩
  | done c restart hp => exact h.move hp ⟨rfl, rfl, rfl, rfl⟩ rfl rfl (fun _ => rfl) fun _ => .inl
  | relock c hp _ => exact h.move hp ⟨rfl, rfl, rfl, rfl⟩ rfl rfl (fun _ => rfl) fun _ => .inl
  | @requeue c n t hp _ =>
    refine h.move hp ⟨rfl, rfl, rfl, rfl⟩ rfl rfl
      (fun u => setTimer_field s t (fun timer => { timer with queue := some c })
      Timer.runningOn rfl u) fun u hnone => ?_
    by_cases hu : u = t
    · subst hu
      exact .inr (by rw [hand, hp]; rfl)
    · exact .inl ((congrArg Timer.queue (storeQueue_of_ne s (some c) hu)).trans hnone)
  | requeueNot c hp _ => exact h.move hp ⟨rfl, rfl, rfl, rfl⟩ rfl rfl (fun _ => rfl) fun _ => .inl
  | relink c advanceNs hp =>
    exact h.move hp ⟨rfl, rfl, rfl, rfl⟩ rfl rfl (fun _ => rfl) fun _ => .inl
  | @clear c n t hp =>
    refine h.remark none ⟨rfl, rfl, rfl, rfl⟩ rfl (by rw [hand, hp]; rfl) nofun
      (fun u => ?_) (.inr rfl)
    exact iff_of_false nofun fun hu => nomatch hu.2

theorem Boot.sound (h : Boot s) : s.Sound := by
  have hhand : ∀ c, s.hand c = none := fun c => by rw [hand, h.passes]; rfl
  have hmarks : ∀ c, s.marks c = none := fun c => by rw [marks, h.passes]; rfl
  have hcall : ∀ ag, s.callOf ag = none := by
    intro ag
    cases ag with
    | caller a => exact h.callers a
    | pass c => rw [callOf, h.passes]; rfl
  refine ⟨fun t c => ?_, fun c c' t hc => ?_, fun ag call hag => ?_, fun a call c hag => ?_,
    fun c call hag => ?_, fun t _ => ⟨(h.timers t).1, fun c hc => ?_⟩⟩
  · rw [(h.timers t).2, hmarks]
    exact ⟨nofun, nofun⟩
  · rw [hhand] at hc
    cases hc
  · rw [hcall] at hag
    cases hag
  · rw [h.callers] at hag
    cases hag
  · rw [hcall] at hag
    cases hag
  · rw [hhand] at hc
    cases hc

/-- **Nothing is left once `cancel_sync` has returned**, in every state of a run whose steps are
careful. -/
theorem careful_quiet (h : carefulSystem.Reachable s) : s.Quiet := by
  have hinv : s.Order ∧ s.Sound := by
    refine h.invariant (I := fun s => s.Order ∧ s.Sound) (fun s hboot => ?_)
      fun s s' hinv hstep => ?_
    · exact ⟨Boot.order hboot, Boot.sound hboot⟩
    · obtain ⟨e, hcare, he⟩ := hstep
      exact ⟨hinv.1.step he, hinv.2.step hinv.1 hcare he⟩
  exact hinv.2.quiet

/-! ## Runs of two CPUs -/

/-- Everybody is on the CPU of the same number. -/
def fresh : Machine where
  timers _ := ⟨0, 0, .normal, none, none⟩
  queues _ := { hasHardware := true }
  locks _ := none
  callers a := ⟨a, none⟩
  passes _ := none
  stopped _ := false

theorem fresh_boot : Boot fresh :=
  ⟨fun _ => ⟨rfl, rfl⟩, fun _ => ⟨true, rfl⟩, fun _ => rfl, fun _ => rfl, fun _ => rfl⟩

/-- CPU 0 has started timer 0 on CPU 1. -/
def started : { s // system.Reachable s } :=
  have h := System.Reachable.init (S := system) fresh_boot
  have h := h.step ⟨_, .begin 0 (.add 1 5 0) 0 rfl rfl⟩
  have h := h.step ⟨_, .call 0 rfl rfl (.loadNull rfl)⟩
  have h := h.step ⟨_, .call 0 rfl rfl (.claimLock rfl)⟩
  have h := h.step ⟨_, .call 0 rfl rfl (.claim rfl)⟩
  have h := h.step ⟨_, .call 0 rfl rfl (.link 0)⟩
  have h := h.step ⟨_, .call 0 rfl rfl .finish⟩
  ⟨_, h⟩

/-- Timer 0 is in the tree, and timer 1 is about to be put there. -/
theorem reachable_order_linked : ∃ s, system.Reachable s ∧ (s.timers 0).queue = some 1 ∧
    (s.timers 1).queue = some 1 ∧ (s.queues 1).waiting.map (·.timer) = [0] ∧
    s.amid (.caller 0) = some (1, 1) ∧ s.Order := by
  have h₁ := started.2.step ⟨_, .begin 0 (.add 1 3 0) 1 rfl rfl⟩
  have h₂ := h₁.step ⟨_, .call 0 rfl rfl (.loadNull rfl)⟩
  have h₃ := h₂.step ⟨_, .call 0 rfl rfl (.claimLock rfl)⟩
  have h₄ := h₃.step ⟨_, .call 0 rfl rfl (.claim rfl)⟩
  exact ⟨_, h₄, rfl, rfl, rfl, rfl, reachable_order h₄⟩

/-- **`cancel_sync` returns and the callback runs.**  CPU 0 starts timer 0 on CPU 1, and stops it
while CPU 1 has stored that it waits nowhere, and not yet that its callback runs there. -/
theorem quiet_fails : ∃ s, system.Reachable s ∧ ¬ s.Quiet := by
  -- it is due
  have h₈ := started.2.step ⟨_, Step.interrupt 1 rfl fun a ha => by
    cases a with
    | zero => cases ha
    | succ a => rfl⟩
  have h₉ := h₈.step ⟨_, Step.enter 1 rfl rfl⟩
  have h₁₀ := h₉.step ⟨_, Step.take 1 10 rfl (by decide) rfl (by decide)⟩
  have h₁₁ := h₁₀.step ⟨_, Step.clearQueue 1 rfl⟩
  -- CPU 0 finds it nowhere
  have h₁₂ := h₁₁.step ⟨_, .begin 0 .cancelSync 0 rfl rfl⟩
  have h₁₃ := h₁₂.step ⟨_, .call 0 rfl rfl (.loadNull rfl)⟩
  have h₁₄ := h₁₃.step ⟨_, .call 0 rfl rfl (.runningNull rfl)⟩
  have h₁₅ := h₁₄.step ⟨_, .call 0 rfl rfl (.queueNull rfl)⟩
  -- CPU 1 goes on
  have h₁₆ := h₁₅.step ⟨_, Step.mark 1 rfl⟩
  have h₁₇ := h₁₆.step ⟨_, Step.unlock 1 rfl⟩
  have h₁₈ := h₁₇.step ⟨_, Step.invoke 1 rfl⟩
  exact ⟨_, h₁₈, fun hquiet => hquiet 0 rfl 1 ⟨0, none, rfl⟩⟩

/-- The same timer is stopped before it is due. -/
theorem careful_quiet_stopped : ∃ s, carefulSystem.Reachable s ∧ s.stopped 0 = true ∧ s.Quiet := by
  have hidle : ∀ {s : Machine}, (∀ c, s.passes c = none) →
      ∀ c n, s.passes c ≠ some ⟨n, .taken 0⟩ ∧ s.passes c ≠ some ⟨n, .cleared 0⟩ :=
    fun hnone c n => by
    rw [hnone]
    exact ⟨nofun, nofun⟩
  have h₁ := System.Reachable.init (S := carefulSystem) fresh_boot
  have h₂ := careful_step h₁ (.begin 0 (.add 1 5 0) 0 rfl rfl) trivial
  have h₃ := careful_step h₂ (.call 0 rfl rfl (.loadNull rfl)) trivial
  have h₄ := careful_step h₃ (.call 0 rfl rfl (.claimLock rfl)) trivial
  have h₅ := careful_step h₄ (.call 0 rfl rfl (.claim rfl)) trivial
  have h₆ := careful_step h₅ (.call 0 rfl rfl (.link 0)) trivial
  have h₇ := careful_step h₆ (.call 0 rfl rfl .finish) trivial
  have h₈ := careful_step h₇ (.begin 0 .cancelSync 0 rfl rfl) trivial
  have h₉ := careful_step h₈ (.call 0 rfl rfl (.load rfl)) trivial
  have h₁₀ := careful_step h₉ (.call 0 rfl rfl (.lock rfl)) trivial
  have h₁₁ := careful_step h₁₀ (.call 0 rfl rfl (.check rfl)) trivial
  have h₁₂ := careful_step h₁₁ (.call 0 rfl rfl .store) trivial
  have h₁₃ := careful_step h₁₂ (.call 0 rfl rfl .unlock) trivial
  have h₁₄ := careful_step h₁₃ (.call 0 rfl rfl (.runningNull rfl)) (hidle fun _ => rfl)
  have h₁₅ := careful_step h₁₄ (.call 0 rfl rfl (.queueNull rfl)) trivial
  exact ⟨_, h₁₅, rfl, careful_quiet h₁₅⟩

end Machine

end Erebus.Timers
