import Erebus.Sched.Accounts
import Erebus.Sched.Blocking

/-!
# The order of real-time threads

Real-time threads of one level take turns in the order of their FIFO. One that lost the CPU is to go
back to its front, and one that yielded to its end; `pick_next_locked` tells the two apart by the
mode it is given, and the mode by the function that was called.

* `Cpu`: a run queue with what the scheduler calls on one CPU; `Cause`: the four ways to give up the
  CPU.
* `pickNextLocked_lines`: what becomes of the FIFOs.
* `Leads`, `Precedes`: first in line, and somewhere ahead; both last until the thread leaves.
* `InLine`: the order in which threads run again; `inLine_of_alone`: in every run in which nobody
  who is made to `reschedule_if_needed` has others of the level behind.
* `goes_to_the_end`: in other runs the thread that lost the CPU is overtaken.
-/

namespace Erebus.Sched

open Function (update_self update_of_ne)

namespace RunQueue

/-- `RunQueue::should_switch_locked`. -/
def shouldSwitchLocked (info : Nat → ThreadInfo) (rq : RunQueue) : Option Bool :=
  if rq.current = rq.idleThread then
    some (decide (rq.waiting ≠ 0))
  else
    let runningLevel := rtLevel (info rq.current)
    let top := rq.highestRtLevel
    if top < rtLevels then
      some (decide (top < runningLevel))
    else if runningLevel < rtLevels then
      some false
    else
      rq.fair.pick.map fun chosen => chosen.map Entity.id != rq.fair.current.map Entity.id

/-! ## What the operations do to the FIFOs -/

section

variable {info : Nat → ThreadInfo} {rq rq₁ rq' : RunQueue} {threads threads₁ threads' : Threads}
  {t next top : Nat} {mode : PickMode}

theorem updateClockLocked_realtime (rq : RunQueue) (nowNs : Nat) :
    (rq.updateClockLocked nowNs).realtime = rq.realtime := by
  unfold updateClockLocked
  split <;> rfl

theorem enqueueLocked_realtime {preempts : Bool} (h : Inv info rq) (hfresh : t ∉ rq.queued)
    (hq : rq.enqueueLocked info threads t = some (preempts, rq', threads')) (l : Nat) :
    rq'.realtime l = rq.realtime l ∨ rq'.realtime l = rq.realtime l ++ [t] := by
  obtain ⟨hidle, -, ⟨hl, rq₁, hpush, rfl⟩ | ⟨-, fair, -, rfl⟩, -⟩ := enqueueLocked_cases hq
  · obtain ⟨-, -, hrt, -⟩ := pushRealtime_spec h.toTiers hl hidle hfresh hpush
    show rq₁.realtime l = rq.realtime l ∨ rq₁.realtime l = rq.realtime l ++ [t]
    rw [hrt, if_neg Bool.false_ne_true]
    by_cases hlevel : l = rtLevel (info t)
    · subst hlevel
      exact .inr (update_self ..)
    · exact .inl (update_of_ne hlevel ..)
  · exact .inl rfl

theorem removeLocked_realtime {done : Bool}
    (hq : rq.removeLocked info threads t = some (done, rq', threads')) :
    rq'.current = rq.current ∧ ∀ l, rq'.realtime l = rq.realtime l ∨
      done = true ∧ rq'.realtime l = (rq.realtime l).erase t := by
  obtain ⟨-, rfl, -⟩ | ⟨hdone, ⟨-, rq₁, hremove, rfl, -⟩ | ⟨-, fair, e, -, rfl, -⟩⟩ :=
    removeLocked_cases hq
  · exact ⟨rfl, fun _ => .inl rfl⟩
  · rw [removeRealtime_same hremove]
    refine ⟨rfl, fun l => ?_⟩
    by_cases hlevel : l = rtLevel (info t)
    · subst hlevel
      exact .inr ⟨hdone, update_self ..⟩
    · exact .inl (update_of_ne hlevel ..)
  · exact ⟨rfl, fun _ => .inl rfl⟩

theorem trySteal_realtime {enough : Nat} {stolen : Option Nat}
    (hq : rq.trySteal info threads enough = some (stolen, rq', threads')) :
    rq'.current = rq.current ∧ ∀ l, rq'.realtime l = rq.realtime l ∨
      ∃ t, stolen = some t ∧ rq'.realtime l = (rq.realtime l).erase t := by
  obtain ⟨-, rfl, -⟩ | ⟨t, done, hstolen, -, hremove⟩ := trySteal_cases hq
  · exact ⟨rfl, fun _ => .inl rfl⟩
  · obtain ⟨hcurrent, hlines⟩ := removeLocked_realtime hremove
    exact ⟨hcurrent, fun l => (hlines l).imp_right fun hline => ⟨t, hstolen, hline.2⟩⟩

/-- The FIFOs once the running thread is filed: a real-time thread that stays is put back, at the
front if it was preempted and at the end otherwise. -/
def filedLines (info : Nat → ThreadInfo) (rq : RunQueue) (threads : Threads) (mode : PickMode) :
    Nat → List Nat :=
  let level := rtLevel (info rq.current)
  if runnable info threads rq.current mode = true ∧ level < rtLevels then
    Function.update rq.realtime level
      (if mode = .preempted then rq.current :: rq.realtime level
        else rq.realtime level ++ [rq.current])
  else
    rq.realtime

/-- What `pick_next_locked` does to the FIFOs. -/
inductive Lines (info : Nat → ThreadInfo) (rq rq' : RunQueue) (threads : Threads) (mode : PickMode)
    (next : Nat) : Prop
  /-- Nobody who waits outranks a real-time thread. -/
  | carriesOn : next = rq.current → rq'.realtime = rq.realtime → rq'.current = rq.current →
      rtLevel (info rq.current) ≤ rq.highestRtLevel →
      (mode = .yield → rtLevel (info rq.current) ≠ rq.highestRtLevel) →
        Lines info rq rq' threads mode next
  /-- The head of the highest level takes over from whom it outranks. -/
  | takes (top : Nat) (rest : List Nat) : top < rtLevels → rtLevel (info next) = top →
      top = rq.highestRtLevel →
      (runnable info threads rq.current mode = true → rtLevel (info rq.current) < rtLevels →
        top < rtLevel (info rq.current) ∨ top = rtLevel (info rq.current) ∧ mode = .yield) →
      filedLines info rq threads mode top = next :: rest →
      rq'.realtime = Function.update (filedLines info rq threads mode) top rest →
      rq'.current = next → Lines info rq rq' threads mode next
  | noRealtime : (∀ l < rtLevels, rq.realtime l = []) →
      ¬ (runnable info threads rq.current mode = true ∧ rtLevel (info rq.current) < rtLevels) →
      rq'.realtime = rq.realtime → rq'.current = next → Lines info rq rq' threads mode next

theorem highestRtLevel_congr (h : rq₁.realtime = rq.realtime) :
    rq₁.highestRtLevel = rq.highestRtLevel := by
  rw [highestRtLevel, highestRtLevel, h]

/-- Nobody waits at any level. -/
theorem realtime_of_not_highest (h : ¬ rq.highestRtLevel < rtLevels) (l : Nat) (hl : l < rtLevels) :
    rq.realtime l = [] := realtime_of_lt_highest (hl.trans_le (not_lt.1 h))

/-- The FIFOs the head is taken from. -/
theorem Refiles.lines
    (hrefiles : Refiles info rq₁ threads₁ rq.current mode (runnable info threads rq.current mode)
      rq₂ threads₂)
    (hfiled : Filed info rq rq₁ threads threads₁ (runnable info threads rq.current mode))
    (h : Inv info rq)
    (hlines : rq₁.realtime = rq.realtime) : rq₂.realtime = filedLines info rq threads mode := by
  unfold filedLines
  simp only
  generalize runnable info threads rq.current mode = stays at hrefiles hfiled ⊢
  cases hrefiles with
  | realtime hidle hl hq =>
    have hnone : rq₁.fair.current = none := hfiled.fair_none (by simp [isFair, hl])
    rw [if_pos ⟨rfl, hl⟩,
      (requeueRealtime_spec hfiled.tiers (hfiled.prev_notin h) hidle hl hnone hq).2, hlines]
    simp only [decide_eq_true_eq]
  | fair hfair _ hq =>
    have hl := (isFair_iff.1 hfair).2
    obtain ⟨e, fair, -, -, rfl, -⟩ := requeueCurrentFair_cases hq
    rw [if_neg (by omega)]
    exact hlines
  | gone => rw [if_neg (by simp), hlines]

/-- **`pick_next_locked`** files the running thread and takes the head of the highest level, if
there is one. -/
theorem pickNextLocked_lines (h : Inv info rq)
    (hq : rq.pickNextLocked info threads rq.current mode = some (next, rq', threads')) :
    Lines info rq rq' threads mode next := by
  obtain ⟨rq₁, threads₁, hfile, hfiled, hpicks⟩ := pickNextLocked_picks h hq
  have hlines : rq₁.realtime = rq.realtime := by rw [filePrev_same hfile]
  have hhighest := highestRtLevel_congr hlines
  have hnobody : ¬ rq₁.highestRtLevel < rtLevels → ∀ l < rtLevels, rq.realtime l = [] := by
    rw [hhighest]
    exact realtime_of_not_highest
  have hnotrt : (runnable info threads rq.current mode = true → isFair info rq.current = true) →
      ¬ (runnable info threads rq.current mode = true ∧ rtLevel (info rq.current) < rtLevels) := by
    rintro hfair ⟨hrunnable, hl⟩
    have := (isFair_iff.1 (hfair hrunnable)).2
    omega
  cases hpicks with
  | realtime _ _ hle hyield =>
    rw [hhighest] at hle hyield
    exact .carriesOn rfl hlines hfiled.current hle hyield
  | head htop hrefiles hout hpop =>
    have hfile := hrefiles.lines hfiled h hlines
    have hlevel := (popRealtime_spec (hrefiles.requeued hfiled h).tiers htop hpop).2.2.2.2.2
    unfold popRealtime at hpop
    split at hpop
    · cases hpop
    rename_i first rest hline
    cases hpop
    refine .takes rq₁.highestRtLevel rest htop hlevel hhighest hout ?_ ?_ rfl
    · rw [← hfile]
      exact hline
    · rw [← hfile]
      rfl
  | idles htop hgone _ _ =>
    exact .noRealtime (hnobody htop) (hnotrt (by rw [hgone]; nofun)) hlines hfiled.current
  | idle htop hgone _ _ =>
    exact .noRealtime (hnobody htop) (hnotrt (by rw [hgone]; nofun)) hlines rfl
  | current htop _ hfair _ _ =>
    exact .noRealtime (hnobody htop) (hnotrt fun _ => hfair) hlines hfiled.current
  | chosen htop hfair _ _ hrefiles _ =>
    refine .noRealtime (hnobody htop) (hnotrt hfair) ?_ rfl
    have hfile := hrefiles.lines hfiled h hlines
    rwa [filedLines, if_neg (hnotrt hfair)] at hfile

end

end RunQueue

/-! ## Places in line -/

namespace Desk

open RunQueue

/-- First in line at a level nobody of which runs. -/
structure Leads (s : Desk) (t l : Nat) : Prop where
  first : (s.rq.realtime l).head? = some t
  running : rtLevel (s.info s.rq.current) ≠ l

/-- Somewhere ahead of `t`. -/
def Precedes (s : Desk) (u t l : Nat) : Prop := [u, t].Sublist (s.rq.realtime l)

section Lasts

variable {s s' : Desk} {t u l : Nat}
variable {x next : Nat} {rq : RunQueue} {threads : Threads}

theorem Ok.current_notin (h : Ok s) : s.rq.current ∉ s.members :=
  fun hmem => h.inv.current ((h.members _).1 hmem)

theorem Ok.mem_of_line (h : Ok s) (hl : l < rtLevels) (ht : t ∈ s.rq.realtime l) : t ∈ s.members :=
  (h.members t).2 (mem_queued_of_realtime hl ht)

theorem Precedes.mem (h : s.Precedes u t l) : u ∈ s.rq.realtime l ∧ t ∈ s.rq.realtime l := by
  constructor
  · exact h.subset List.mem_cons_self
  · exact h.subset (List.mem_cons_of_mem _ List.mem_cons_self)

theorem head_erase {line : List Nat} (h : line.head? = some t) (hx : x ≠ t) :
    (line.erase x).head? = some t := by
  cases line with
  | nil => cases h
  | cons first rest =>
    cases h
    rw [List.erase_cons_tail (by simpa using hx.symm)]
    rfl

theorem pair_erase {line : List Nat} (h : [u, t].Sublist line) (hu : x ≠ u) (ht : x ≠ t) :
    [u, t].Sublist (line.erase x) := by
  have hpair : [u, t].erase x = [u, t] := List.erase_of_not_mem (by simp [hu, ht])
  rw [← hpair]
  exact h.erase x

/-- The head goes; it was not the first of the two. -/
theorem pair_tail {rest : List Nat} (h : [u, t].Sublist (x :: rest)) (hu : x ≠ u) :
    [u, t].Sublist rest := by
  rcases List.sublist_cons_iff.1 h with h | ⟨r, hr, -⟩
  · exact h
  · cases hr
    exact absurd rfl hu

/-- Filing the running thread keeps the others in order. -/
theorem Precedes.filed (h : s.Precedes u t l) (mode : PickMode) :
    [u, t].Sublist (filedLines s.info s.rq s.threads mode l) := by
  unfold filedLines
  split
  · by_cases hl : l = rtLevel (s.info s.rq.current)
    · subst hl
      rw [update_self]
      split
      · exact h.trans (List.sublist_cons_self _ _)
      · exact h.trans (List.sublist_append_left _ _)
    · rw [update_of_ne hl]
      exact h
  · exact h

theorem Leads.pick (hok : Ok s) (h : s.Leads t l) (hl : l < rtLevels) {mode : PickMode}
    (hq : s.rq.pickNextLocked s.info s.threads s.rq.current mode = some (next, rq, threads))
    (ht : rq.current ≠ t) : (rq.realtime l).head? = some t ∧ rtLevel (s.info rq.current) ≠ l := by
  cases pickNextLocked_lines hok.inv hq with
  | carriesOn _ hlines hcurrent _ _ =>
    rw [hlines, hcurrent]
    exact ⟨h.first, h.running⟩
  | takes top rest _ hlevel _ _ htop hlines hcurrent =>
    -- the thread that was filed is of another level
    have hline : filedLines s.info s.rq s.threads mode l = s.rq.realtime l := by
      unfold filedLines
      split
      · exact update_of_ne h.running.symm ..
      · rfl
    by_cases hsame : l = top
    · subst hsame
      have hfirst := h.first
      rw [← hline, htop] at hfirst
      exact absurd (hcurrent.trans (Option.some.inj hfirst)) ht
    · rw [hlines, hcurrent, update_of_ne hsame, hline, hlevel]
      exact ⟨h.first, fun heq => hsame heq.symm⟩
  | noRealtime hempty _ _ _ =>
    have hfirst := h.first
    rw [hempty l hl] at hfirst
    cases hfirst

/-- Whoever has to give way goes to the front if it is preempted, and is alone otherwise. -/
theorem Ok.pick_leads (hok : Ok s) {mode : PickMode}
    (hq : s.rq.pickNextLocked s.info s.threads s.rq.current mode = some (next, rq, threads))
    (hmode : mode ≠ .yield)
    (hl : rtLevel (s.info s.rq.current) < rtLevels)
    (hstays : runnable s.info s.threads s.rq.current mode = true) (hne : rq.current ≠ s.rq.current)
    (halone : mode ≠ .preempted → s.rq.highestRtLevel < rtLevel (s.info s.rq.current) →
      s.rq.realtime (rtLevel (s.info s.rq.current)) = []) :
    (rq.realtime (rtLevel (s.info s.rq.current))).head? = some s.rq.current ∧
      rtLevel (s.info rq.current) ≠ rtLevel (s.info s.rq.current) := by
  cases pickNextLocked_lines hok.inv hq with
  | carriesOn _ _ hcurrent _ _ => exact absurd hcurrent hne
  | takes top rest _ hlevel hhighest hout _ hlines hnext =>
    have htop : top < rtLevel (s.info s.rq.current) :=
      (hout hstays hl).resolve_right fun hboth => hmode hboth.2
    constructor
    · rw [hlines, update_of_ne htop.ne', filedLines, if_pos ⟨hstays, hl⟩, update_self]
      split
      · rfl
      · rename_i hnot
        rw [halone hnot (hhighest ▸ htop)]
        rfl
    · rw [hnext, hlevel]
      exact htop.ne
  | noRealtime _ hnot _ _ => exact absurd ⟨hstays, hl⟩ hnot

/-- Whoever yields goes to the end, behind all others of its level. -/
theorem Ok.pick_precedes (hok : Ok s)
    (hq : s.rq.pickNextLocked s.info s.threads s.rq.current .yield = some (next, rq, threads))
    (hl : rtLevel (s.info s.rq.current) < rtLevels)
    (hstays : runnable s.info s.threads s.rq.current .yield = true)
    (hu : u ∈ s.members) (hlevel : rtLevel (s.info u) = rtLevel (s.info s.rq.current))
    (hne : rq.current ≠ u) :
    [u, s.rq.current].Sublist (rq.realtime (rtLevel (s.info s.rq.current))) := by
  have hqueued := (hok.members u).1 hu
  have hline : u ∈ s.rq.realtime (rtLevel (s.info s.rq.current)) := by
    have hwhere := hok.inv.toTiers.mem_queued hqueued
    rwa [hlevel, if_pos hl] at hwhere
  cases pickNextLocked_lines hok.inv hq with
  | carriesOn _ _ _ hle hyield =>
    -- somebody of its level waits, so it cannot go on
    have hge := highestRtLevel_le hok.inv.toTiers hqueued
    rw [hlevel] at hge
    exact absurd (le_antisymm hle hge) (hyield rfl)
  | takes top rest _ _ _ _ htop hlines hnext =>
    have hfiled : filedLines s.info s.rq s.threads .yield (rtLevel (s.info s.rq.current)) =
        s.rq.realtime (rtLevel (s.info s.rq.current)) ++ [s.rq.current] := by
      rw [filedLines, if_pos ⟨hstays, hl⟩, update_self, if_neg nofun]
    have hpair :
        [u, s.rq.current].Sublist
          (s.rq.realtime (rtLevel (s.info s.rq.current)) ++ [s.rq.current]) :=
      (List.singleton_sublist.2 hline).append (.refl [s.rq.current])
    rw [hlines]
    by_cases hsame : rtLevel (s.info s.rq.current) = top
    · rw [hsame, update_self]
      rw [← hfiled, hsame, htop] at hpair
      exact pair_tail hpair fun heq => hne (hnext.trans heq)
    · rw [update_of_ne hsame, hfiled]
      exact hpair
  | noRealtime hempty _ _ _ =>
    rw [hempty _ hl] at hline
    cases hline

/-- What a step can do to the FIFOs: `pick_next_locked` files and takes, and everything else adds a
thread at the end or takes out one that leaves. -/
theorem Step.lines (hok : Ok s) (hstep : Step s s') :
    (∃ mode next threads, s.rq.pickNextLocked s.info s.threads s.rq.current mode =
      some (next, s'.rq, threads) ∧ s'.info = s.info) ∨
    (s'.rq.current = s.rq.current ∧ s'.info s.rq.current = s.info s.rq.current ∧
      ∀ l, s'.rq.realtime l = s.rq.realtime l ∨ (∃ x, s'.rq.realtime l = s.rq.realtime l ++ [x]) ∨
        ∃ x ∉ s'.members, s'.rq.realtime l = (s.rq.realtime l).erase x) := by
  cases hstep with
  | enqueue x hx hcurrent hq =>
    have hfresh : x ∉ s.rq.queued := fun hmem => hx ((hok.members x).2 hmem)
    refine .inr ⟨(enqueueLocked_spec hok.inv hfresh hcurrent hq).2.2.1, rfl, fun l => ?_⟩
    exact (enqueueLocked_realtime hok.inv hfresh hq l).imp_right fun heq => .inl ⟨x, heq⟩
  | remove x _ hq =>
    obtain ⟨hcurrent, hlines⟩ := removeLocked_realtime hq
    refine .inr ⟨hcurrent, rfl, fun l => (hlines l).imp_right ?_⟩
    rintro ⟨rfl, heq⟩
    exact .inr ⟨x, Finset.notMem_erase x _, heq⟩
  | updateClock nowNs =>
    refine .inr ⟨(updateClockLocked_spec hok.inv nowNs).2.2.1, rfl, fun l => .inl ?_⟩
    exact congrFun (updateClockLocked_realtime s.rq nowNs) l
  | pick mode hq => exact .inl ⟨mode, _, _, hq, rfl⟩
  | steal enough hq =>
    obtain ⟨hcurrent, hlines⟩ := trySteal_realtime hq
    refine .inr ⟨hcurrent, rfl, fun l => (hlines l).imp_right ?_⟩
    rintro ⟨x, rfl, heq⟩
    exact .inr ⟨x, Finset.notMem_erase x _, heq⟩
  | reclass x i hx hcurrent hi => exact .inr ⟨rfl, update_of_ne hcurrent.symm .., fun _ => .inl rfl⟩
  | elsewhere threads hsame => exact .inr ⟨rfl, rfl, fun _ => .inl rfl⟩

/-- **First in line until it leaves.** -/
theorem Leads.step (hok : Ok s) (h : s.Leads t l) (hl : l < rtLevels) (hstep : Step s s')
    (ht : t ∈ s'.members) : s'.Leads t l := by
  obtain ⟨mode, next, threads, hq, hinfo⟩ | ⟨hcurrent, hinfo, hlines⟩ := hstep.lines hok
  · obtain ⟨hfirst, hrunning⟩ :=
      h.pick hok hl hq (ne_of_mem_of_not_mem ht (hok.step hstep).current_notin).symm
    exact ⟨hfirst, by rwa [hinfo]⟩
  · refine ⟨?_, by rw [hcurrent, hinfo]; exact h.running⟩
    rcases hlines l with heq | ⟨x, heq⟩ | ⟨x, hx, heq⟩
    · rw [heq]
      exact h.first
    · rw [heq, List.head?_append, h.first]
      rfl
    · rw [heq]
      exact head_erase h.first (ne_of_mem_of_not_mem ht hx).symm

/-- **Ahead until one of the two leaves.** -/
theorem Precedes.step (hok : Ok s) (h : s.Precedes u t l) (hl : l < rtLevels) (hstep : Step s s')
    (hu : u ∈ s'.members) (ht : t ∈ s'.members ∨ s'.rq.current = t) : s'.Precedes u t l := by
  have hnot : s.rq.current ≠ t := fun heq => hok.current_notin (heq ▸ hok.mem_of_line hl h.mem.2)
  obtain ⟨mode, next, threads, hq, -⟩ | ⟨hcurrent, -, hlines⟩ := hstep.lines hok
  · unfold Precedes
    cases pickNextLocked_lines hok.inv hq with
    | carriesOn _ hlines _ _ _ =>
      rw [hlines]
      exact h
    | takes top rest _ _ _ _ htop hlines hcurrent =>
      have hfiled := h.filed mode
      rw [hlines]
      by_cases hsame : l = top
      · subst hsame
        rw [update_self]
        rw [htop] at hfiled
        exact pair_tail hfiled fun heq =>
          (hok.step hstep).current_notin ((hcurrent.trans heq).symm ▸ hu)
      · rw [update_of_ne hsame]
        exact hfiled
    | noRealtime _ _ hlines _ =>
      rw [hlines]
      exact h
  · unfold Precedes
    rcases hlines l with heq | ⟨x, heq⟩ | ⟨x, hx, heq⟩
    · rw [heq]
      exact h
    · rw [heq]
      exact h.trans (List.sublist_append_left _ _)
    · rw [heq]
      have hstays := ht.resolve_right fun heq => hnot (hcurrent.symm.trans heq)
      exact pair_erase h (ne_of_mem_of_not_mem hu hx).symm (ne_of_mem_of_not_mem hstays hx).symm

end Lasts

/-- `update_clock_locked`, which comes before every decision. -/
def clock (s : Desk) (nowNs : Nat) : Desk :=
  { s with rq := s.rq.updateClockLocked nowNs, fits := s.fits ∧ s.rq.FitsUntil nowNs }

end Desk

/-! ## One CPU -/

/-- A run queue, and `preempt_pending` of its CPU. -/
structure Cpu where
  id : Nat
  desk : Desk
  preemptPending : Bool

/-- How a thread comes to give up the CPU; `exit_current` ends like `schedule`. -/
inductive Cause
  | schedule
  | yield
  | preemptFromInterrupt
  /-- `reschedule_if_needed`, at the end of `wake` and `enqueue`; it calls `schedule`. -/
  | rescheduleIfNeeded
  deriving DecidableEq

/-- The mode that `pick_next_locked` is given. -/
def Cause.mode : Cause → PickMode
  | .schedule | .rescheduleIfNeeded => .voluntary
  | .yield => .yield
  | .preemptFromInterrupt => .preempted

namespace Cpu

open RunQueue

/-- The thread that runs. -/
def current (s : Cpu) : Nat := s.desk.rq.current

/-- The checks before `switch_away`. -/
def Passes (s : Cpu) : Cause → Prop
  | .schedule | .yield => True
  | .preemptFromInterrupt =>
    s.preemptPending = true ∧ (s.desk.info s.current).isIdle = false ∧
      (s.desk.threads s.current).state ≠ .dead
  | .rescheduleIfNeeded => s.preemptPending = true ∧ (s.desk.info s.current).isIdle = false

/-- `Scheduler::switch_away`. -/
inductive Switch (s : Cpu) (cause : Cause) : Cpu → Prop
  | mk (nowNs : Nat) {next : Nat} {rq : RunQueue} {threads : Threads} : s.Passes cause →
      (s.desk.clock nowNs).rq.pickNextLocked s.desk.info s.desk.threads
        (s.desk.clock nowNs).rq.current cause.mode = some (next, rq, threads) → Switch s cause {
        id := s.id
        desk := { s.desk.clock nowNs with
          rq := rq
          threads :=
            if next = (s.desk.clock nowNs).rq.current then threads
            else switchTo s.id (s.desk.clock nowNs).rq.current next threads
          members :=
            if next = (s.desk.clock nowNs).rq.current then s.desk.members
            else
              (if runnable s.desk.info s.desk.threads (s.desk.clock nowNs).rq.current cause.mode
                then insert (s.desk.clock nowNs).rq.current s.desk.members
                else s.desk.members).erase next }
        preemptPending := false }

/-- One operation of the scheduler on this CPU; `may` is what threads are to keep to when they give
up the CPU. -/
inductive Step (may : Cpu → Cause → Prop) (s : Cpu) : Cpu → Prop
  | switch (cause : Cause) {s' : Cpu} : may s cause → Switch s cause s' → Step may s s'
  /-- `place`, from here if `here` and from another CPU otherwise; `steal_work` puts a thread on its
  queue alike. -/
  | place (t nowNs : Nat) (here : Bool) {preempts : Bool} {rq : RunQueue} {threads : Threads} :
      t ∉ s.desk.members → t ≠ s.current →
      (s.desk.clock nowNs).rq.enqueueLocked s.desk.info s.desk.threads t =
        some (preempts, rq, threads) → Step may s { s with
          desk :=
            { s.desk.clock nowNs with
              rq := rq, threads := threads, members := insert t s.desk.members }
          preemptPending := s.preemptPending || here && preempts }
  | tick (nowNs : Nat) {switch : Bool} :
      (s.desk.clock nowNs).rq.shouldSwitchLocked s.desk.info = some switch →
        Step may s
          { s with desk := s.desk.clock nowNs, preemptPending := s.preemptPending || switch }
  /-- Another CPU steals. -/
  | steal (enough : Nat) {stolen : Option Nat} {rq : RunQueue} {threads : Threads} :
      s.desk.rq.trySteal s.desk.info s.desk.threads enough = some (stolen, rq, threads) →
        Step may s { s with desk := { s.desk with
          rq := rq, threads := threads
          members := stolen.elim s.desk.members s.desk.members.erase } }
  | remove (t : Nat) {done : Bool} {rq : RunQueue} {threads : Threads} :
      s.desk.Removable t →
      s.desk.rq.removeLocked s.desk.info s.desk.threads t = some (done, rq, threads) →
        Step may s { s with desk := { s.desk with
          rq := rq, threads := threads
          members := if done then s.desk.members.erase t else s.desk.members } }
  | reclass (t : Nat) (i : ThreadInfo) : t ∉ s.desk.members → t ≠ s.current →
      i.isIdle = (s.desk.info t).isIdle →
        Step may s { s with desk := { s.desk with info := Function.update s.desk.info t i } }
  /-- Threads change their state, or come and go on other queues. -/
  | elsewhere (threads : Threads) :
      (∀ t ∈ s.desk.members, (threads t).onRunqueue = (s.desk.threads t).onRunqueue) →
        Step may s { s with desk := { s.desk with threads := threads } }

/-- The scheduler on one CPU. -/
def system (may : Cpu → Cause → Prop) : System Cpu where
  init s := s.desk.Init ∧ s.preemptPending = false
  step := Step may

/-- What the system does while `t` waits. -/
def Waits (may : Cpu → Cause → Prop) (t : Nat) : Cpu → Cpu → Prop :=
  Relation.ReflTransGen fun a b => Step may a b ∧ t ∈ a.desk.members ∧ t ∈ b.desk.members

/-- What the system does while `u` waits, and `t` waits or runs. -/
def WaitsBefore (may : Cpu → Cause → Prop) (u t : Nat) : Cpu → Cpu → Prop :=
  Relation.ReflTransGen fun a b =>
    Step may a b ∧ u ∈ a.desk.members ∧ u ∈ b.desk.members ∧ (t ∈ b.desk.members ∨ b.current = t)

/-- In which order real-time threads run again. -/
structure InLine (may : Cpu → Cause → Prop) (s : Cpu) : Prop where
  /-- A thread that lost the CPU and waits is the next of its level to run. -/
  lost : ∀ cause s₁ s₂, may s cause → Switch s cause s₁ → cause ≠ .yield →
    rtLevel (s.desk.info s.current) < rtLevels → s.current ∈ s₁.desk.members →
    Waits may s.current s₁ s₂ → rtLevel (s₂.desk.info s₂.current) ≠ rtLevel (s.desk.info s.current)
  /-- A thread that yielded does not run before those of its level who waited. -/
  yielded : ∀ u s₁ s₂, may s .yield → Switch s .yield s₁ → (s.desk.info s.current).isIdle = false →
    (s.desk.threads s.current).state = .running → rtLevel (s.desk.info s.current) < rtLevels →
    u ∈ s.desk.members →
    rtLevel (s.desk.info u) = rtLevel (s.desk.info s.current) → WaitsBefore may u s.current s₁ s₂ →
      s₂.current ≠ s.current

/-- Whoever has to give way in mode `Voluntary`, although it could go on, is alone at its level. -/
def Alone (s : Cpu) (cause : Cause) : Prop :=
  cause.mode = .voluntary → (s.desk.threads s.current).state = .running →
    rtLevel (s.desk.info s.current) < rtLevels →
    s.desk.rq.highestRtLevel < rtLevel (s.desk.info s.current) →
      s.desk.rq.realtime (rtLevel (s.desk.info s.current)) = []

section Runs

variable {may : Cpu → Cause → Prop} {s s₁ s₂ s' : Cpu} {cause : Cause} {t u l : Nat}

theorem switchTo_onRunqueue (cpu prev next : Nat) (threads : Threads) (t : Nat) :
    (switchTo cpu prev next threads t).onRunqueue = (threads t).onRunqueue := by
  have hprev : ∀ t,
      (threads.modify prev (fun th => if th.state = .running then th.setState .ready else th)
        t).onRunqueue = (threads t).onRunqueue := by
    intro t
    by_cases ht : t = prev
    · subst ht
      rw [Threads.modify_self]
      split <;> rfl
    · rw [Threads.modify_of_ne ht]
  unfold switchTo
  by_cases ht : t = next
  · subst ht
    rw [Threads.modify_self]
    exact hprev t
  · rw [Threads.modify_of_ne ht]
    exact hprev t

/-- A switch is three operations on the queue: the clock, the choice, and what `switch_to` does to
the two threads. -/
theorem Switch.parts (h : Switch s cause s') :
    ∃ d₁ d₂, Desk.Step s.desk d₁ ∧ d₁.members = s.desk.members ∧
    Desk.Step d₁ d₂ ∧ Desk.Step d₂ s'.desk ∧ d₂.members = s'.desk.members ∧ d₂.rq = s'.desk.rq := by
  obtain ⟨nowNs, -, hq⟩ := h
  refine ⟨s.desk.clock nowNs, _, .updateClock nowNs, rfl, .pick cause.mode hq,
    .elsewhere _ fun t _ => ?_, rfl, rfl⟩
  split
  · rfl
  · exact switchTo_onRunqueue ..

/-- So is every step. -/
theorem Step.parts (h : Step may s s') :
    ∃ d₁ d₂, Desk.Step s.desk d₁ ∧ d₁.members = s.desk.members ∧
    Desk.Step d₁ d₂ ∧ Desk.Step d₂ s'.desk ∧ d₂.members = s'.desk.members ∧ d₂.rq = s'.desk.rq := by
  have hnothing : ∀ d : Desk, Desk.Step d d := fun d => .elsewhere d.threads fun _ _ => rfl
  cases h with
  | switch cause _ hswitch => exact hswitch.parts
  | place t nowNs here ht hcurrent hq =>
    refine ⟨s.desk.clock nowNs, _, .updateClock nowNs, rfl, .enqueue t ht ?_ hq,
      hnothing _, rfl, rfl⟩
    show t ≠ (s.desk.rq.updateClockLocked nowNs).current
    unfold updateClockLocked
    split <;> exact hcurrent
  | tick nowNs _ => exact ⟨_, _, .updateClock nowNs, rfl, hnothing _, hnothing _, rfl, rfl⟩
  | steal enough hq => exact ⟨_, _, hnothing _, rfl, .steal enough hq, hnothing _, rfl, rfl⟩
  | remove t hmay hq => exact ⟨_, _, hnothing _, rfl, .remove t hmay hq, hnothing _, rfl, rfl⟩
  | reclass t i ht hcurrent hi =>
    exact ⟨_, _, hnothing _, rfl, .reclass t i ht hcurrent hi, hnothing _, rfl, rfl⟩
  | elsewhere threads hsame =>
    exact ⟨_, _, hnothing _, rfl, .elsewhere threads hsame, hnothing _, rfl, rfl⟩

theorem ok_step (hok : s.desk.Ok) (h : Step may s s') : s'.desk.Ok := by
  obtain ⟨d₁, d₂, h₁, -, h₂, h₃, -⟩ := h.parts
  exact ((hok.step h₁).step h₂).step h₃

theorem reachable_ok (h : (system may).Reachable s) : s.desk.Ok :=
  h.invariant (I := fun s => s.desk.Ok) (fun s (hinit : s.desk.Init ∧ _) => hinit.1.ok)
    fun _ _ hok hstep => ok_step hok hstep

theorem leads_step (hok : s.desk.Ok) (h : Step may s s') (hl : l < rtLevels)
    (hleads : s.desk.Leads t l)
    (ht : t ∈ s.desk.members) (ht' : t ∈ s'.desk.members) : s'.desk.Leads t l := by
  obtain ⟨d₁, d₂, h₁, hmembers₁, h₂, h₃, hmembers₂, -⟩ := h.parts
  have hleads₁ := hleads.step hok hl h₁ (hmembers₁ ▸ ht)
  have hleads₂ := hleads₁.step (hok.step h₁) hl h₂ (hmembers₂ ▸ ht')
  exact hleads₂.step ((hok.step h₁).step h₂) hl h₃ ht'

theorem precedes_step (hok : s.desk.Ok) (h : Step may s s') (hl : l < rtLevels)
    (hprecedes : s.desk.Precedes u t l)
    (hu' : u ∈ s'.desk.members) (ht' : t ∈ s'.desk.members ∨ s'.current = t) :
    s'.desk.Precedes u t l := by
  obtain ⟨d₁, d₂, h₁, hmembers₁, h₂, h₃, hmembers₂, hrq⟩ := h.parts
  have hu₁ : u ∈ d₁.members := hmembers₁ ▸ hok.mem_of_line hl hprecedes.mem.1
  have ht₁ : t ∈ d₁.members := hmembers₁ ▸ hok.mem_of_line hl hprecedes.mem.2
  have ht₂ : t ∈ d₂.members ∨ d₂.rq.current = t := by
    rw [hmembers₂, hrq]
    exact ht'
  have hprecedes₁ := hprecedes.step hok hl h₁ hu₁ (.inl ht₁)
  have hprecedes₂ := hprecedes₁.step (hok.step h₁) hl h₂ (hmembers₂ ▸ hu') ht₂
  exact hprecedes₂.step ((hok.step h₁).step h₂) hl h₃ hu' ht'

/-- The thread stays first in line while it waits. -/
theorem leads_waits (hl : l < rtLevels) (hok : s₁.desk.Ok) (hleads : s₁.desk.Leads t l)
    (h : Waits may t s₁ s₂) : s₂.desk.Ok ∧ s₂.desk.Leads t l := by
  induction h with
  | refl => exact ⟨hok, hleads⟩
  | tail _ hstep ih =>
    exact ⟨ok_step ih.1 hstep.1, leads_step ih.1 hstep.1 hl ih.2 hstep.2.1 hstep.2.2⟩

/-- The other thread stays behind while the first one waits. -/
theorem precedes_waits (hl : l < rtLevels) (hok : s₁.desk.Ok) (hcurrent : s₁.current ≠ t)
    (hprecedes : u ∈ s₁.desk.members → s₁.desk.Precedes u t l) (h : WaitsBefore may u t s₁ s₂) :
    s₂.desk.Ok ∧ s₂.current ≠ t ∧ (u ∈ s₂.desk.members → s₂.desk.Precedes u t l) := by
  induction h with
  | refl => exact ⟨hok, hcurrent, hprecedes⟩
  | @tail a b _ hstep ih =>
    obtain ⟨hoka, -, hpa⟩ := ih
    obtain ⟨hstep, hua, hub, htb⟩ := hstep
    have hokb := ok_step hoka hstep
    have hpb := precedes_step hoka hstep hl (hpa hua) hub htb
    exact ⟨hokb, (ne_of_mem_of_not_mem (hokb.mem_of_line hl hpb.mem.2) hokb.current_notin).symm,
      fun _ => hpb⟩

/-- The clock leaves who runs and who waits alone. -/
theorem clock_rq (d : Desk) (nowNs : Nat) :
    (d.clock nowNs).rq.current = d.rq.current ∧ (d.clock nowNs).rq.realtime = d.rq.realtime := by
  refine ⟨?_, updateClockLocked_realtime _ _⟩
  show (d.rq.updateClockLocked nowNs).current = d.rq.current
  unfold updateClockLocked
  split <;> rfl

/-- Whoever waits after a switch could have gone on. -/
theorem runnable_of_waits {d : Desk} (hok : d.Ok) {mode : PickMode} {next : Nat}
    (h : d.rq.current ∈ (if next = d.rq.current then d.members
      else (if runnable d.info d.threads d.rq.current mode then insert d.rq.current d.members
        else d.members).erase next)) : runnable d.info d.threads d.rq.current mode = true := by
  by_contra hnot
  rw [if_neg hnot] at h
  split at h
  · exact hok.current_notin h
  · exact hok.current_notin (Finset.mem_of_mem_erase h)

/-- **A thread that has to give way is first in line**, if it was preempted or nobody else waits at
its level. -/
theorem Switch.leads (hok : s.desk.Ok) (h : Switch s cause s₁) (hcause : cause ≠ .yield)
    (hl : rtLevel (s.desk.info s.current) < rtLevels) (hwaits : s.current ∈ s₁.desk.members)
    (halone : Alone s cause) : s₁.desk.Leads s.current (rtLevel (s.desk.info s.current)) := by
  obtain ⟨nowNs, -, hq⟩ := h
  have hok₁ : (s.desk.clock nowNs).Ok := hok.step (.updateClock nowNs)
  have hok₂ := hok₁.step (.pick cause.mode hq)
  obtain ⟨hcurrent, hrealtime⟩ := clock_rq s.desk nowNs
  unfold Alone at halone
  unfold current at hl hwaits halone ⊢
  rw [← hrealtime, ← highestRtLevel_congr hrealtime] at halone
  rw [← hcurrent] at hl hwaits halone ⊢
  have hstays := runnable_of_waits hok₁ hwaits
  have hmode : cause.mode ≠ .yield := by
    cases cause with
    | yield => exact absurd rfl hcause
    | _ => rintro ⟨⟩
  obtain ⟨hfirst, hrunning⟩ := hok₁.pick_leads hq hmode hl hstays
    (ne_of_mem_of_not_mem hwaits hok₂.current_notin).symm (by
      intro hnot
      have hvoluntary : cause.mode = .voluntary := by
        cases hm : cause.mode with
        | voluntary => rfl
        | yield => exact absurd hm hmode
        | preempted => exact absurd hm hnot
      have hstate : (s.desk.threads (s.desk.clock nowNs).rq.current).state = .running := by
        rw [runnable, hvoluntary, Bool.and_eq_true] at hstays
        have hstate := hstays.2
        rw [decide_eq_false (by simp), Bool.false_or, decide_eq_true_eq] at hstate
        exact hstate
      exact halone hvoluntary hstate hl)
  exact ⟨hfirst, hrunning⟩

/-- **A thread that yields is behind all others of its level.** -/
theorem Switch.precedes (hok : s.desk.Ok) (h : Switch s .yield s₁)
    (hidle : (s.desk.info s.current).isIdle = false)
    (hstate : (s.desk.threads s.current).state = .running)
    (hl : rtLevel (s.desk.info s.current) < rtLevels)
    (hu : u ∈ s.desk.members) (hlevel : rtLevel (s.desk.info u) = rtLevel (s.desk.info s.current)) :
    s₁.current ≠ s.current ∧
      (u ∈ s₁.desk.members → s₁.desk.Precedes u s.current (rtLevel (s.desk.info s.current))) := by
  have hnotin := hok.current_notin
  obtain ⟨nowNs, -, hq⟩ := h
  have hok₁ : (s.desk.clock nowNs).Ok := hok.step (.updateClock nowNs)
  have hok₂ := hok₁.step (.pick Cause.yield.mode hq)
  obtain ⟨hcurrent, -⟩ := clock_rq s.desk nowNs
  unfold current at hidle hstate hl hlevel ⊢
  rw [← hcurrent] at hnotin hidle hstate hl hlevel ⊢
  have hstays :
      runnable s.desk.info s.desk.threads (s.desk.clock nowNs).rq.current .yield = true := by
    rw [runnable, hidle, hstate]
    rfl
  have hpair := hok₁.pick_precedes hq hl hstays hu hlevel
  constructor
  · intro hsame
    -- then it would run and wait
    have hmem := (hpair (hsame.trans_ne (ne_of_mem_of_not_mem hu hnotin).symm)).subset
      (List.mem_cons_of_mem _ List.mem_cons_self)
    exact hok₂.current_notin (hsame ▸ hok₂.mem_of_line hl hmem)
  · intro hu₁
    exact hpair (ne_of_mem_of_not_mem hu₁ hok₂.current_notin).symm

end Runs

/-- **Threads of a level run in the order of their FIFO**, in every run in which nobody who has to
give way in mode `Voluntary` has others of the level waiting. -/
theorem inLine_of_alone (s : Cpu) (h : (system Alone).Reachable s) : InLine Alone s := by
  have hok := reachable_ok h
  constructor
  · intro cause s₁ s₂ halone hswitch hcause hl hwaits hruns
    have hok₁ : s₁.desk.Ok := ok_step hok (.switch cause halone hswitch)
    have hleads := hswitch.leads hok hcause hl hwaits halone
    exact (leads_waits hl hok₁ hleads hruns).2.running
  · intro u s₁ s₂ halone hswitch hidle hstate hl hu hlevel hruns
    have hok₁ : s₁.desk.Ok := ok_step hok (.switch .yield halone hswitch)
    obtain ⟨hcurrent, hprecedes⟩ := hswitch.precedes hok hidle hstate hl hu hlevel
    exact (precedes_waits hl hok₁ hcurrent hprecedes hruns).2.1

/-- Thread 0 is the idle thread, 1 and 2 are of one level, and 3 is of a higher one. -/
def rivals : Cpu where
  id := 0
  desk :=
    { info t := ⟨if t = 0 then .idle else if t = 3 then .testRunner else .realTime, t == 0, false⟩
      threads _ := ⟨⟨.created, false, false⟩, 0, ⟨0, 1024, nice0Weight_pos, 2 ^ 32, 1000, 0, 0, 0⟩⟩
      rq := .initialized 0
      members := ∅
      fits := True }
  preemptPending := false

/-- Thread 1 runs while the other two wait. -/
theorem inLine_of_alone_rivals :
    ∃ s, (system Alone).Reachable s ∧ s.current = 1 ∧ 2 ∈ s.desk.members ∧
    3 ∈ s.desk.members ∧ s.preemptPending = true ∧ InLine Alone s := by
  have h : (system Alone).Reachable rivals := .init ⟨⟨⟨0, rfl, rfl⟩, rfl, trivial⟩, rfl⟩
  have h := h.step (Step.place 1 0 true (Finset.notMem_empty 1) (by decide) rfl)
  have h := h.step (Step.switch .schedule (fun _ _ hl => absurd hl (by decide)) (.mk 0 trivial rfl))
  have h := h.step (Step.place 2 0 true (by decide) (by decide) rfl)
  have h := h.step (Step.place 3 0 true (by decide) (by decide) rfl)
  exact ⟨_, h, rfl, by decide, by decide, rfl, inLine_of_alone _ h⟩

/-- `prepare_to_block` of the running thread. -/
def prepareToBlock (s : Cpu) : Cpu :=
  { s with
    desk := { s.desk with threads := s.desk.threads.modify s.current (Thread.setState .blocked) } }

theorem Step.prepareToBlock (may : Cpu → Cause → Prop) (s : Cpu) : Step may s s.prepareToBlock := by
  refine .elsewhere _ fun t _ => ?_
  by_cases ht : t = s.current
  · subst ht
    rw [Threads.modify_self]
    rfl
  · rw [Threads.modify_of_ne ht]

/-- Thread 1 gives way, thread 2 of its level runs later on, and thread 1 waits all the time. -/
def Overtaken (s : Cpu) : Prop :=
  ∃ s₁ s₂, Switch s .rescheduleIfNeeded s₁ ∧ 1 ∈ s₁.desk.members ∧ Waits (fun _ _ => True) 1 s₁ s₂ ∧
    s₂.current = 2 ∧ rtLevel (s₂.desk.info 2) = rtLevel (s.desk.info 1)

theorem overtaken {s s₁ s₂ : Cpu} (hlost : Switch s .rescheduleIfNeeded s₁)
    (hnext : Switch s₁.prepareToBlock .schedule s₂) (h₁ : 1 ∈ s₁.desk.members)
    (h₂ : 1 ∈ s₂.desk.members)
    (hcurrent : s₂.current = 2) (hlevel : rtLevel (s₂.desk.info 2) = rtLevel (s.desk.info 1)) :
    s.Overtaken := by
  refine ⟨s₁, s₂, hlost, h₁, ?_, hcurrent, hlevel⟩
  have hblocks : Waits (fun _ _ => True) 1 s₁ s₁.prepareToBlock :=
    .single ⟨Step.prepareToBlock _ s₁, h₁, h₁⟩
  exact hblocks.tail ⟨.switch .schedule trivial hnext, h₁, h₂⟩

theorem Overtaken.not_inLine {s : Cpu} (h : s.Overtaken) (hcurrent : s.current = 1)
    (hl : rtLevel (s.desk.info 1) < rtLevels) : ¬ InLine (fun _ _ => True) s := by
  intro hinLine
  obtain ⟨s₁, s₂, hlost, h₁, hwaits, hnext, hlevel⟩ := h
  rw [← hcurrent] at hl h₁ hwaits hlevel
  have hne := hinLine.lost .rescheduleIfNeeded s₁ s₂ trivial hlost nofun hl h₁ hwaits
  rw [hnext] at hne
  exact hne hlevel

/-- **`reschedule_if_needed` puts a thread behind the others of its level.**  Thread 1 runs and
wakes thread 3, which outranks it; thread 2 waits already. Once thread 3 blocks, thread 2 runs while
thread 1 still waits. -/
theorem goes_to_the_end :
    ∃ s, (system fun _ _ => True).Reachable s ∧ s.current = 1 ∧ 2 ∈ s.desk.members ∧
    rtLevel (s.desk.info 2) = rtLevel (s.desk.info 1) ∧
    (s.desk.threads 1).state = .running ∧ s.Overtaken ∧ ¬ InLine (fun _ _ => True) s := by
  have h : (system fun _ _ => True).Reachable rivals := .init ⟨⟨⟨0, rfl, rfl⟩, rfl, trivial⟩, rfl⟩
  have h := h.step (Step.place 1 0 true (Finset.notMem_empty 1) (by decide) rfl)
  have h := h.step (Step.switch .schedule trivial (.mk 0 trivial rfl))
  have h := h.step (Step.place 2 0 true (by decide) (by decide) rfl)
  have h := h.step (Step.place 3 0 true (by decide) (by decide) rfl)
  refine ⟨_, h, rfl, by decide, rfl, rfl, ?_⟩
  apply (and_iff_left_of_imp fun hovertaken : Overtaken _ =>
    hovertaken.not_inLine rfl (by decide)).2
  exact overtaken (.mk 0 ⟨rfl, rfl⟩ rfl) (.mk 0 trivial rfl) (by decide) (by decide) rfl rfl

end Cpu

end Erebus.Sched
