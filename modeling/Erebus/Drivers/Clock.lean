import Erebus.Lib.System

/-!
# The system clock

A counter of fewer than 64 bits wraps. `SystemClock::widen` keeps the last value anyone was given,
and adds how far the hardware has moved since; several CPUs do so at once.

* `Clock`, `Step`: the counter, the stored value, and the calls in progress, one atomic access at a
  time.
* `late_iff`: half of the range is the future and the other half the past.
* `widen_between`: what a call returns lies between its start and its end.
-/

namespace Erebus.Drivers

/-- A reading of the clock that is under way. -/
inductive Call
  | idle
  /-- The counter was read when it stood at `taken`; `last` is what `widen` last saw. -/
  | reading (taken : Nat) (last : Option Nat)

/-- A finished one: where the counter stood at its start, what it returned, and where the counter
stood then. -/
structure Reading where
  taken : Nat
  value : Nat
  returned : Nat

/-- The true counter, which does not wrap; what `s_widened` stands for, which is the word with the
carries it has lost; the calls of all CPUs, and those that are over. -/
structure Clock where
  counter : Nat
  widened : Nat
  call : Nat → Call := fun _ => .idle
  log : List Reading := []

namespace Clock

/-- `s_backend_mask` of a counter of `b` bits. -/
def mask (b : Nat) : Nat := 2 ^ b - 1

/-- How far the hardware moved, as `widen` computes it from a raw reading. -/
def delta (b taken last : Nat) : Nat := (taken % 2 ^ b + 2 ^ 64 - last) % 2 ^ 64 &&& mask b

/-- The counter is less than half a wrap ahead of the stored value and of every reading in use. -/
structure Near (b : Nat) (s : Clock) : Prop where
  widened : s.counter < s.widened + 2 ^ (b - 1)
  calls : ∀ c taken last, s.call c = .reading taken last → s.counter < taken + 2 ^ (b - 1)

/-- `raw_ticks_slow` and `widen`, on any number of CPUs, while the counter goes on. -/
inductive Step (b : Nat) (s : Clock) : Clock → Prop
  | tick (n : Nat) : Near b { s with counter := s.counter + n } →
      Step b s { s with counter := s.counter + n }
  | read (c : Nat) : s.call c = .idle →
      Step b s { s with call := Function.update s.call c (.reading s.counter none) }
  | load (c : Nat) {taken : Nat} : s.call c = .reading taken none →
      Step b s
        { s with call := Function.update s.call c (.reading taken (some (s.widened % 2 ^ 64))) }
  /-- Another CPU raced ahead. -/
  | late (c : Nat) {taken last : Nat} : s.call c = .reading taken (some last) →
      mask b >>> 1 < delta b taken last → Step b s { s with
        call := Function.update s.call c .idle
        log := ⟨taken, last, s.counter⟩ :: s.log }
  | exchange (c : Nat) {taken last : Nat} : s.call c = .reading taken (some last) →
      ¬ mask b >>> 1 < delta b taken last → s.widened % 2 ^ 64 = last → Step b s { s with
        widened := s.widened + delta b taken last
        call := Function.update s.call c .idle
        log := ⟨taken, (last + delta b taken last) % 2 ^ 64, s.counter⟩ :: s.log }
  /-- `compare_exchange_weak` fails, for another value or for no reason. -/
  | retry (c : Nat) {taken last : Nat} : s.call c = .reading taken (some last) →
      ¬ mask b >>> 1 < delta b taken last →
      Step b s
        { s with call := Function.update s.call c (.reading taken (some (s.widened % 2 ^ 64))) }

/-- `use_backend` starts from a raw reading. -/
def system (b : Nat) : System Clock where
  init s := s.counter < 2 ^ b ∧ s = { counter := s.counter, widened := s.counter }
  step := Step b

/-! ## Half of the range -/

section

variable {b taken w : Nat}

theorem delta_add (hb : b < 64) : delta b taken (w % 2 ^ 64) + w ≡ taken [MOD 2 ^ b] := by
  have hdvd : 2 ^ b ∣ 2 ^ 64 := pow_dvd_pow 2 hb.le
  have hw := Nat.mod_lt w (show 0 < 2 ^ 64 by decide)
  rw [delta, mask, Nat.and_two_pow_sub_one_eq_mod]
  calc (taken % 2 ^ b + 2 ^ 64 - w % 2 ^ 64) % 2 ^ 64 % 2 ^ b + w
      ≡ (taken % 2 ^ b + 2 ^ 64 - w % 2 ^ 64) + w % 2 ^ 64 [MOD 2 ^ b] :=
        .add ((Nat.mod_modEq _ _).trans ((Nat.mod_modEq _ _).of_dvd hdvd))
          ((Nat.mod_modEq _ _).of_dvd hdvd).symm
    _ = taken % 2 ^ b + 2 ^ 64 := by omega
    _ ≡ taken + 0 [MOD 2 ^ b] := .add (Nat.mod_modEq _ _) (Nat.modEq_zero_iff_dvd.2 hdvd)

theorem delta_eq {v : Nat} (hb : b < 64) (hv : v + w ≡ taken [MOD 2 ^ b]) (hlt : v < 2 ^ b) :
    delta b taken (w % 2 ^ 64) = v := by
  have hdelta : delta b taken (w % 2 ^ 64) < 2 ^ b := by
    rw [delta, mask, Nat.and_two_pow_sub_one_eq_mod]
    exact Nat.mod_lt _ (Nat.two_pow_pos b)
  exact (Nat.ModEq.add_right_cancel' w ((delta_add hb).trans hv.symm)).eq_of_lt_of_lt hdelta hlt

/-- A reading less than half a wrap away from the stored value looks like the past if and only if it
is, and otherwise `widen` finds the distance. -/
theorem late_iff (hb : 1 < b ∧ b < 64) (hahead : taken < w + 2 ^ (b - 1))
    (hbehind : w < taken + 2 ^ (b - 1)) :
    (mask b >>> 1 < delta b taken (w % 2 ^ 64) ↔ taken < w) ∧
    (w ≤ taken → w + delta b taken (w % 2 ^ 64) = taken) := by
  have hpow : 2 ^ b = 2 * 2 ^ (b - 1) := by
    rw [← Nat.pow_succ', Nat.succ_eq_add_one, Nat.sub_add_cancel hb.1.le]
  rw [mask, Nat.shiftRight_eq_div_pow]
  rcases Nat.lt_or_ge taken w with hlt | hge
  · have hv : taken + 2 ^ b - w + w ≡ taken [MOD 2 ^ b] := by
      rw [Nat.sub_add_cancel (by omega)]
      exact Nat.add_modEq_right
    rw [delta_eq hb.2 hv (by omega)]
    omega
  · rw [delta_eq hb.2 (by rw [Nat.sub_add_cancel hge]) (by omega)]
    omega

end

/-! ## Every run -/

/-- What holds of a call. -/
def CallOk (b counter : Nat) : Call → Prop
  | .idle => True
  | .reading taken last => (taken ≤ counter ∧ counter < taken + 2 ^ (b - 1)) ∧
      ∀ word ∈ last, ∃ w ≤ counter, word = w % 2 ^ 64 ∧ taken < w + 2 ^ (b - 1)

/-- The value is one the true counter had between the start and the end, in 64 bits. -/
def Between (r : Reading) : Prop := ∃ v, r.taken ≤ v ∧ v ≤ r.returned ∧ r.value = v % 2 ^ 64

structure Ok (b : Nat) (s : Clock) : Prop where
  behind : s.widened ≤ s.counter
  near : s.counter < s.widened + 2 ^ (b - 1)
  calls : ∀ c, CallOk b s.counter (s.call c)
  log : ∀ r ∈ s.log, Between r

section

variable {b taken : Nat} {s s' : Clock}

theorem CallOk.tick {n : Nat} {call : Call} (h : CallOk b s.counter call)
    (hnear : ∀ taken last, call = .reading taken last → s.counter + n < taken + 2 ^ (b - 1)) :
    CallOk b (s.counter + n) call := by
  cases call with
  | idle => trivial
  | reading taken last =>
    refine ⟨⟨Nat.le_add_right_of_le h.1.1, hnear taken last rfl⟩, fun word hword => ?_⟩
    obtain ⟨w, hw, hword⟩ := h.2 word hword
    exact ⟨w, Nat.le_add_right_of_le hw, hword⟩

/-- A call that has just looked at the stored value. -/
theorem Ok.loaded (h : Ok b s) (htaken : taken ≤ s.counter ∧ s.counter < taken + 2 ^ (b - 1)) :
    CallOk b s.counter (.reading taken (some (s.widened % 2 ^ 64))) := by
  refine ⟨htaken, ?_⟩
  rintro _ ⟨⟩
  exact ⟨s.widened, h.behind, rfl, htaken.1.trans_lt h.near⟩

theorem Ok.step (hb : 1 < b ∧ b < 64) (h : Ok b s) (hstep : Step b s s') : Ok b s' := by
  cases hstep with
  | tick n hnear =>
    exact { h with
      behind := h.behind.trans (Nat.le_add_right _ _)
      near := hnear.widened
      calls := fun c => (h.calls c).tick (hnear.calls c) }
  | read c _ =>
    exact { h with
      calls := update_forall
        ⟨⟨le_rfl, Nat.lt_add_of_pos_right (Nat.two_pow_pos _)⟩, nofun⟩ h.calls }
  | load c hcall =>
    have hok := h.calls c
    rw [hcall] at hok
    exact { h with calls := update_forall (h.loaded hok.1) h.calls }
  | late c hcall hlate =>
    have hok := h.calls c
    rw [hcall] at hok
    obtain ⟨⟨-, hnear⟩, hword⟩ := hok
    obtain ⟨w, hw, rfl, hahead⟩ := hword _ rfl
    have hlt := (late_iff hb hahead (hw.trans_lt hnear)).1.1 hlate
    exact { h with
      calls := update_forall trivial h.calls
      log := List.forall_mem_cons.2 ⟨⟨w, hlt.le, hw, rfl⟩, h.log⟩ }
  | exchange c hcall hlate heq =>
    subst heq
    have hok := h.calls c
    rw [hcall] at hok
    obtain ⟨⟨hle, hnear⟩, -⟩ := hok
    obtain ⟨hiff, hdelta⟩ := late_iff hb (hle.trans_lt h.near) (h.behind.trans_lt hnear)
    have hdelta := hdelta (Nat.le_of_not_lt (mt hiff.2 hlate))
    refine ⟨hdelta.trans_le hle, ?_, update_forall trivial h.calls,
      List.forall_mem_cons.2 ⟨?_, h.log⟩⟩
    · show s.counter < s.widened + _ + _
      rwa [hdelta]
    · refine ⟨_, le_rfl, hle, ?_⟩
      rw [Nat.mod_add_mod, hdelta]
  | retry c hcall _ =>
    have hok := h.calls c
    rw [hcall] at hok
    exact { h with calls := update_forall (h.loaded hok.1) h.calls }

theorem reachable_ok (hb : 1 < b ∧ b < 64) (h : (system b).Reachable s) : Ok b s := by
  refine h.invariant (fun s hinit => ?_) fun _ _ => Ok.step hb
  rw [hinit.2]
  exact ⟨le_rfl, Nat.lt_add_of_pos_right (Nat.two_pow_pos _), fun _ => trivial, nofun⟩

end

/-- **The clock in every run.**  While the counter stays less than half a wrap ahead of the stored
value and of the readings in use, every call returns a value between the true counter at its start
and at its end, so that no value is less than one that was returned before the call started. -/
theorem widen_between (b : Nat) (hb : 1 < b ∧ b < 64) (s : Clock) (h : (system b).Reachable s) :
    (∀ r ∈ s.log, ∃ v, r.taken ≤ v ∧ v ≤ r.returned ∧ r.value = v % 2 ^ 64) ∧
      ∀ r ∈ s.log, ∀ r' ∈ s.log, r'.returned < 2 ^ 64 → r.returned ≤ r'.taken →
      r.value ≤ r'.value := by
  have hok := reachable_ok hb h
  refine ⟨hok.log, fun r hr r' hr' hsmall hbefore => ?_⟩
  obtain ⟨v, -, hv, hvalue⟩ := hok.log r hr
  obtain ⟨v', hv', hle, hvalue'⟩ := hok.log r' hr'
  rw [hvalue, hvalue', Nat.mod_eq_of_lt (a := v') (by omega)]
  exact (Nat.mod_le _ _).trans (by omega)

/-- The PM timer wraps between two readings. -/
theorem widen_between_wrap : ∃ s, (system 24).Reachable s ∧ s.log = [⟨2 ^ 24, 2 ^ 24, 2 ^ 24⟩] ∧
    ∃ v, 2 ^ 24 ≤ v ∧ v ≤ 2 ^ 24 ∧ 2 ^ 24 = v % 2 ^ 64 := by
  have h : (system 24).Reachable ⟨2 ^ 24 - 1, 2 ^ 24 - 1, fun _ => .idle, []⟩ :=
    .init ⟨by decide, rfl⟩
  have h := h.step (Step.tick 1 ⟨by decide, nofun⟩)
  have h := h.step (Step.read 0 rfl)
  have h := h.step (Step.load 0 rfl)
  have h := h.step (Step.exchange 0 rfl (by decide) rfl)
  exact ⟨_, h, rfl, (widen_between 24 (by decide) _ h).1 _ (List.mem_singleton_self _)⟩

end Clock
end Erebus.Drivers
