import Mathlib.Tactic

/-!
# Loops with an early exit

A round of a loop either leaves a state for the next round or answers.

* `run body fuel`: repeat until a round answers; `none` only if `fuel` rounds were not enough.
* `run_ok`: an invariant and a number that gets smaller in every round give an answer.
* `run_of_some`: what an invariant says about an answer, without a reason why there is one.
* `upTo body n`: a counted loop that a round may leave early.
* `upTo_ok`: the invariant rule for it.
* `times body n`, `times_ok`: the same for a loop that always runs to its end.
-/

namespace Loop

variable {σ ρ : Type*}

/-- Repeat `body` until it answers, at most `fuel` times. -/
def run (body : σ → σ ⊕ ρ) : Nat → σ → Option ρ
  | 0, _ => none
  | fuel + 1, s =>
    match body s with
    | .inl s' => run body fuel s'
    | .inr r => some r

/-- What holds before every round, and a number that every round lowers: the loop answers. -/
theorem run_ok {body : σ → σ ⊕ ρ} (Inv : σ → Prop) (Q : ρ → Prop) (m : σ → Nat)
    (hround : ∀ s, Inv s → Sum.elim (fun s' => Inv s' ∧ m s' < m s) Q (body s)) :
    ∀ {fuel : Nat} {s : σ}, Inv s → m s < fuel → ∃ r, run body fuel s = some r ∧ Q r := by
  intro fuel
  induction fuel with
  | zero => exact fun _ hlt => absurd hlt (Nat.not_lt_zero _)
  | succ fuel ih =>
    intro s hinv hlt
    have hstep := hround s hinv
    rw [run]
    cases hbody : body s with
    | inl s' =>
      rw [hbody] at hstep
      obtain ⟨hinv', hless⟩ := hstep
      exact ih hinv' (by omega)
    | inr r =>
      rw [hbody] at hstep
      exact ⟨r, rfl, hstep⟩

theorem run_of_some {body : σ → σ ⊕ ρ} (Inv : σ → Prop) (Q : ρ → Prop)
    (hround : ∀ s, Inv s → Sum.elim Inv Q (body s)) :
    ∀ {fuel : Nat} {s : σ} {r : ρ}, Inv s → run body fuel s = some r → Q r := by
  intro fuel
  induction fuel with
  | zero => exact nofun
  | succ fuel ih =>
    intro s r hinv hrun
    have hstep := hround s hinv
    rw [run] at hrun
    cases hbody : body s with
    | inl s' =>
      rw [hbody] at hrun hstep
      exact ih hstep hrun
    | inr r' =>
      rw [hbody] at hrun hstep
      cases hrun
      exact hstep

/-- Rounds `i`, `i + 1`, … of a counted loop, `count` of them. -/
def upToFrom (body : Nat → σ → σ ⊕ ρ) : Nat → Nat → σ → σ ⊕ ρ
  | 0, _, s => .inl s
  | count + 1, i, s =>
    match body i s with
    | .inl s' => upToFrom body count (i + 1) s'
    | .inr r => .inr r

/-- `for (i = 0; i < n; ++i)`. -/
def upTo (body : Nat → σ → σ ⊕ ρ) (n : Nat) (s : σ) : σ ⊕ ρ := upToFrom body n 0 s

theorem upToFrom_ok {body : Nat → σ → σ ⊕ ρ} {n : Nat} {Inv : Nat → σ → Prop} {Q : ρ → Prop}
    (hround : ∀ i s, i < n → Inv i s → Sum.elim (Inv (i + 1)) Q (body i s)) :
    ∀ {count i : Nat} {s : σ}, i + count = n → Inv i s →
    Sum.elim (Inv n) Q (upToFrom body count i s) := by
  intro count
  induction count with
  | zero =>
    rintro i s rfl hinv
    exact hinv
  | succ count ih =>
    intro i s hn hinv
    have hstep := hround i s (by omega) hinv
    rw [upToFrom]
    cases hbody : body i s with
    | inl s' =>
      rw [hbody] at hstep
      exact ih (by omega) hstep
    | inr r =>
      rw [hbody] at hstep
      exact hstep

/-- An invariant that may speak of the round: it holds after all rounds, or a round answered. -/
theorem upTo_ok {body : Nat → σ → σ ⊕ ρ} {n : Nat} {s : σ} (Inv : Nat → σ → Prop) (Q : ρ → Prop)
    (hround : ∀ i s, i < n → Inv i s → Sum.elim (Inv (i + 1)) Q (body i s)) (hinit : Inv 0 s) :
    Sum.elim (Inv n) Q (upTo body n s) :=
  upToFrom_ok hround (Nat.zero_add n) hinit

/-- Weaker facts about what a loop leaves. -/
theorem elim_mono {P P' : σ → Prop} {Q Q' : ρ → Prop} (hP : ∀ s, P s → P' s) (hQ : ∀ r, Q r → Q' r)
    {x : σ ⊕ ρ} (h : Sum.elim P Q x) : Sum.elim P' Q' x := by
  cases x with
  | inl s => exact hP s h
  | inr r => exact hQ r h

/-- Rounds `0`, …, `n - 1`, none of which leaves early. -/
def times (body : Nat → σ → σ) : Nat → σ → σ
  | 0, s => s
  | n + 1, s => body n (times body n s)

theorem times_ok {body : Nat → σ → σ} (Inv : Nat → σ → Prop) :
    ∀ {n : Nat} {s : σ}, (∀ i s, i < n → Inv i s → Inv (i + 1) (body i s)) → Inv 0 s →
    Inv n (times body n s) := by
  intro n
  induction n with
  | zero => exact fun _ hinit => hinit
  | succ n ih =>
    intro s hstep hinit
    apply hstep n _ (Nat.lt_succ_self n)
    exact ih (fun i s hi => hstep i s (Nat.lt_succ_of_lt hi)) hinit

end Loop
