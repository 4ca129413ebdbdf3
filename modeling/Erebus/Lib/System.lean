import Mathlib.Tactic

/-!
# Transition systems

States, the ones a system may start in, and what it may do next. Several parties that take turns in
any order are one system whose steps are the steps of all of them.

* `Reachable`: the states of all runs.
* `Reachable.invariant`: the induction rule: what holds at the start and survives every step holds
  always.
* `update_keeps`, `update_forall`: one of several parties changes its state.
-/

/-- A transition system on the states `σ`. -/
structure System (σ : Type*) where
  init : σ → Prop
  step : σ → σ → Prop

namespace System

variable {σ : Type*} (S : System σ)

/-- The states of all runs. -/
inductive Reachable : σ → Prop
  | init {s : σ} : S.init s → Reachable s
  | step {s s' : σ} : Reachable s → S.step s s' → Reachable s'

variable {S}

/-- **The invariant rule.** -/
theorem Reachable.invariant {I : σ → Prop} (hinit : ∀ s, S.init s → I s)
    (hstep : ∀ s s', I s → S.step s s' → I s') {s : σ} (h : S.Reachable s) : I s := by
  induction h with
  | init h => exact hinit _ h
  | step _ h ih => exact hstep _ _ ih h

end System

section

variable {ι α β : Type*} [DecidableEq ι] {f : ι → α} {a : ι} {x : α}

/-- What the new state has in common with the old one is the same for everybody. -/
theorem update_keeps (F : α → β) (h : F x = F (f a)) (b : ι) :
    F (Function.update f a x b) = F (f b) := by
  by_cases hb : b = a
  · rw [hb, Function.update_self, h]
  · rw [Function.update_of_ne hb]

theorem update_forall {p : α → Prop} (hx : p x) (hf : ∀ b, p (f b)) :
    ∀ b, p (Function.update f a x b) :=
  (Function.forall_update_iff f fun _ => p).2 ⟨hx, fun b _ => hf b⟩

end
