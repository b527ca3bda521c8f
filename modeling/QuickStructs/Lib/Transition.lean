/-!
# Runs of a labelled step relation

A concurrent component is a relation `R s a s'`: in state `s` the action `a` may
lead to `s'`. Everything said about such a component is said about the states its
runs reach, so there is one notion of reachability, one induction rule for
invariants, and one way to build an explicit run out of a computable step
function — which is how a counterexample is exhibited.
-/

namespace Lib.Transition

variable {σ α : Type}

/-- The states a run of `R` can reach from `s₀`. -/
inductive Reach (R : σ → α → σ → Prop) (s₀ : σ) : σ → Prop where
  | init : Reach R s₀ s₀
  | tail {s s' : σ} {a : α} : Reach R s₀ s → R s a s' → Reach R s₀ s'

/-- The steps of `R` that meet a condition on the action and the state before it. -/
def When (C : σ → α → Prop) (R : σ → α → σ → Prop) (s : σ) (a : α) (s' : σ) : Prop :=
  C s a ∧ R s a s'

/-- The relation a partial step function computes. -/
def Of (step : σ → α → Option σ) (s : σ) (a : α) (s' : σ) : Prop := step s a = some s'

/-- A guarded step was enabled, and went where it says. -/
theorem of_guard {c : Prop} [Decidable c] {s s' : σ} (h : (if c then some s else none) = some s') :
    c ∧ s = s' := by
  rw [Option.ite_none_right_eq_some] at h
  exact ⟨h.1, Option.some.inj h.2⟩

variable {R : σ → α → σ → Prop} {s₀ s s' : σ}

/-- **The invariant rule.** What holds at the start and survives each step holds of every
run; a step may use what is known already of the states runs reach. -/
theorem Reach.invariant {I : σ → Prop} (h : Reach R s₀ s) (h0 : I s₀)
    (hstep : ∀ s a s', Reach R s₀ s → I s → R s a s' → I s') : I s := by
  induction h with
  | init => exact h0
  | tail hr hs ih => exact hstep _ _ _ hr ih hs

theorem Reach.trans (h₁ : Reach R s₀ s) (h₂ : Reach R s s') : Reach R s₀ s' := by
  induction h₂ with
  | init => exact h₁
  | tail _ hs ih => exact ih.tail hs

/-- A run of some steps is a run of more. -/
theorem Reach.mono {R' : σ → α → σ → Prop} (h : Reach R s₀ s)
    (hle : ∀ s a s', R s a s' → R' s a s') : Reach R' s₀ s := by
  induction h with
  | init => exact Reach.init
  | tail _ hs ih => exact ih.tail (hle _ _ _ hs)

/-! ## Explicit runs -/

/-- Perform a list of actions, `none` as soon as one of them is not enabled. -/
def exec (step : σ → α → Option σ) : σ → List α → Option σ
  | s, [] => some s
  | s, a :: as => (step s a).bind fun s' => exec step s' as

theorem exec_append {step : σ → α → Option σ} : ∀ {s : σ} (as bs : List α),
    exec step s (as ++ bs) = (exec step s as).bind fun s' => exec step s' bs
  | _, [], _ => rfl
  | s, a :: as, bs => by
      rw [List.cons_append, exec, exec, Option.bind_assoc]
      exact congrArg _ (funext fun s' => exec_append as bs)

theorem exec_reach {step : σ → α → Option σ} :
    ∀ {s s' : σ} (as : List α), exec step s as = some s' → Reach (Of step) s s'
  | s, s', [], h => by
      rw [exec, Option.some.injEq] at h
      subst h
      exact Reach.init
  | s, s', a :: as, h => by
      rw [exec, Option.bind_eq_some_iff] at h
      obtain ⟨s1, h1, h2⟩ := h
      exact Reach.trans (Reach.tail Reach.init h1) (exec_reach as h2)

/-- **The trace rule.** What holds of a state and the actions that led there, and goes on to hold
with each further action, holds at the end of a run. -/
theorem exec_trace {step : σ → α → Option σ} {I : List α → σ → Prop} {s s' : σ} (h0 : I [] s)
    (hstep : ∀ as s a s', I as s → step s a = some s' → I (as ++ [a]) s') (as : List α)
    (h : exec step s as = some s') : I as s' := by
  have hlater : ∀ (as done : List α) (t : σ), I done t → exec step t as = some s' →
      I (done ++ as) s' := by
    intro as
    induction as with
    | nil =>
        intro done t hi h
        rw [exec, Option.some.injEq] at h
        rw [← h, List.append_nil]
        exact hi
    | cons a as ih =>
        intro done t hi h
        rw [exec, Option.bind_eq_some_iff] at h
        obtain ⟨t', ht, h⟩ := h
        have hall := ih (done ++ [a]) t' (hstep done t a t' hi ht) h
        rw [List.append_assoc] at hall
        exact hall
  exact hlater as [] s h0 h

/-- The step function that stops where a condition fails. -/
def guarded (C : σ → α → Prop) [∀ s a, Decidable (C s a)] (step : σ → α → Option σ) (s : σ)
    (a : α) : Option σ := if C s a then step s a else none

theorem exec_reach_when {C : σ → α → Prop} [∀ s a, Decidable (C s a)] {step : σ → α → Option σ}
    {s s' : σ} (as : List α) (h : exec (guarded C step) s as = some s') :
    Reach (When C (Of step)) s s' := by
  refine (exec_reach as h).mono fun t a t' ht => ?_
  unfold Of guarded at ht
  split at ht
  · rename_i hc
    exact ⟨hc, ht⟩
  · exact absurd ht (by simp)

/-- A condition on the last state of an explicit run holds of some reachable state. -/
theorem exists_reach_of_exec {step : σ → α → Option σ} {s : σ} {p : σ → Prop} [DecidablePred p]
    (as : List α) (h : (exec step s as).any (fun s' => decide (p s')) = true) :
    ∃ s', Reach (Of step) s s' ∧ p s' := by
  cases hr : exec step s as with
  | none => rw [hr] at h; exact absurd h (by simp)
  | some s' =>
      rw [hr] at h
      exact ⟨s', exec_reach as hr, by simpa using h⟩

end Lib.Transition
