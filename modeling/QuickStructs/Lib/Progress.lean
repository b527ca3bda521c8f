import Mathlib.Algebra.Ring.Nat
import QuickStructs.Lib.Transition

/-!
# Progress, with a bound

Safety says what no run ever reaches. That something is reached in the end depends on who gets
to move, and is said here of finite runs: a run in which this one moves so often comes past a
state of that kind. No assumption on the scheduler is needed, and a fair one makes every such
run happen. There are four rules. With a rank, each move of the one that matters brings the
goal nearer and no other move takes it away; with an account, each move that counts adds one to
a quantity of the state; with a budget, each move costs one, and so a run ends; in rounds, each
round does a part of what is left.
-/

namespace Lib.Progress

open Transition

variable {σ α : Type} {step : σ → α → Option σ} {s s' : σ} {a : α} {as : List α} {I goal : σ → Prop}

/-- Somewhere on the way, its two ends included, the goal is met. -/
def Passes (step : σ → α → Option σ) (goal : σ → Prop) (s : σ) (as : List α) : Prop :=
  ∃ n s', exec step s (as.take n) = some s' ∧ goal s'

theorem Passes.here (h : goal s) : Passes step goal s as := ⟨0, s, rfl, h⟩

theorem Passes.later (hs : step s a = some s') (h : Passes step goal s' as) :
    Passes step goal s (a :: as) := by
  obtain ⟨n, t, hn, ht⟩ := h
  refine ⟨n + 1, t, ?_, ht⟩
  rw [List.take_succ_cons, exec, hs]
  exact hn

theorem exec_cons (h : exec step s (a :: as) = some s') :
    ∃ s₁, step s a = some s₁ ∧ exec step s₁ as = some s' := by
  rw [exec, Option.bind_eq_some_iff] at h
  exact h

/-- A goal that is not given up is met at the end. -/
theorem Passes.last (h : Passes step goal s as) (hrun : exec step s as = some s')
    (hkeep : ∀ s a s', goal s → step s a = some s' → goal s') : goal s' := by
  obtain ⟨n, t, hn, ht⟩ := h
  rw [← List.take_append_drop n as, exec_append, hn] at hrun
  exact (exec_reach (as.drop n) hrun).invariant ht fun s a s' _ => hkeep s a s'

/-- One if the move counts. -/
def credit (mine : α → Bool) (a : α) : Nat := if mine a then 1 else 0

theorem countP_cons_credit (mine : α → Bool) (a : α) (as : List α) :
    (a :: as).countP mine = as.countP mine + credit mine a := List.countP_cons

/-- **The rank rule.** -/
theorem passes_of_rank (rank : σ → Nat) (mine : α → Bool)
    (hstep : ∀ s a s', I s → step s a = some s' →
      goal s' ∨ I s' ∧ rank s' + credit mine a ≤ rank s) :
    ∀ (as : List α) {s s' : σ}, I s → exec step s as = some s' → rank s < as.countP mine →
      Passes step goal s as := by
  intro as
  induction as with
  | nil =>
      intro s s' _ _ hcount
      exact absurd hcount (Nat.not_lt_zero _)
  | cons a as ih =>
      intro s s' hi hrun hcount
      obtain ⟨s₁, hs, hrest⟩ := exec_cons hrun
      rw [countP_cons_credit] at hcount
      rcases hstep s a s₁ hi hs with hgoal | ⟨hi', hrank⟩
      · exact .later hs (.here hgoal)
      · exact .later hs (ih hi' hrest (by omega))

/-- **The account rule**, for runs of actions of one kind. -/
theorem exec_counts (pot : σ → Nat) (mine : α → Bool) {C : α → Prop}
    (hstep : ∀ s a s', I s → C a → step s a = some s' → I s' ∧ pot s' = pot s + credit mine a) :
    ∀ (as : List α) {s s' : σ}, I s → (∀ a ∈ as, C a) → exec step s as = some s' →
      I s' ∧ pot s' = pot s + as.countP mine := by
  intro as
  induction as with
  | nil =>
      intro s s' hi _ hrun
      rw [exec, Option.some.injEq] at hrun
      subst hrun
      exact ⟨hi, rfl⟩
  | cons a as ih =>
      intro s s' hi hall hrun
      obtain ⟨s₁, hs, hrest⟩ := exec_cons hrun
      obtain ⟨hi₁, hpot⟩ := hstep s a s₁ hi (hall a List.mem_cons_self) hs
      obtain ⟨hi', hpot'⟩ := ih hi₁ (fun b hb => hall b (List.mem_cons_of_mem _ hb)) hrest
      refine ⟨hi', ?_⟩
      calc pot s' = pot s + credit mine a + as.countP mine := by rw [hpot', hpot]
        _ = pot s + (a :: as).countP mine := by rw [countP_cons_credit]; omega

/-- **The budget rule**: where each move costs at least one, a run is no longer than what there was
and what its moves brought. -/
theorem exec_paid (pot : σ → Nat) (brings : α → Nat)
    (hstep : ∀ s a s', step s a = some s' → pot s' + 1 ≤ pot s + brings a) :
    ∀ (as : List α) {s s' : σ}, exec step s as = some s' →
      as.length + pot s' ≤ pot s + (as.map brings).sum := by
  intro as
  induction as with
  | nil =>
      intro s s' hrun
      rw [exec, Option.some.injEq] at hrun
      subst hrun
      exact Nat.le_of_eq (Nat.zero_add _)
  | cons a as ih =>
      intro s s' hrun
      obtain ⟨s₁, hs, hrest⟩ := exec_cons hrun
      have hone := hstep s a s₁ hs
      have hlater := ih hrest
      rw [List.length_cons, List.map_cons, List.sum_cons]
      omega

/-- Round after round, each of them one that is fair in view of where it ends. -/
inductive Rounds (step : σ → α → Option σ) (fair : List α → σ → Prop) : σ → List (List α) → σ → Prop
  where
  | nil (s : σ) : Rounds step fair s [] s
  | cons {s s₁ s' : σ} {r : List α} {rs : List (List α)} (hr : exec step s r = some s₁)
      (hfair : fair r s₁) (hrs : Rounds step fair s₁ rs s') : Rounds step fair s (r :: rs) s'

/-- **The rounds rule.** -/
theorem Rounds.left {fair : List α → σ → Prop} {left : σ → Nat} {rs : List (List α)}
    (hround : ∀ s r s', I s → exec step s r = some s' → fair r s' → I s' ∧ left s' ≤ left s - 1)
    (h : Rounds step fair s rs s') : I s → I s' ∧ left s' ≤ left s - rs.length := by
  induction h with
  | nil s => exact fun hi => ⟨hi, Nat.le_refl _⟩
  | cons hr hfair _ ih =>
      intro hi
      obtain ⟨hi', hleft⟩ := hround _ _ _ hi hr hfair
      obtain ⟨hi'', hrest⟩ := ih hi'
      refine ⟨hi'', ?_⟩
      rw [List.length_cons]
      omega

end Lib.Progress
