/-!
# While loops

A loop is a partial function on the variables it changes: `body s = some s'` when
the guard holds in `s` and one pass leads to `s'`, `none` when the guard fails.
`iterate` runs it with a bound on the number of passes, so it computes; the
variant rule says which bound is enough, and the invariant rule speaks of every
state the head of the loop sees, not only of the last one.

A counted loop whose rounds may fail is told by the same loop without failures.
-/

namespace Lib.Loop

variable {σ : Type}

/-- Run the loop from `s` for at most the given number of passes. -/
def iterate (body : σ → Option σ) : Nat → σ → σ
  | 0, s => s
  | n + 1, s =>
    match body s with
    | none => s
    | some s' => iterate body n s'

/-- The states in which a run from `s₀` evaluates the guard. -/
inductive Visits (body : σ → Option σ) (s₀ : σ) : σ → Prop where
  | entry : Visits body s₀ s₀
  | pass {s s' : σ} : Visits body s₀ s → body s = some s' → Visits body s₀ s'

variable {body : σ → Option σ} {s₀ s : σ}

/-- **The invariant rule.** -/
theorem Visits.invariant {I : σ → Prop} (h : Visits body s₀ s) (h0 : I s₀)
    (hpass : ∀ s s', I s → body s = some s' → I s') : I s := by
  induction h with
  | entry => exact h0
  | pass _ hb ih => exact hpass _ _ ih hb

theorem iterate_visits : ∀ (n : Nat) {s : σ}, Visits body s₀ s → Visits body s₀ (iterate body n s)
  | 0, _, h => h
  | n + 1, s, h => by
      rw [iterate]
      split
      · exact h
      · rename_i s' hb
        exact iterate_visits n (h.pass hb)

/-- What holds on entry and survives each pass holds after the loop. -/
theorem iterate_invariant {I : σ → Prop} (n : Nat) (h0 : I s)
    (hpass : ∀ s s', I s → body s = some s' → I s') : I (iterate body n s) :=
  (iterate_visits n Visits.entry).invariant h0 hpass

/-- **The variant rule.** A bound that each pass lowers is a bound on the number of
passes: after that many the guard has failed. -/
theorem iterate_exits (bound : σ → Nat) {I : σ → Prop}
    (hpass : ∀ s s', I s → body s = some s' → I s' ∧ bound s' < bound s) :
    ∀ (n : Nat) (s : σ), I s → bound s ≤ n → body (iterate body n s) = none
  | 0, s, hi, hn => by
      rw [iterate]
      cases hb : body s with
      | none => rfl
      | some s' =>
          have := (hpass s s' hi hb).2
          omega
  | n + 1, s, hi, hn => by
      rw [iterate]
      split
      · assumption
      · rename_i s' hb
        obtain ⟨hi', hlt⟩ := hpass s s' hi hb
        exact iterate_exits bound hpass n s' hi' (by omega)

/-- Once the guard has failed, more passes change nothing. -/
theorem iterate_stable (h : body s = none) : ∀ n : Nat, iterate body n s = s
  | 0 => rfl
  | n + 1 => by rw [iterate, h]

/-! ## Rounds until one fails -/

/-- A loop of which `k` rounds succeed makes its rounds, or those before the one that fails: `plain`
is the loop without failures, `left` tells how many rounds would still succeed, and `failed` which
one has not. -/
theorem rounds_eq {ρ : Type} (run : Nat → σ × ρ) (plain : Nat → σ) (left failed : Nat → ρ) (k : Nat)
    (hstart : run 0 = (plain 0, left k))
    (hround : ∀ i j, run i = (plain i, left (j + 1)) → run (i + 1) = (plain (i + 1), left j))
    (hfail : ∀ i, run i = (plain i, left 0) → run (i + 1) = (plain i, failed i))
    (hstay : ∀ i j s, run i = (s, failed j) → run (i + 1) = (s, failed j)) (i : Nat) :
    run i = if i ≤ k then (plain i, left (k - i)) else (plain k, failed k) := by
  induction i with
  | zero =>
      rw [if_pos (Nat.zero_le k)]
      exact hstart
  | succ i ih =>
      rcases Nat.lt_trichotomy i k with hlt | heq | hgt
      · have hleft : k - i = k - (i + 1) + 1 := by omega
        rw [if_pos (by omega), hleft] at ih
        rw [if_pos (by omega)]
        exact hround i _ ih
      · subst heq
        rw [if_pos (Nat.le_refl _), Nat.sub_self] at ih
        rw [if_neg (by omega)]
        exact hfail i ih
      · rw [if_neg (by omega)] at ih
        rw [if_neg (by omega)]
        exact hstay i k _ ih

end Lib.Loop
