import Mathlib.Data.Option.Basic

/-!
# What a lock is for

A lock has at most one holder. It is acquired when it is free and released by its
holder, and that is all it does. An implementation is measured against this: whatever
its threads go through on the way, the ones that believe they own the lock must be the
holder of the abstract lock, and nobody else.
-/

namespace Lib.Lock

variable {T : Type}

/-- What can happen to a lock, known by its holder. -/
inductive Does : Option T → Option T → Prop where
  | nothing (holder : Option T) : Does holder holder
  | acquire (t : T) : Does none (some t)
  | release (t : T) : Does (some t) none

/-- Those that believe they own the lock are its holder. -/
def Agrees (owns : T → Prop) (holder : Option T) : Prop := ∀ t, owns t ↔ holder = some t

variable {owns owns' : T → Prop} {holder : Option T} {t u : T}

theorem Agrees.unique (h : Agrees owns holder) (ht : owns t) (hu : owns u) : t = u := by
  have hsome : holder = some t := (h t).mp ht
  rw [(h u).mp hu] at hsome
  exact (Option.some.inj hsome).symm

theorem Agrees.held_iff (h : Agrees owns holder) : holder.isSome = true ↔ ∃ t, owns t := by
  rw [Option.isSome_iff_exists]
  exact exists_congr fun t => (h t).symm

/-- A thread that moves, and owns the lock neither before nor after. -/
theorem Agrees.congr (h : Agrees owns holder) (hsame : ∀ u, owns' u ↔ owns u) :
    Agrees owns' holder := fun u => (hsame u).trans (h u)

/-- The free lock gets a holder. -/
theorem Agrees.acquire (h : Agrees owns none) (ht : owns' t)
    (hsame : ∀ u, u ≠ t → (owns' u ↔ owns u)) : Agrees owns' (some t) := by
  intro u
  rw [Option.some.injEq]
  by_cases hut : u = t
  · rw [hut]
    exact iff_of_true ht rfl
  · rw [hsame u hut]
    refine iff_of_false (fun hu => ?_) (fun htu => hut htu.symm)
    exact absurd ((h u).mp hu) (by simp)

/-- The holder gives the lock up. -/
theorem Agrees.release (h : Agrees owns holder) (ht : owns t) (ht' : ¬owns' t)
    (hsame : ∀ u, u ≠ t → (owns' u ↔ owns u)) : Agrees owns' none := by
  intro u
  refine iff_of_false (fun hu => ?_) (by simp)
  by_cases hut : u = t
  · rw [hut] at hu
    exact ht' hu
  · exact hut (h.unique ((hsame u hut).mp hu) ht)

end Lib.Lock
