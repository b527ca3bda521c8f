import Mathlib.Data.List.Nodup

/-!
# Runs of equal keys

A list of amounts, each under a key. `merge` adds up the amounts of neighbours with the same
key, from the back; a list whose keys are all different has none.
-/

namespace Lib.Runs

variable {α β : Type} [DecidableEq α] [Add β]

def merge : List (α × β) → List (α × β)
  | [] => []
  | e :: es =>
    match merge es with
    | [] => [e]
    | f :: fs => if e.1 = f.1 then (e.1, e.2 + f.2) :: fs else e :: f :: fs

variable {e f : α × β} {es : List (α × β)}

/-- No new key comes out of it. -/
theorem mem_merge (h : f ∈ merge es) : ∃ g ∈ es, g.1 = f.1 := by
  induction es with
  | nil => exact absurd h (by simp [merge])
  | cons e es ih =>
      rw [merge] at h
      cases hes : merge es with
      | nil =>
          rw [hes] at h
          exact ⟨e, List.mem_cons_self, by rw [List.mem_singleton.mp h]⟩
      | cons g gs =>
          rw [hes] at h ih
          dsimp only at h
          -- a key behind the first is one of the rest
          have hrest : f ∈ g :: gs → ∃ g ∈ e :: es, g.1 = f.1 := by
            intro hf
            obtain ⟨g', hg', hkey⟩ := ih hf
            exact ⟨g', List.mem_cons_of_mem _ hg', hkey⟩
          split at h
          · rcases List.mem_cons.mp h with rfl | h
            · exact ⟨e, List.mem_cons_self, rfl⟩
            · exact hrest (List.mem_cons_of_mem _ h)
          · rcases List.mem_cons.mp h with rfl | h
            · exact ⟨f, List.mem_cons_self, rfl⟩
            · exact hrest h

/-- An entry whose key does not come again. -/
theorem merge_cons (h : ∀ f ∈ es, e.1 ≠ f.1) : merge (e :: es) = e :: merge es := by
  rw [merge]
  cases hes : merge es with
  | nil => rfl
  | cons f fs =>
      have hf : e.1 ≠ f.1 := by
        obtain ⟨g, hg, hkey⟩ := mem_merge (hes ▸ List.mem_cons_self : f ∈ merge es)
        exact hkey ▸ h g hg
      exact if_neg hf

/-- Two entries with one key. -/
theorem merge_twice {k : α} {x y : β} (h : ∀ f ∈ es, k ≠ f.1) :
    merge ((k, x) :: (k, y) :: es) = (k, x + y) :: merge es := by
  have hy : merge ((k, y) :: es) = (k, y) :: merge es := merge_cons h
  rw [merge, hy]
  exact if_pos rfl

theorem merge_distinct (h : (es.map Prod.fst).Nodup) : merge es = es := by
  induction es with
  | nil => rfl
  | cons e es ih =>
      rw [List.map_cons, List.nodup_cons] at h
      rw [merge_cons fun f hf he => h.1 (List.mem_map.mpr ⟨f, hf, he.symm⟩), ih h.2]

end Lib.Runs
