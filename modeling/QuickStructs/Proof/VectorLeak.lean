import QuickStructs.Lib.Loop
import QuickStructs.Structs.VectorThrow
import QuickStructs.Proof.VectorCapacity

/-!
# What a constructor that throws leaves

`Vector(size)` constructs its elements one by one. If one of them throws, the constructor is left
at once: the destructor does not run, since there is no vector yet, and there is no handler as in
`_grow_capacity`. The elements before it stay in a buffer that nobody knows of.
-/

namespace QuickStructs.Vector

open Lib Storage

variable {E : Type} {T : ElementType E} {s s' : Storage E} {a i k n : Nat}

/-- What was constructed and allocated since `s` has been destroyed and freed, once. -/
structure CleanedUp (s s' : Storage E) : Prop where
  elements : ∀ id, s.nextId ≤ id → id < s'.nextId → s'.destroyed.count id = 1
  buffers : ∀ a, s.next ≤ a → a < s'.next → s'.freed.count a = 1

/-- The loop makes its rounds, or those before the one that throws. -/
theorem tryConstructN_eq (s : Storage E) (a k i : Nat) : tryConstructN T s a k i
    = if i ≤ k then (constructN T s a i, some (k - i)) else (constructN T s a k, none) := by
  refine Loop.rounds_eq (tryConstructN T s a k) (constructN T s a) some (fun _ => none) k rfl
    (fun i j h => ?_) (fun i h => ?_) (fun i _ t h => ?_) i
  · simp only [tryConstructN, h, constructN]
  · simp only [tryConstructN, h]
  · simp only [tryConstructN, h]

theorem constructN_keeps (s : Storage E) (a : Nat) : ∀ i,
    (constructN T s a i).next = s.next ∧ (constructN T s a i).destroyed = s.destroyed
      ∧ (constructN T s a i).freed = s.freed
  | 0 => ⟨rfl, rfl, rfl⟩
  | i + 1 => by
      obtain ⟨hnext, hdestroyed, hfreed⟩ := constructN_keeps s a i
      obtain ⟨hnext', hdestroyed', hfreed'⟩ := construct_keeps (constructN T s a i) a i T.default
      exact ⟨hnext'.trans hnext, hdestroyed'.trans hdestroyed, hfreed'.trans hfreed⟩

/-- A buffer is allocated, for at least one element. -/
theorem tryAllocate_succ (s : Storage E) (n k : Nat) : tryAllocate T s (max 1 n) (k + 1)
    = some ((operatorNew T s (T.size * max 1 n % 2 ^ 64)).1, s.next, k) := by
  rw [tryAllocate, if_neg (by omega)]
  rfl

/-- What is left when the construction of element `k` throws. -/
def abandoned (T : ElementType E) (s : Storage E) (n k : Nat) : Storage E :=
  constructN T (operatorNew T s (T.size * max 1 n % 2 ^ 64)).1 s.next k

theorem tryCtorSize_throws (s : Storage E) (hk : k < n) :
    Vec.tryCtorSize T s n (k + 1) = (abandoned T s n k, none) := by
  simp only [Vec.tryCtorSize, tryAllocate_succ, tryConstructN_eq]
  rw [if_neg (by omega)]
  rfl

/-- **A constructor that returns does what it does without exceptions.** -/
theorem tryCtorSize_returns (s : Storage E) (hk : n ≤ k) : Vec.tryCtorSize T s n (k + 1)
    = ((Vec.ctorSize T s n).1, some ((Vec.ctorSize T s n).2, k - n)) := by
  have hpos : max 1 n ≠ 0 := by omega
  simp only [Vec.tryCtorSize, tryAllocate_succ, tryConstructN_eq, Vec.ctorSize, allocate]
  rw [if_pos hk, if_neg hpos]
  rfl

/-- The elements that were constructed are still there, in a buffer that is still there. -/
theorem abandoned_shows (hs : Sane s) (hfits : SizeFits T n) (hk : k < n) :
    Sane (abandoned T s n k)
      ∧ Shows (abandoned T s n k) s.next (max 1 n)
        (upTo k (fun _ => some T.default) fun _ => none) := by
  have hnew : (operatorNew T s (T.size * max 1 n % 2 ^ 64)).1 = s.alloc (max 1 n) := by
    rw [operatorNew, Nat.mod_eq_of_lt hfits, Nat.mul_div_cancel_left _ T.pos]
  obtain ⟨hs', hshows, _⟩ := constructN_spec (T := T) (sane_alloc hs (max 1 n))
    (shows_alloc s (max 1 n)) k (by omega)
  rw [abandoned, hnew]
  exact ⟨hs', hshows⟩

/-- **`Vector(size)` never cleans up**: whatever element throws, those before it are not destroyed
and the buffer is not freed. -/
theorem ctorSize_never_cleans_up (T : ElementType E) (s : Storage E) (hs : Sane s) (n k : Nat)
    (hk : k < n) :
    (Vec.tryCtorSize T s n (k + 1)).2 = none
      ∧ (Vec.tryCtorSize T s n (k + 1)).1.destroyed = s.destroyed
      ∧ (Vec.tryCtorSize T s n (k + 1)).1.freed = s.freed
      ∧ ¬ CleanedUp s (Vec.tryCtorSize T s n (k + 1)).1 := by
  rw [tryCtorSize_throws s hk]
  obtain ⟨hnext, hdestroyed, hfreed⟩ := constructN_keeps (T := T)
    (operatorNew T s (T.size * max 1 n % 2 ^ 64)).1 s.next k
  refine ⟨rfl, hdestroyed, hfreed, fun hclean => ?_⟩
  have hlt : s.next < (abandoned T s n k).next := hnext ▸ Nat.lt_succ_self s.next
  have honce : (abandoned T s n k).freed.count s.next = 1 :=
    hclean.buffers s.next (Nat.le_refl _) hlt
  have hnever : s.freed.count s.next = 0 := hs.placed.unfreed (Nat.le_refl _)
  rw [show (abandoned T s n k).freed = s.freed from hfreed, hnever] at honce
  exact absurd honce (by decide)

/-- `Vector(2)`, whose second element throws. -/
theorem ctorSize_never_cleans_up_two :
    (Vec.tryCtorSize words {} 2 2).2 = none
      ∧ (Vec.tryCtorSize words {} 2 2).1.destroyed = []
      ∧ (Vec.tryCtorSize words {} 2 2).1.freed = []
      ∧ ¬ CleanedUp {} (Vec.tryCtorSize words {} 2 2).1 :=
  ctorSize_never_cleans_up words {} sane_empty 2 1 (by decide)

/-- Its first element is not destroyed, nor is its buffer freed. -/
theorem ctorSize_leaks :
    ¬ ∀ n k, k < n → CleanedUp ({} : Storage Nat) (Vec.tryCtorSize words {} n (k + 1)).1 := by
  intro hall
  have hclean : CleanedUp ({} : Storage Nat) (Vec.tryCtorSize words {} 2 2).1 :=
    hall 2 1 (by decide)
  have hfirst := hclean.elements 0 (Nat.le_refl 0) (by decide)
  exact absurd hfirst (by decide)

end QuickStructs.Vector
