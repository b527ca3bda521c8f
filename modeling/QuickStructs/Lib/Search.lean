import QuickStructs.Lib.Loop
import Mathlib.Data.List.InsertIdx

/-!
# Binary search for a place to insert

`lowerBound before xs` is the search the C++ library runs for `lower_bound`: it
halves a window of the sequence and keeps the half that holds the first element
for which `before` fails. It finds that element only on a sequence where the
elements with `before` come first, and there inserting at the position found
splits the sequence into the part before the new element and the part after it.
-/

namespace Lib.Search

open Lib.Loop

variable {α : Type}

/-- The part of the sequence still searched. -/
structure Window where
  first : Nat
  len : Nat

/-- One halving. The element in the middle exists whenever the window lies in the sequence. -/
def halve (before : α → Bool) (xs : List α) (w : Window) : Option Window :=
  if w.len = 0 then none
  else
    let half := w.len / 2
    let middle := w.first + half
    match xs[middle]? with
    | none => none
    | some x =>
      if before x then some { first := middle + 1, len := w.len - half - 1 }
      else some { first := w.first, len := half }

/-- The first position whose element is not `before`. -/
def lowerBound (before : α → Bool) (xs : List α) : Nat :=
  (iterate (halve before xs) xs.length { first := 0, len := xs.length }).first

/-- The elements with `before` come first. -/
def Partitioned (before : α → Bool) (xs : List α) : Prop :=
  xs.Pairwise fun a b => before b → before a

/-- Everything left of the window is `before`, nothing right of it is. -/
structure Encloses (before : α → Bool) (xs : List α) (w : Window) : Prop where
  inside : w.first + w.len ≤ xs.length
  left : ∀ (i : Nat) (x : α), i < w.first → xs[i]? = some x → before x = true
  right : ∀ (i : Nat) (x : α), w.first + w.len ≤ i → xs[i]? = some x → before x = false

variable {before : α → Bool} {xs : List α}

theorem Partitioned.of_le (hp : Partitioned before xs) {i j : Nat} {x y : α} (hij : i ≤ j)
    (hi : xs[i]? = some x) (hj : xs[j]? = some y) (hy : before y = true) : before x = true := by
  rcases Nat.eq_or_lt_of_le hij with h | h
  · subst h
    rw [hi, Option.some.injEq] at hj
    exact hj ▸ hy
  · obtain ⟨hil, hie⟩ := List.getElem?_eq_some_iff.mp hi
    obtain ⟨hjl, hje⟩ := List.getElem?_eq_some_iff.mp hj
    have := List.pairwise_iff_getElem.mp hp i j hil hjl h
    rw [hie, hje] at this
    exact this hy

/-- **A halving keeps the place inside the window and shrinks it.** -/
theorem halve_encloses (hp : Partitioned before xs) (w w' : Window)
    (h : Encloses before xs w) (hw : halve before xs w = some w') :
    Encloses before xs w' ∧ w'.len < w.len := by
  have hin := h.inside
  unfold halve at hw
  split at hw
  · exact absurd hw (by simp)
  · dsimp only at hw
    split at hw
    · exact absurd hw (by simp)
    · rename_i x hx
      split at hw
      · rename_i hb
        injection hw with hw
        subst hw
        refine ⟨⟨by dsimp only; omega, fun i y hi hy => ?_, fun i y hi hy => ?_⟩,
          by dsimp only; omega⟩
        · exact hp.of_le (by dsimp only at hi; omega) hy hx hb
        · exact h.right i y (by dsimp only at hi; omega) hy
      · rename_i hb
        injection hw with hw
        subst hw
        refine ⟨⟨by dsimp only; omega, h.left, fun i y hi hy => ?_⟩, by dsimp only; omega⟩
        cases hby : before y with
        | false => rfl
        | true => exact absurd (hp.of_le hi hx hy hby) hb

theorem encloses_all : Encloses before xs { first := 0, len := xs.length } := by
  refine ⟨by simp, fun i x hi _ => absurd hi (Nat.not_lt_zero i), fun i x hi hx => ?_⟩
  obtain ⟨hil, _⟩ := List.getElem?_eq_some_iff.mp hx
  dsimp only at hi
  omega

/-- The search stops only on an empty window. -/
theorem halve_exit {w : Window} (h : Encloses before xs w) (hw : halve before xs w = none) :
    w.len = 0 := by
  have hin := h.inside
  unfold halve at hw
  split at hw
  · assumption
  · dsimp only at hw
    split at hw
    · rename_i hnone
      rw [List.getElem?_eq_none_iff] at hnone
      omega
    · split at hw <;> exact absurd hw (by simp)

/-- **The search is right**: it ends with an empty window around the place. -/
theorem lowerBound_encloses (hp : Partitioned before xs) :
    Encloses before xs { first := lowerBound before xs, len := 0 } := by
  have hpass := halve_encloses hp
  have hinv := iterate_invariant xs.length encloses_all fun w w' h hw => (hpass w w' h hw).1
  have hexit := iterate_exits Window.len hpass xs.length _ encloses_all (Nat.le_refl _)
  have hlen := halve_exit hinv hexit
  unfold lowerBound
  generalize iterate (halve before xs) xs.length { first := 0, len := xs.length } = w at hinv hlen
  rw [← hlen]
  exact hinv

/-- A sequence cut where `before` stops holding is cut into the two parts `before` sorts it into. -/
theorem Encloses.filter_eq {k : Nat} (h : Encloses before xs { first := k, len := 0 }) :
    xs.filter before = xs.take k ∧ xs.filter (fun x => !before x) = xs.drop k := by
  have htake : ∀ x ∈ xs.take k, before x = true := by
    intro x hx
    obtain ⟨i, hi, he⟩ := List.mem_take_iff_getElem.mp hx
    exact h.left i x (by dsimp only; omega) (List.getElem?_eq_some_iff.mpr ⟨by omega, he⟩)
  have hdrop : ∀ x ∈ xs.drop k, before x = false := by
    intro x hx
    obtain ⟨i, hi, he⟩ := List.mem_drop_iff_getElem.mp hx
    exact h.right (k + i) x (by dsimp only; omega) (List.getElem?_eq_some_iff.mpr ⟨by omega, he⟩)
  constructor
  · conv => lhs; rw [← List.take_append_drop k xs]
    rw [List.filter_append, List.filter_eq_self.mpr htake,
      List.filter_eq_nil_iff.mpr (fun x hx => by rw [hdrop x hx]; simp), List.append_nil]
  · conv => lhs; rw [← List.take_append_drop k xs]
    rw [List.filter_append, List.filter_eq_nil_iff.mpr (fun x hx => by rw [htake x hx]; simp),
      List.filter_eq_self.mpr (fun x hx => by rw [hdrop x hx]; rfl), List.nil_append]

theorem insertIdx_take_drop : ∀ (k : Nat) (xs : List α) (x : α), k ≤ xs.length →
    xs.insertIdx k x = xs.take k ++ x :: xs.drop k
  | 0, _, _, _ => rfl
  | k + 1, [], _, h => absurd h (by simp)
  | k + 1, y :: xs, x, h => by
      rw [List.insertIdx_succ_cons, insertIdx_take_drop k xs x (Nat.le_of_succ_le_succ h)]
      rfl

/-- **Inserting where the search ends** puts the element between the two parts. -/
theorem insertIdx_lowerBound (hp : Partitioned before xs) (x : α) :
    xs.insertIdx (lowerBound before xs) x
      = xs.filter before ++ x :: xs.filter (fun y => !before y) := by
  have h := lowerBound_encloses hp
  have hle : lowerBound before xs ≤ xs.length := h.inside
  rw [h.filter_eq.1, h.filter_eq.2]
  exact insertIdx_take_drop _ xs x hle

theorem Partitioned.filter_append (hp : Partitioned before xs) :
    xs.filter before ++ xs.filter (fun y => !before y) = xs := by
  have h := lowerBound_encloses hp
  rw [h.filter_eq.1, h.filter_eq.2, List.take_append_drop]

theorem Partitioned.filter (hp : Partitioned before xs) (p : α → Bool) :
    Partitioned before (xs.filter p) := hp.sublist List.filter_sublist

/-- **Filtering commutes with inserting**, and undoes the insertion of what it drops. -/
theorem filter_insertIdx (hp : Partitioned before xs) (p : α → Bool) (x : α) :
    (xs.insertIdx (lowerBound before xs) x).filter p
      = if p x then (xs.filter p).insertIdx (lowerBound before (xs.filter p)) x
        else xs.filter p := by
  have hcomm : ∀ q : α → Bool, (xs.filter q).filter p = (xs.filter p).filter q := by
    intro q
    rw [List.filter_filter, List.filter_filter]
    exact List.filter_congr fun y _ => Bool.and_comm _ _
  rw [insertIdx_lowerBound hp, insertIdx_lowerBound (hp.filter p), List.filter_append, hcomm]
  by_cases hx : p x = true
  · rw [if_pos hx, List.filter_cons_of_pos hx, hcomm]
  · rw [if_neg hx, List.filter_cons_of_neg hx, hcomm, (hp.filter p).filter_append]

/-- The search looks at nothing but what `before` says of the elements. -/
theorem lowerBound_map {β : Type} (f : α → β) (before : β → Bool) (xs : List α) :
    lowerBound before (xs.map f) = lowerBound (fun x => before (f x)) xs := by
  have hhalve : halve before (xs.map f) = halve (fun x => before (f x)) xs := by
    funext w
    unfold halve
    dsimp only
    rw [List.getElem?_map]
    cases xs[w.first + w.len / 2]? <;> rfl
  unfold lowerBound
  rw [hhalve, List.length_map]

/-- **A sequence sorted by a key is told by what it has under each key**, and in which order. -/
theorem eq_of_keys {κ : Type} [DecidableEq κ] (key : α → κ) {r : κ → κ → Prop}
    (hanti : ∀ a b, r a b → r b a → a = b) : ∀ {xs ys : List α},
    xs.Pairwise (fun x y => r (key x) (key y)) → ys.Pairwise (fun x y => r (key x) (key y)) →
    (∀ k, xs.filter (fun x => key x = k) = ys.filter fun x => key x = k) → xs = ys
  | [], [], _, _, _ => rfl
  | [], y :: ys, _, _, h => by
      have hy := h (key y)
      rw [List.filter_nil, List.filter_cons_of_pos (by simp)] at hy
      exact absurd hy (by simp)
  | x :: xs, [], _, _, h => by
      have hx := h (key x)
      rw [List.filter_nil, List.filter_cons_of_pos (by simp)] at hx
      exact absurd hx (by simp)
  | x :: xs, y :: ys, hxs, hys, h => by
      -- each head has a key that the other sequence has too, and not before its own
      have hin : ∀ {z : α} {zs ws : List α}, (∀ k, (z :: zs).filter (fun x => key x = k)
          = ws.filter fun x => key x = k) → z ∈ ws := by
        intro z zs ws hk
        have hz : z ∈ (z :: zs).filter fun x => key x = key z :=
          List.mem_filter.mpr ⟨List.mem_cons_self, by simp⟩
        rw [hk] at hz
        exact (List.mem_filter.mp hz).1
      have hkey : key x = key y := by
        rcases List.mem_cons.mp (hin h) with hxy | hxy
        · rw [hxy]
        · rcases List.mem_cons.mp (hin fun k => (h k).symm) with hyx | hyx
          · rw [hyx]
          · exact hanti _ _ ((List.pairwise_cons.mp hxs).1 y hyx)
              ((List.pairwise_cons.mp hys).1 x hxy)
      have hhead := h (key x)
      rw [List.filter_cons_of_pos (by simp), List.filter_cons_of_pos (by simp [hkey])] at hhead
      obtain ⟨rfl, _⟩ := List.cons.inj hhead
      refine congrArg _ (eq_of_keys key hanti (List.pairwise_cons.mp hxs).2
        (List.pairwise_cons.mp hys).2 fun k => ?_)
      have hk := h k
      by_cases hx : key x = k
      · rw [List.filter_cons_of_pos (by simp [hx]), List.filter_cons_of_pos (by simp [hx])] at hk
        exact (List.cons.inj hk).2
      · rw [List.filter_cons_of_neg (by simp [hx]), List.filter_cons_of_neg (by simp [hx])] at hk
        exact hk

end Lib.Search
