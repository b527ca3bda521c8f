import Mathlib.Data.List.DropRight

/-!
# Strings, as `std::string` has them

A string is a list of characters, and a position is a number. The searches return a
position or `npos`, which is `none`: as a count it means as many as there are, and the
position after it is 0. To erase from the beginning up to the first character that is not
of a kind, or what comes after the last one, is to drop the characters of that kind at
one end.

A mark is a character that is not of the kind to be dropped. What is dropped at one end
of a string with a mark in it does not reach over the mark.
-/

namespace Lib.Text

variable {α : Type} {s x y b b' t cs : List α} {c : α} {p : α → Bool}

/-- `pos + 1`; `npos + 1` is 0. -/
def after : Option Nat → Nat
  | some pos => pos + 1
  | none => 0

/-- `s.erase(pos, count)` -/
def erase (s : List α) (pos : Nat) : Option Nat → List α
  | some count => s.take pos ++ s.drop (pos + count)
  | none => s.take pos

/-- `s.substr(pos, count)` -/
def substr (s : List α) (pos : Nat) : Option Nat → List α
  | some count => (s.drop pos).take count
  | none => s.drop pos

theorem substr_before (x y : List α) : substr (x ++ y) 0 (some x.length) = x := List.take_left

theorem substr_after (x y : List α) (c : α) : substr (x ++ c :: y) (x.length + 1) none = y := by
  show (x ++ c :: y).drop (x.length + 1) = y
  rw [List.drop_append, List.drop_eq_nil_of_le (Nat.le_succ _), Nat.add_sub_cancel_left]
  rfl

/-! ## Dropping at the ends -/

theorem drop_findIdx (s : List α) (p : α → Bool) :
    (match s.findIdx? (fun d => !p d) with | some i => s.drop i | none => []) = s.dropWhile p := by
  induction s with
  | nil => rfl
  | cons d s ih =>
      rw [List.findIdx?_cons, List.dropWhile_cons]
      cases hd : p d with
      | false => rfl
      | true =>
          rw [← ih]
          cases s.findIdx? fun d => !p d <;> rfl

theorem dropWhile_mark (hc : p c = false) :
    (x ++ c :: y).dropWhile p = x.dropWhile p ++ c :: y := by
  induction x with
  | nil =>
      show (c :: y).dropWhile p = c :: y
      rw [List.dropWhile_cons, if_neg (by rw [hc]; exact Bool.false_ne_true)]
  | cons d x ih =>
      show (d :: (x ++ c :: y)).dropWhile p = (d :: x).dropWhile p ++ c :: y
      rw [List.dropWhile_cons, List.dropWhile_cons]
      split
      · exact ih
      · rfl

theorem rdropWhile_mark (hc : p c = false) :
    (x ++ c :: y).rdropWhile p = x ++ c :: y.rdropWhile p := by
  unfold List.rdropWhile
  rw [List.reverse_append, List.reverse_cons, List.append_assoc, List.singleton_append,
    dropWhile_mark hc, List.reverse_append, List.reverse_cons, List.reverse_reverse,
    List.append_assoc, List.singleton_append]

/-- Nothing to drop at either end. -/
structure Trimmed (p : α → Bool) (t : List α) : Prop where
  left : t.dropWhile p = t
  right : t.rdropWhile p = t

theorem dropWhile_blanks (hb : ∀ d ∈ b, p d = true) (ht : Trimmed p t) :
    (b ++ t).dropWhile p = t := by
  rw [List.dropWhile_append_of_pos hb]
  exact ht.left

theorem rdropWhile_blanks (hb : ∀ d ∈ b, p d = true) (ht : Trimmed p t) :
    (t ++ b).rdropWhile p = t := by
  unfold List.rdropWhile
  rw [List.reverse_append,
    List.dropWhile_append_of_pos fun d hd => hb d (List.mem_reverse.mp hd)]
  exact ht.right

/-- **What is between the blanks is left**, whichever end is dropped first. -/
theorem trim_left_right (hb : ∀ d ∈ b, p d = true) (ht : Trimmed p t)
    (hb' : ∀ d ∈ b', p d = true) : ((b ++ t ++ b').dropWhile p).rdropWhile p = t := by
  rw [List.append_assoc, List.dropWhile_append_of_pos hb]
  cases t with
  | nil =>
      rw [List.nil_append, List.dropWhile_eq_nil_iff.mpr hb']
      rfl
  | cons c t =>
      rw [List.dropWhile_append, ht.left]
      exact rdropWhile_blanks hb' ht

theorem trim_right_left (hb : ∀ d ∈ b, p d = true) (ht : Trimmed p t)
    (hb' : ∀ d ∈ b', p d = true) : ((b ++ t ++ b').rdropWhile p).dropWhile p = t := by
  cases t with
  | nil =>
      rw [List.append_nil, List.rdropWhile_eq_nil_iff.mpr]
      · rfl
      · intro d hd
        rcases List.mem_append.mp hd with hd | hd
        · exact hb d hd
        · exact hb' d hd
  | cons c t =>
      have hright : (b ++ (c :: t) ++ b').rdropWhile p = b ++ (c :: t) := by
        unfold List.rdropWhile
        rw [List.reverse_append,
          List.dropWhile_append_of_pos fun d hd => hb' d (List.mem_reverse.mp hd),
          List.reverse_append, List.dropWhile_append]
        have hrev : (c :: t).reverse.dropWhile p = (c :: t).reverse := by
          rw [← List.reverse_inj, List.reverse_reverse]
          exact ht.right
        rw [hrev, if_neg (by simp), List.reverse_append, List.reverse_reverse,
          List.reverse_reverse]
      rw [hright]
      exact dropWhile_blanks hb ht

/-- It does not matter which end is dropped first. -/
theorem trim_comm (s : List α) (p : α → Bool) :
    (s.rdropWhile p).dropWhile p = (s.dropWhile p).rdropWhile p := by
  induction s with
  | nil => rfl
  | cons c s ih =>
      cases hc : p c with
      | false =>
          have hright : (c :: s).rdropWhile p = c :: s.rdropWhile p := rdropWhile_mark (x := []) hc
          rw [hright, List.dropWhile_cons, List.dropWhile_cons, hc]
          exact hright.symm
      | true =>
          rw [List.dropWhile_cons, hc, if_pos rfl, ← ih]
          by_cases hall : ∀ d ∈ s, p d = true
          · rw [List.rdropWhile_eq_nil_iff.mpr hall, List.rdropWhile_eq_nil_iff.mpr]
            intro d hd
            rcases List.mem_cons.mp hd with rfl | hd
            · exact hc
            · exact hall d hd
          · -- the mark in the rest keeps the first character until the left end is dropped
            obtain ⟨d, hd, hmark⟩ : ∃ d ∈ s, p d = false := by
              by_contra hnone
              exact hall fun d hd =>
                (Bool.eq_false_or_eq_true (p d)).resolve_right fun hf => hnone ⟨d, hd, hf⟩
            obtain ⟨x, y, rfl⟩ := List.append_of_mem hd
            rw [rdropWhile_mark hmark, ← List.cons_append, rdropWhile_mark hmark,
              List.cons_append, List.dropWhile_cons, hc, if_pos rfl]

theorem mem_of_mem_rdropWhile (h : c ∈ s.rdropWhile p) : c ∈ s :=
  (List.rdropWhile_prefix p s).subset h

/-- A mark is not dropped. -/
theorem mem_rdropWhile (hc : p c = false) (h : c ∈ s) : c ∈ s.rdropWhile p := by
  obtain ⟨x, y, rfl⟩ := List.append_of_mem h
  rw [rdropWhile_mark hc]
  exact List.mem_append_right _ List.mem_cons_self

/-! ## Searches -/

variable [DecidableEq α]

/-- `s.find(c)` -/
def find (s : List α) (c : α) : Option Nat := s.findIdx? fun d => d = c

/-- `s.find_first_not_of(cs)` -/
def findFirstNotOf (s cs : List α) : Option Nat := s.findIdx? fun d => d ∉ cs

/-- `s.find_last_not_of(cs)` -/
def findLastNotOf (s cs : List α) : Option Nat :=
  (s.reverse.findIdx? fun d => d ∉ cs).map fun i => s.length - 1 - i

theorem find_none (h : c ∉ s) : find s c = none := by
  refine List.findIdx?_eq_none_iff.mpr fun d hd => ?_
  exact decide_eq_false fun hdc => h (hdc ▸ hd)

/-- The first mark is found. -/
theorem find_mark (h : c ∉ x) : find (x ++ c :: y) c = some x.length := by
  induction x with
  | nil =>
      show (c :: y).findIdx? _ = some 0
      rw [List.findIdx?_cons, if_pos (decide_eq_true rfl)]
  | cons d x ih =>
      have hd : d ≠ c := fun hdc => h (hdc ▸ List.mem_cons_self)
      have hx := ih fun hx => h (List.mem_cons_of_mem d hx)
      show (d :: (x ++ c :: y)).findIdx? _ = some (x.length + 1)
      rw [List.findIdx?_cons, if_neg (by rw [decide_eq_false hd]; exact Bool.false_ne_true)]
      rw [find] at hx
      rw [hx]
      rfl

theorem find_some (h : c ∈ s) : ∃ i, find s c = some i := by
  obtain ⟨x, y, rfl, hx⟩ := List.eq_append_cons_of_mem h
  exact ⟨x.length, find_mark hx⟩

theorem mem_of_find {i : Nat} (h : find s c = some i) : c ∈ s := by
  by_contra hc
  rw [find_none hc] at h
  exact absurd h (by simp)

/-- **To erase up to the first that is not of a kind.** -/
theorem erase_leading (s cs : List α) :
    erase s 0 (findFirstNotOf s cs) = s.dropWhile fun d => d ∈ cs := by
  rw [← drop_findIdx]
  unfold findFirstNotOf
  have hnot : (fun d : α => decide (d ∉ cs)) = fun d => !decide (d ∈ cs) := by
    funext d
    rw [decide_not]
  rw [hnot]
  cases s.findIdx? fun d => !decide (d ∈ cs) with
  | none => rfl
  | some i =>
      show [] ++ s.drop (0 + i) = s.drop i
      rw [Nat.zero_add, List.nil_append]

/-- **To erase after the last that is not of a kind.** -/
theorem erase_trailing (s cs : List α) :
    erase s (after (findLastNotOf s cs)) none = s.rdropWhile fun d => d ∈ cs := by
  rw [List.rdropWhile, ← drop_findIdx]
  unfold findLastNotOf
  have hnot : (fun d : α => decide (d ∉ cs)) = fun d => !decide (d ∈ cs) := by
    funext d
    rw [decide_not]
  rw [hnot]
  cases hi : s.reverse.findIdx? fun d => !decide (d ∈ cs) with
  | none => rfl
  | some i =>
      obtain ⟨hlt, _⟩ := List.findIdx?_eq_some_iff_getElem.mp hi
      rw [List.length_reverse] at hlt
      show s.take (s.length - 1 - i + 1) = (s.reverse.drop i).reverse
      rw [List.drop_reverse, List.reverse_reverse]
      congr 1
      omega

/-! ## Cuts at a mark -/

/-- What comes before the first `c`; everything, where there is none. -/
def before (s : List α) (c : α) : List α := s.takeWhile fun d => d ≠ c

/-- What comes after the first `c`. -/
def behind (s : List α) (c : α) : List α := (s.dropWhile fun d => d ≠ c).tail

theorem ne_mark (h : c ∉ x) : ∀ d ∈ x, decide (d ≠ c) = true := by
  intro d hd
  exact decide_eq_true fun hdc => h (hdc ▸ hd)

theorem before_mark (h : c ∉ x) : before (x ++ c :: y) c = x := by
  unfold before
  rw [List.takeWhile_append_of_pos (ne_mark h),
    List.takeWhile_cons, if_neg (by simp), List.append_nil]

theorem behind_mark (h : c ∉ x) : behind (x ++ c :: y) c = y := by
  unfold behind
  rw [List.dropWhile_append_of_pos (ne_mark h), List.dropWhile_cons, if_neg (by simp)]
  rfl

/-- A mark tells where the first part ends. -/
theorem mark_inj {x' y' : List α} (hx : c ∉ x) (hx' : c ∉ x') (h : x ++ c :: y = x' ++ c :: y') :
    x = x' ∧ y = y' := by
  constructor
  · rw [← before_mark (y := y) hx, h, before_mark hx']
  · rw [← behind_mark (y := y) hx, h, behind_mark hx']

theorem before_none (h : c ∉ s) : before s c = s := List.takeWhile_eq_self_iff.mpr (ne_mark h)

/-- A substring that ends at the first `c`. -/
theorem substr_find (s : List α) (c : α) : substr s 0 (find s c) = before s c := by
  by_cases hc : c ∈ s
  · obtain ⟨x, y, rfl, hx⟩ := List.eq_append_cons_of_mem hc
    rw [find_mark hx, substr_before, before_mark hx]
  · rw [find_none hc, before_none hc]
    rfl

/-- A substring that begins behind the first `c`. -/
theorem substr_behind {i : Nat} (h : find s c = some i) : substr s (i + 1) none = behind s c := by
  obtain ⟨x, y, rfl, hx⟩ := List.eq_append_cons_of_mem (mem_of_find h)
  rw [find_mark hx] at h
  cases h
  rw [substr_after, behind_mark hx]

end Lib.Text
