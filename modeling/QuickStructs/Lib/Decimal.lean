import Mathlib.Data.List.TakeWhile

/-!
# Decimal numbers, as `std::stoi` and a stream have them

`stoi` passes over white space, takes a sign if there is one, and reads digits as far as
they go. Without a digit, or out of the range of an `int`, it throws. A stream writes no
more digits than it needs, and a sign only before a negative number.
-/

namespace Lib.Decimal

/-- The number that digits stand for. -/
def number (digits : List Char) : Nat := digits.foldl (fun n c => 10 * n + (c.toNat - 48)) 0

/-- `std::isspace` -/
def isSpace (c : Char) : Bool := c ∈ [' ', '\t', '\n', '\x0b', '\x0c', '\r']

/-- A sign, and what comes behind it. -/
def sign : List Char → Bool × List Char
  | '-' :: s => (true, s)
  | '+' :: s => (false, s)
  | s => (false, s)

/-- `std::stoi(s)`, `none` for an exception. -/
def stoi (s : List Char) : Option Int :=
  let (negative, s) := sign (s.dropWhile isSpace)
  let digits := s.takeWhile Char.isDigit
  if digits = [] then none
  else
    let n : Int := if negative then -number digits else number digits
    if -2147483648 ≤ n ∧ n ≤ 2147483647 then some n else none

/-- How integers are written. -/
inductive Integer : List Char → Int → Prop where
  | plain (digits : List Char) : digits ≠ [] → digits.all Char.isDigit = true →
      Integer digits (number digits)
  | plus (digits : List Char) : digits ≠ [] → digits.all Char.isDigit = true →
      Integer ('+' :: digits) (number digits)
  | minus (digits : List Char) : digits ≠ [] → digits.all Char.isDigit = true →
      Integer ('-' :: digits) (-number digits)

variable {text digits s : List Char} {n : Int} {c : Char}

theorem not_space_of_isDigit (h : c.isDigit = true) : isSpace c = false := by
  refine decide_eq_false fun hc => ?_
  simp only [List.mem_cons, List.not_mem_nil, or_false] at hc
  rcases hc with rfl | rfl | rfl | rfl | rfl | rfl <;> exact absurd h (by decide)

theorem sign_of_isDigit (h : c.isDigit = true) : sign (c :: s) = (false, c :: s) := by
  have hminus : c ≠ '-' := by
    rintro rfl
    exact absurd h (by decide)
  have hplus : c ≠ '+' := by
    rintro rfl
    exact absurd h (by decide)
  unfold sign
  split
  · rename_i heq
    exact absurd (List.cons.inj heq).1 hminus
  · rename_i heq
    exact absurd (List.cons.inj heq).1 hplus
  · rfl

/-- **An integer is converted when it fits.** -/
theorem stoi_integer (h : Integer text n) :
    stoi text = if -2147483648 ≤ n ∧ n ≤ 2147483647 then some n else none := by
  have hall : ∀ digits : List Char, digits.all Char.isDigit = true →
      digits.takeWhile Char.isDigit = digits := fun digits hd =>
    List.takeWhile_eq_self_iff.mpr (List.all_eq_true.mp hd)
  cases h with
  | plain _ hne hd =>
      obtain ⟨c, s, rfl⟩ := List.exists_cons_of_ne_nil hne
      have hc := List.all_eq_true.mp hd c List.mem_cons_self
      have hsign : sign ((c :: s).dropWhile isSpace) = (false, c :: s) := by
        rw [List.dropWhile_cons, not_space_of_isDigit hc]
        exact sign_of_isDigit hc
      unfold stoi
      simp only [hsign, hall _ hd, if_neg hne]
      rfl
  | plus digits hne hd =>
      have hsign : sign (('+' :: digits).dropWhile isSpace) = (false, digits) := rfl
      unfold stoi
      simp only [hsign, hall _ hd, if_neg hne]
      rfl
  | minus digits hne hd =>
      have hsign : sign (('-' :: digits).dropWhile isSpace) = (true, digits) := rfl
      unfold stoi
      simp only [hsign, hall _ hd, if_neg hne, if_true]

/-! ## What a stream writes -/

def natural (n : Nat) : List Char := Nat.toDigits 10 n

def integer : Int → List Char
  | .ofNat n => natural n
  | .negSucc n => '-' :: natural (n + 1)

theorem isDigit_natural {n : Nat} (h : c ∈ natural n) : c.isDigit = true :=
  Nat.isDigit_of_mem_toDigits (by decide) (by decide) h

theorem number_natural (n : Nat) : number (natural n) = n := Nat.ofDigitChars_ten_toDigits

theorem natural_inj {m n : Nat} (h : natural m = natural n) : m = n := by
  rw [← number_natural m, h, number_natural]

theorem mem_integer (h : c ∈ integer n) : c = '-' ∨ c.isDigit = true := by
  cases n with
  | ofNat n => exact .inr (isDigit_natural h)
  | negSucc n =>
      rcases List.mem_cons.mp h with hc | hc
      · exact .inl hc
      · exact .inr (isDigit_natural hc)

/-- A number that is not negative is written without a sign. -/
theorem natural_ne_minus {m k : Nat} : natural m ≠ '-' :: natural k := by
  intro h
  have hc : '-' ∈ natural m := h ▸ List.mem_cons_self
  exact absurd (isDigit_natural hc) (by decide)

theorem integer_inj {m n : Int} (h : integer m = integer n) : m = n := by
  cases m with
  | ofNat m =>
      cases n with
      | ofNat n => rw [natural_inj h]
      | negSucc n => exact absurd h natural_ne_minus
  | negSucc m =>
      cases n with
      | ofNat n => exact absurd h.symm natural_ne_minus
      | negSucc n => rw [Nat.succ.inj (natural_inj (List.cons.inj h).2)]

/-- What a stream writes is an integer. -/
theorem integer_written (n : Int) : Integer (integer n) n := by
  have hdigits : ∀ k : Nat, natural k ≠ [] ∧ (natural k).all Char.isDigit = true := fun k =>
    ⟨Nat.toDigits_ne_nil, List.all_eq_true.mpr fun _ hc => isDigit_natural hc⟩
  cases n with
  | ofNat k =>
      have hplain := Integer.plain (natural k) (hdigits k).1 (hdigits k).2
      rw [number_natural] at hplain
      exact hplain
  | negSucc k =>
      have hminus := Integer.minus (natural (k + 1)) (hdigits (k + 1)).1 (hdigits (k + 1)).2
      rw [number_natural] at hminus
      exact hminus

theorem integer_ne_nil (n : Int) : integer n ≠ [] := by
  cases n with
  | ofNat k => exact Nat.toDigits_ne_nil
  | negSucc k => exact List.cons_ne_nil _ _

/-- **What a stream writes is read again**, when it is an `int`. -/
theorem stoi_written (h : -2147483648 ≤ n ∧ n ≤ 2147483647) : stoi (integer n) = some n := by
  rw [stoi_integer (integer_written n), if_pos h]

end Lib.Decimal
