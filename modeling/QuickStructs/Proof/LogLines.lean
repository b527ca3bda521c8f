import QuickStructs.Lib.Text
import QuickStructs.Utils.Logger

/-!
# A log tells what was logged

Each part of a line ends at a mark that cannot occur in it: a number at the colon, the dot or the
bracket behind it, the name of a function at its colon, what the arguments write at the end of the
line. Only where one argument ends and the next begins is not to be seen.
-/

namespace QuickStructs.Logger

open Lib

/-- The name of a function is an identifier, and the arguments write no line break. -/
structure Call.Plain (c : Call) : Prop where
  func : ':' ∉ c.func
  args : '\n' ∉ c.args.flatten

instance (c : Call) : Decidable c.Plain :=
  decidable_of_iff (':' ∉ c.func ∧ '\n' ∉ c.args.flatten)
    ⟨fun h => ⟨h.1, h.2⟩, fun h => ⟨h.func, h.args⟩⟩

/-- What a line says of a call. -/
def Call.content (c : Call) : Call := { c with args := [c.args.flatten] }

variable {c c' : Call} {mName y y' : List Char}

theorem color_length (l : Level) : (levelToColor l).length = 5 := by
  cases l <;> rfl

theorem levelToString_inj {l l' : Level} (h : levelToString l = levelToString l') : l = l' := by
  revert h
  cases l <;> cases l' <;> decide

theorem bracket_not_mem_level (l : Level) : ']' ∉ levelToString l := by
  cases l <;> decide

theorem not_mem_natural {d : Char} (hd : d.isDigit = false) (n : Nat) :
    d ∉ Decimal.natural n := by
  intro h
  rw [Decimal.isDigit_natural h] at hd
  exact Bool.noConfusion hd

theorem not_mem_integer {d : Char} (hd : d.isDigit = false) (hminus : d ≠ '-') (n : Int) :
    d ∉ Decimal.integer n := by
  intro h
  rcases Decimal.mem_integer h with heq | hdigit
  · exact hminus heq
  · rw [hdigit] at hd
    exact Bool.noConfusion hd

theorem not_mem_padded {d : Char} (hd : d.isDigit = false) (n : Nat) : d ∉ padded n := by
  have hzero : d ≠ '0' := by
    rintro rfl
    exact absurd hd (by decide)
  unfold padded
  split
  · exact List.not_mem_cons_of_ne_of_not_mem hzero (not_mem_natural hd n)
  · exact not_mem_natural hd n

theorem number_padded (n : Nat) : Decimal.number (padded n) = n := by
  unfold padded
  split
  · exact Decimal.number_natural n
  · exact Decimal.number_natural n

theorem padded_inj {m n : Nat} (h : padded m = padded n) : m = n := by
  rw [← number_padded m, h, number_padded]

/-- The end of a line: what the arguments write, and the reset of the colour. -/
theorem line_end_inj {a a' : List Char} (ha : '\n' ∉ a) (ha' : '\n' ∉ a')
    (h : a ++ '\x1b' :: '[' :: '0' :: 'm' :: '\n' :: y
      = a' ++ '\x1b' :: '[' :: '0' :: 'm' :: '\n' :: y') : a = a' ∧ y = y' := by
  have hreset : ∀ b : List Char, '\n' ∉ b → '\n' ∉ b ++ ['\x1b', '[', '0', 'm'] := fun b hb hmem =>
    (List.mem_append.mp hmem).elim hb (by decide)
  have hsplit : ∀ b z : List Char, b ++ '\x1b' :: '[' :: '0' :: 'm' :: '\n' :: z
      = (b ++ ['\x1b', '[', '0', 'm']) ++ '\n' :: z := fun b z => by
    rw [List.append_assoc]
    rfl
  rw [hsplit, hsplit] at h
  obtain ⟨hline, hrest⟩ := Text.mark_inj (hreset a ha) (hreset a' ha') h
  exact ⟨List.append_cancel_right hline, hrest⟩

/-- **A line says what was called**, and where the next one begins. -/
theorem oss_inj (hc : c.Plain) (hc' : c'.Plain) (h : c.oss mName ++ y = c'.oss mName ++ y') :
    c.content = c'.content ∧ y = y' := by
  obtain ⟨level, func, line, args, ⟨tmHour, tmMin, tmSec, ms⟩⟩ := c
  obtain ⟨level', func', line', args', ⟨tmHour', tmMin', tmSec', ms'⟩⟩ := c'
  obtain ⟨hmark, hbreak⟩ : ':' ∉ func ∧ '\n' ∉ args.flatten := ⟨hc.func, hc.args⟩
  obtain ⟨hmark', hbreak'⟩ : ':' ∉ func' ∧ '\n' ∉ args'.flatten := ⟨hc'.func, hc'.args⟩
  simp only [Call.oss, List.flatten_cons, List.flatten_nil, List.append_nil, List.append_assoc,
    List.cons_append, List.nil_append] at h
  replace h := (List.append_inj h (by rw [color_length, color_length])).2
  replace h := (List.cons.inj h).2
  obtain ⟨hhour, h⟩ := Text.mark_inj (not_mem_padded rfl _) (not_mem_padded rfl _) h
  obtain ⟨hmin, h⟩ := Text.mark_inj (not_mem_padded rfl _) (not_mem_padded rfl _) h
  obtain ⟨hsec, h⟩ := Text.mark_inj (not_mem_padded rfl _) (not_mem_padded rfl _) h
  obtain ⟨hms, h⟩ := Text.mark_inj (not_mem_integer rfl (by decide) _)
    (not_mem_integer rfl (by decide) _) h
  replace h := (List.cons.inj h).2
  obtain ⟨hlevel, h⟩ := Text.mark_inj (bracket_not_mem_level _) (bracket_not_mem_level _) h
  -- the name of the logger and the two colons are the same on both sides
  replace h := List.append_cancel_left (List.cons.inj h).2
  replace h := (List.cons.inj (List.cons.inj h).2).2
  obtain ⟨hfunc, h⟩ := Text.mark_inj hmark hmark' h
  obtain ⟨hline, h⟩ := Text.mark_inj (not_mem_integer rfl (by decide) _)
    (not_mem_integer rfl (by decide) _) h
  obtain ⟨hargs, hrest⟩ := line_end_inj hbreak hbreak' (List.cons.inj h).2
  refine ⟨?_, hrest⟩
  rw [levelToString_inj hlevel, padded_inj hhour, padded_inj hmin, padded_inj hsec,
    Decimal.integer_inj hms, hfunc, Decimal.integer_inj hline]
  show Call.content _ = Call.content _
  rw [Call.content, Call.content, hargs]

theorem oss_ne_nil (mName : List Char) (c : Call) : c.oss mName ≠ [] := by
  obtain ⟨level, func, line, args, time⟩ := c
  cases level <;> exact List.cons_ne_nil _ _

/-- **What was written tells what was called**: level, time, function, line, and what the
arguments wrote, of each call. -/
theorem lines_inj {calls calls' : List Call} (hcalls : ∀ c ∈ calls, c.Plain)
    (hcalls' : ∀ c ∈ calls', c.Plain)
    (h : calls.flatMap (Call.oss mName) = calls'.flatMap (Call.oss mName)) :
    calls.map Call.content = calls'.map Call.content := by
  induction calls generalizing calls' with
  | nil =>
      cases calls' with
      | nil => rfl
      | cons c' calls' =>
          rw [List.flatMap_nil, List.flatMap_cons] at h
          exact absurd (List.append_eq_nil_iff.mp h.symm).1 (oss_ne_nil mName c')
  | cons c calls ih =>
      cases calls' with
      | nil =>
          rw [List.flatMap_nil, List.flatMap_cons] at h
          exact absurd (List.append_eq_nil_iff.mp h).1 (oss_ne_nil mName c)
      | cons c' calls' =>
          rw [List.flatMap_cons, List.flatMap_cons] at h
          obtain ⟨hc, hcalls⟩ := List.forall_mem_cons.mp hcalls
          obtain ⟨hc', hcalls'⟩ := List.forall_mem_cons.mp hcalls'
          obtain ⟨hcontent, hrest⟩ := oss_inj hc hc' h
          rw [List.map_cons, List.map_cons, hcontent, ih hcalls hcalls' hrest]

end QuickStructs.Logger
