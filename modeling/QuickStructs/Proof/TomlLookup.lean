import QuickStructs.Proof.TomlRead

/-!
# The two lookups

`get_value` is given a section and a key, `get_string` one string that is cut at its first dot.
So they look in the same place when the name of the section has no dot, and when it has one they
look in two places. What they find there is not the same either: `get_string` takes quotes off a
value that has lost its quotes already.
-/

namespace QuickStructs.TomlParser

open Lib.Text

variable {p : Parser} {sec key val w s s' k v : Str}

/-! ## Quotes -/

/-- The value begins and ends with the same quote. -/
def Quoted (val : Str) : Prop := ∃ q content, Quote q ∧ val = q :: (content ++ [q])

/-- The code looks at the two ends, and at the length. -/
theorem quoted_iff (val : Str) :
    Quoted val ↔ 2 ≤ val.length ∧ (quotedBy '"' val ∨ quotedBy '\'' val) := by
  constructor
  · rintro ⟨q, content, hq, rfl⟩
    exact quotes_found hq content
  · rintro ⟨hlen, hends⟩
    obtain ⟨q, hq, hhead, hlast⟩ : ∃ q, Quote q ∧ quotedBy q val := by
      rcases hends with hends | hends
      · exact ⟨'"', Or.inl rfl, hends⟩
      · exact ⟨'\'', Or.inr rfl, hends⟩
    cases val with
    | nil => exact absurd hhead (by simp)
    | cons c val =>
        cases hhead
        have hne : val ≠ [] := by
          rintro rfl
          exact absurd hlen (by simp)
        refine ⟨q, val.dropLast, hq, ?_⟩
        rw [List.getLast?_cons, List.getLast?_eq_some_getLast hne] at hlast
        have heq : val.getLast hne = q := by simpa using hlast
        rw [← heq, List.dropLast_concat_getLast hne]

theorem unquote_of_not (h : ¬Quoted val) : unquote val = val :=
  if_neg fun hcond => h ((quoted_iff val).mpr hcond)

/-- What is written so that `unquote` makes the value of it. -/
def Written (w val : Str) : Prop :=
  w = val ∧ ¬Quoted val ∨ ∃ q, Quote q ∧ w = q :: (val ++ [q])

theorem unquote_iff (w val : Str) : unquote w = val ↔ Written w val := by
  constructor
  · intro h
    by_cases hw : Quoted w
    · obtain ⟨q, content, hq, rfl⟩ := hw
      rw [unquote_quoted hq] at h
      exact Or.inr ⟨q, hq, by rw [h]⟩
    · rw [unquote_of_not hw] at h
      exact Or.inl ⟨h, h ▸ hw⟩
  · rintro (⟨rfl, hq⟩ | ⟨q, hq, rfl⟩)
    · exact unquote_of_not hq
    · exact unquote_quoted hq val

/-- A value is its own only when it is not quoted. -/
theorem written_self (val : Str) : Written val val ↔ ¬Quoted val := by
  constructor
  · rintro (⟨_, h⟩ | ⟨q, _, h⟩)
    · exact h
    · have hlength := congrArg List.length h
      rw [List.length_cons, List.length_append, List.length_singleton] at hlength
      omega
  · exact fun h => Or.inl ⟨rfl, h⟩

/-! ## Lookups -/

/-- `get_string` is `get_value` at the first dot, without quotes, and empty where that finds
nothing. -/
theorem getString_eq (p : Parser) (hs : '.' ∉ s) (k : Str) :
    p.getString (s ++ '.' :: k) = ((p.getValue s k).map unquote).getD [] := by
  unfold Parser.getString Parser.getValue
  simp only [find_mark hs, substr_before, substr_after]
  cases p.mKeys s with
  | none => rfl
  | some keys =>
      simp only [Option.bind_some]
      cases keys k <;> rfl

/-- What `get_string` should find in the place where it looks. -/
def Finds (found : Option Str) (val : Str) : Prop :=
  match found with
  | some w => Written w val
  | none => val = []

theorem finds_iff (found : Option Str) (val : Str) :
    (found.map unquote).getD [] = val ↔ Finds found val := by
  cases found with
  | none => exact eq_comm
  | some w => exact unquote_iff w val

/-- **The two lookups agree** on an entry exactly when the name of its section has no dot and its
value is not quoted; or when, by chance, the entry that is named up to the first dot reads the
same. -/
theorem lookups_agree_iff (p : Parser) (sec key val : Str) (hval : p.getValue sec key = some val) :
    p.getString (sec ++ '.' :: key) = val
    ↔ '.' ∉ sec ∧ ¬Quoted val
      ∨ ∃ s s', sec = s ++ '.' :: s' ∧ '.' ∉ s ∧ Finds (p.getValue s (s' ++ '.' :: key)) val := by
  by_cases hdot : '.' ∈ sec
  · obtain ⟨s, s', rfl, hs⟩ := List.eq_append_cons_of_mem hdot
    rw [List.append_assoc, List.cons_append, getString_eq p hs, finds_iff]
    constructor
    · exact fun h => Or.inr ⟨s, s', rfl, hs, h⟩
    · rintro (⟨h, _⟩ | ⟨t, t', heq, ht, h⟩)
      · exact absurd hdot h
      · -- there is one first dot
        have hcut : s = t ∧ s' = t' := by
          have hlength : s.length = t.length := by
            have hfind := congrArg (fun u => find u '.') heq
            rw [find_mark hs, find_mark ht] at hfind
            exact Option.some.inj hfind
          obtain ⟨hleft, hright⟩ := List.append_inj heq hlength
          exact ⟨hleft, (List.cons.inj hright).2⟩
        rw [hcut.1, hcut.2]
        exact h
  · rw [getString_eq p hdot, hval, finds_iff]
    constructor
    · exact fun h => Or.inl ⟨hdot, (written_self val).mp h⟩
    · rintro (⟨_, h⟩ | ⟨s, s', rfl, _⟩)
      · exact (written_self val).mpr h
      · exact absurd (List.mem_append_right _ List.mem_cons_self) hdot

/-- `[a]`, `k=1`. -/
theorem lookups_agree_iff_plain :
    let p := (Parser.load {} fun _ => some ['[', 'a', ']', '\n', 'k', '=', '1']).2
    p.getString (['a'] ++ '.' :: ['k']) = ['1']
    ↔ '.' ∉ ['a'] ∧ ¬Quoted ['1']
      ∨ ∃ s s', ['a'] = s ++ '.' :: s' ∧ '.' ∉ s
        ∧ Finds (p.getValue s (s' ++ '.' :: ['k'])) ['1'] :=
  lookups_agree_iff _ ['a'] ['k'] ['1'] (by decide)

/-- `[a.b]`, `k=1`, and `[a]`, `k="'x'"`: the first is not found, and the second loses the inner
quotes too. -/
theorem lookups_differ :
    let p := (Parser.load {} fun _ => some ['[', 'a', '.', 'b', ']', '\n', 'k', '=', '1', '\n',
      '[', 'a', ']', '\n', 'k', '=', '"', '\'', 'x', '\'', '"']).2
    (Parser.load {} fun _ => some ['[', 'a', '.', 'b', ']', '\n', 'k', '=', '1', '\n',
        '[', 'a', ']', '\n', 'k', '=', '"', '\'', 'x', '\'', '"']).1 = .ok true
      ∧ p.getValue ['a', '.', 'b'] ['k'] = some ['1']
      ∧ p.getString (['a', '.', 'b'] ++ '.' :: ['k']) = []
      ∧ p.getValue ['a'] ['k'] = some ['\'', 'x', '\'']
      ∧ p.getString (['a'] ++ '.' :: ['k']) = ['x'] := by
  refine ⟨rfl, by decide, by decide, by decide, by decide⟩

end QuickStructs.TomlParser
