import QuickStructs.Proof.TomlEntries

/-!
# Malformed lines

A line is refused when it has neither of the two marks, or when it is a pair before the first
section with a name. That is all: a bracket anywhere makes a header of a line, and an equal
sign makes a pair of it, however the line goes on.
-/

namespace QuickStructs.TomlParser

open Lib.Text

variable {line b cur : Str} {c : Char} {p : Parser}

theorem blank_of_isBlank (h : isBlank c = true) (hn : c ≠ '\n') : Blank c := by
  by_contra hc
  rw [isBlank_eq_false hc hn] at h
  exact absurd h (by decide)

/-- Blanks, and comments, are as they should be. -/
theorem Silent.wellFormed (h : Silent line) (hn : '\n' ∉ line) : WellFormed line := by
  have hblanks : Blanks (line.takeWhile isBlank) := by
    intro c hc
    refine blank_of_isBlank (List.mem_takeWhile_imp hc) fun hcn => hn ?_
    exact (List.takeWhile_prefix isBlank).subset (hcn ▸ hc)
  have hsplit : line = line.takeWhile isBlank ++ eraseLeading line := by
    rw [eraseLeading_eq, List.takeWhile_append_dropWhile]
  rcases h with hnil | hhash
  · rw [hsplit, hnil, ← List.append_nil (_ ++ [])]
    exact WellFormed.mk _ [] [] hblanks .empty (.blanks [] fun _ hc => absurd hc List.not_mem_nil)
  · obtain ⟨text, htext⟩ := List.head?_eq_some_iff.mp hhash
    rw [hsplit, htext]
    exact WellFormed.mk [] [] _ (fun _ hc => absurd hc List.not_mem_nil)
      .empty (.comment _ text hblanks)

/-- The marks of a line that is as it should be. -/
theorem WellFormed.marks (h : WellFormed line) : Silent line ∨ ']' ∈ line ∨ '=' ∈ line := by
  cases h with
  | mk b core tail hb hcore htail =>
      cases hcore with
      | empty =>
          refine Or.inl ?_
          unfold Silent
          rw [List.append_nil, eraseLeading_eq, List.dropWhile_append_of_pos hb.all]
          cases htail with
          | blanks _ htail => exact Or.inl (List.dropWhile_eq_nil_iff.mpr htail.all)
          | comment b' text hb' =>
              rw [List.dropWhile_append_of_pos hb'.all]
              exact Or.inr rfl
      | header name _ _ =>
          refine Or.inr (Or.inl (List.mem_append_left _ (List.mem_append_right _ ?_)))
          exact List.mem_cons_of_mem _ (List.mem_append_right _ List.mem_cons_self)
      | pair key value _ _ =>
          refine Or.inr (Or.inr (List.mem_append_left _ (List.mem_append_right _ ?_)))
          exact List.mem_append_right _ List.mem_cons_self

/--
**A load rejects a malformed line exactly when a line of the file is refused**: one that has no
bracket, and has no equal sign either or stands before the first section with a name.
-/
theorem rejects_iff (p : Parser) (files : String → Option Str) (file : Str)
    (hfile : files p.mFilepath = some file) :
    ((∃ line ∈ getlines file, ¬WellFormed line) → ∃ e, (p.load files).1 = .error e)
    ↔ Stops (getlines file) ∨ ∀ line ∈ getlines file, WellFormed line := by
  rw [load_error_iff hfile]
  constructor
  · intro h
    by_cases hbad : ∃ line ∈ getlines file, ¬WellFormed line
    · exact Or.inl (h hbad)
    · exact Or.inr fun line hline => by_contra fun hl => hbad ⟨line, hline, hl⟩
  · rintro (h | hgood) ⟨line, hline, hbad⟩
    · exact h
    · exact absurd (hgood line hline) hbad

/-- A file of one line, `x`. -/
theorem rejects_iff_word :
    ((∃ line ∈ getlines ['x'], ¬WellFormed line) →
      ∃ e, (Parser.load {} fun _ => some ['x']).1 = .error e)
    ↔ Stops (getlines ['x']) ∨ ∀ line ∈ getlines ['x'], WellFormed line :=
  rejects_iff {} (fun _ => some ['x']) ['x'] rfl

/-- `[a`, and `k=1`: the first line is not closed, and the load succeeds. -/
theorem malformed_accepted :
    let file : Str := ['[', 'a', '\n', 'k', '=', '1']
    ['[', 'a'] ∈ getlines file ∧ ¬WellFormed ['[', 'a']
      ∧ (Parser.load {} fun _ => some file).1 = .ok true
      ∧ (Parser.load {} fun _ => some file).2.getValue ['a'] ['k'] = some ['1'] := by
  refine ⟨by decide, fun h => ?_, rfl, by decide⟩
  rcases h.marks with hsilent | hclose | hequal
  · exact absurd hsilent (by decide)
  · exact absurd hclose (by decide)
  · exact absurd hequal (by decide)

/--
**The malformed lines that are rejected wherever they stand** are those with neither of the two
marks.
-/
theorem always_rejected_iff (line : Str) (hn : '\n' ∉ line) (hbad : ¬WellFormed line) :
    (∀ (p : Parser) (files : String → Option Str) (file : Str), files p.mFilepath = some file →
      line ∈ getlines file → ∃ e, (p.load files).1 = .error e)
    ↔ '[' ∉ line ∧ '=' ∉ line := by
  have hsilent : ¬Silent line := fun h => hbad (h.wellFormed hn)
  constructor
  · intro hall
    -- the line under a section
    have hlines : ∀ l ∈ [['[', 'a', ']'], line], '\n' ∉ l := by
      intro l hl
      rcases List.mem_cons.mp hl with rfl | hl
      · decide
      · exact List.mem_singleton.mp hl ▸ hn
    have herr := hall {}
      (fun _ => some ([['[', 'a', ']'], line].flatMap fun l => l ++ ['\n'])) _ rfl
      (by rw [getlines_lines hlines]; exact List.mem_cons_of_mem _ List.mem_cons_self)
    rw [load_error_iff rfl, getlines_lines hlines, Stops, ← extractLines_error_iff {}] at herr
    have hfirst : ¬Refused [] ['[', 'a', ']'] := by decide
    have hsec : sectionAfter [] ['[', 'a', ']'] = ['a'] := by decide
    obtain ⟨_, _, hheader⟩ := extractLines_read hfirst
    by_cases href : Refused ['a'] line
    · exact ⟨href.1.2, href.2.resolve_right (by decide)⟩
    · obtain ⟨_, _, hline⟩ := extractLines_read href
      rw [hheader, hsec, hline] at herr
      obtain ⟨e, he⟩ := herr
      exact absurd he (by simp [Parser.extractLines])
  · rintro ⟨hopen, hequal⟩ p files file hfile hline
    rw [load_error_iff hfile]
    obtain ⟨above, below, hsplit⟩ := List.append_of_mem hline
    exact ⟨above, line, below, hsplit, ⟨hsilent, hopen⟩, Or.inl hequal⟩

end QuickStructs.TomlParser
