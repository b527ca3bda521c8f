import QuickStructs.Proof.TomlRead

/-!
# Pairs with brackets in them

A line is searched for an opening bracket before anything else. So a bracket in a value or in a
comment makes the line a header.
-/

namespace QuickStructs.TomlParser

open Lib.Text

variable {line key text sec cur : Str} {p p' : Parser}

theorem KeyLine.newline (h : KeyLine line key text) (hn : '\n' ∉ line) :
    '\n' ∉ key ∧ '\n' ∉ text := by
  cases h with
  | mk b _ b' _ _ _ _ =>
      refine ⟨fun hmem => hn ?_, fun hmem => hn ?_⟩
      · exact List.mem_append_left _ (List.mem_append_left _ (List.mem_append_right _ hmem))
      · exact List.mem_append_right _ (List.mem_cons_of_mem _ hmem)

theorem KeyLine.extract (h : KeyLine line key text) (hn : '\n' ∉ line) (hcur : cur ≠ [])
    (htext : '[' ∉ text) :
    p.extractLine cur line = some (p.emplace cur key (readValue text), cur) := by
  have hnkey := (h.newline hn).1
  cases h with
  | mk b _ b' _ hb hkey hb' =>
      exact extract_key_line hb hb' hkey.ne (hkey.tight.trimmed hnkey) hkey.hash hkey.equal
        hkey.bracket htext hcur

/-- **With a bracket behind the equal sign, the line is taken for a header.** -/
theorem KeyLine.misread (h : KeyLine line key text) (hn : '\n' ∉ line) (htext : '[' ∈ text) :
    ∃ sec, p.extractLine cur line = some ({ p with mSections := p.mSections ++ [sec] }, sec) := by
  have hnkey := (h.newline hn).1
  cases h with
  | mk b _ b' _ hb hkey hb' =>
      obtain ⟨hlead, htrim⟩ := trim_key_line hb hkey.ne (hkey.tight.trimmed hnkey) b' text
      obtain ⟨hline, _⟩ := key_line_starts hkey.ne hkey.hash b' text
      obtain ⟨_, hstart⟩ := key_line_starts hkey.ne hkey.hash b' (eraseTrailing text)
      have hmem : '[' ∈ key ++ b' ++ '=' :: eraseTrailing text := by
        rw [eraseTrailing_eq]
        exact List.mem_append_right _ (List.mem_cons_of_mem _ (mem_rdropWhile rfl htext))
      obtain ⟨i, hopen⟩ := find_some hmem
      unfold Parser.extractLine
      simp only [hlead, if_neg hline, htrim, if_neg hstart, hopen]
      exact ⟨_, rfl⟩

/-- What the loop does with one line more. -/
theorem extractLines_cons (h : p.extractLine cur line = some (p', sec)) (rest : List Str) :
    p.extractLines cur (line :: rest) = p'.extractLines sec rest := by
  rw [Parser.extractLines, h]

/-- **A line with a key and an equal sign is read as a pair exactly when there is no bracket
behind them.** -/
theorem key_line_iff (p : Parser) (cur : Str) (hcur : cur ≠ []) (line key text : Str)
    (hline : KeyLine line key text) (hn : '\n' ∉ line) :
    (∀ rest, p.extractLines cur (line :: rest)
      = (p.emplace cur key (readValue text)).extractLines cur rest) ↔ '[' ∉ text := by
  constructor
  · intro hall htext
    obtain ⟨sec, hmisread⟩ : ∃ sec, p.extractLine cur line
        = some ({ p with mSections := p.mSections ++ [sec] }, sec) := hline.misread hn htext
    have hsections := congrArg (fun r => r.2.mSections) (hall [])
    rw [extractLines_cons hmisread] at hsections
    -- there is one section more
    have hlength : (p.mSections ++ [sec]).length = p.mSections.length :=
      congrArg List.length hsections
    rw [List.length_append, List.length_singleton] at hlength
    omega
  · intro htext rest
    exact extractLines_cons (hline.extract hn hcur htext) rest

theorem key_k : Key ['k'] :=
  ⟨by decide, ⟨by simp [Blank], by simp [Blank]⟩, by decide, by decide, by decide⟩

/-- `k = 1 # x`, under a section `a`. -/
theorem key_line_iff_comment :
    (∀ rest, Parser.extractLines {} ['a'] (['k', ' ', '=', ' ', '1', ' ', '#', ' ', 'x'] :: rest)
      = (Parser.emplace {} ['a'] ['k']
        (readValue [' ', '1', ' ', '#', ' ', 'x'])).extractLines ['a']
        rest) ↔ '[' ∉ [' ', '1', ' ', '#', ' ', 'x'] :=
  key_line_iff {} ['a'] (by decide) _ _ _
    (KeyLine.mk [] ['k'] [' '] [' ', '1', ' ', '#', ' ', 'x'] (by simp [Blanks]) key_k
      (by simp [Blanks, Blank])) (by decide)

/-- `[net]`, `ip = [::1]`, `port = 80`: the second line makes a section of its own, and the
third is stored there. -/
theorem key_line_lost :
    KeyLine ['i', 'p', ' ', '=', ' ', '[', ':', ':', '1', ']'] ['i', 'p']
        [' ', '[', ':', ':', '1', ']']
      ∧ (Parser.extractLines {} ['n', 'e', 't']
          [['i', 'p', ' ', '=', ' ', '[', ':', ':', '1', ']'], ['p', 'o', 'r', 't', '=', '8', '0']]
        ≠ (Parser.emplace {} ['n', 'e', 't'] ['i', 'p'] (readValue [' ', '[', ':', ':', '1', ']'])
            ).extractLines ['n', 'e', 't'] [['p', 'o', 'r', 't', '=', '8', '0']])
      ∧ let files : String → Option Str := fun _ =>
          some ['[', 'n', 'e', 't', ']', '\n', 'i', 'p', ' ', '=', ' ', '[', ':', ':', '1', ']',
            '\n', 'p', 'o', 'r', 't', '=', '8', '0']
        (Parser.load {} files).1 = .ok true
        ∧ (Parser.load {} files).2.getValue ['n', 'e', 't'] ['i', 'p'] = none
        ∧ (Parser.load {} files).2.getValue ['n', 'e', 't'] ['p', 'o', 'r', 't'] = none := by
  refine ⟨KeyLine.mk [] ['i', 'p'] [' '] _ (by simp [Blanks])
    ⟨by decide, ⟨by simp [Blank], by simp [Blank]⟩, by decide, by decide, by decide⟩
    (by simp [Blanks, Blank]), fun heq => ?_, rfl, by decide, by decide⟩
  have hsections := congrArg (fun r => r.2.mSections) heq
  exact absurd hsections (by decide)

end QuickStructs.TomlParser
