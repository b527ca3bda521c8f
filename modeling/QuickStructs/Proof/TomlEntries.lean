import QuickStructs.Spec.TomlLines
import QuickStructs.Proof.TomlPairs

/-!
# Any line is taken for its entry

The code trims a line before it searches for a mark, and trims again what it has cut. What
the first trimming takes away the second would have taken too, so the entry can be cut from
the line as it stands.

From there the loop is told without the parser: what it stores, and where it stops, is
fixed by the lines. The parser only decides which of the pairs are new.
-/

namespace QuickStructs.TomlParser

open Lib.Text

variable {line x y s sec key cur : Str} {c : Char} {p q : Parser} {lines : List Str}

/-! ## Trimming and cutting -/

/-- A character that is not a blank stays where it is. -/
theorem trim_mark (hc : isBlank c = false) :
    trim (x ++ c :: y) = eraseLeading x ++ c :: eraseTrailing y := by
  unfold trim
  rw [eraseLeading_eq, eraseTrailing_eq, dropWhile_mark hc, rdropWhile_mark hc, eraseLeading_eq,
    eraseTrailing_eq]

theorem mem_trim (hc : isBlank c = false) : c ∈ trim line ↔ c ∈ line := by
  constructor
  · intro h
    unfold trim at h
    rw [eraseTrailing_eq, eraseLeading_eq] at h
    exact (List.dropWhile_suffix isBlank).subset (mem_of_mem_rdropWhile h)
  · intro h
    obtain ⟨x, y, rfl⟩ := List.append_of_mem h
    rw [trim_mark hc]
    exact List.mem_append_right _ List.mem_cons_self

theorem not_mem_eraseLeading (h : c ∉ x) : c ∉ eraseLeading x := by
  rw [eraseLeading_eq]
  exact fun hmem => h ((List.dropWhile_suffix isBlank).subset hmem)

theorem before_trim (hc : isBlank c = false) (h : c ∈ line) :
    before (trim line) c = eraseLeading (before line c) := by
  obtain ⟨x, y, rfl, hx⟩ := List.eq_append_cons_of_mem h
  rw [trim_mark hc, before_mark hx, before_mark (not_mem_eraseLeading hx)]

theorem behind_trim (hc : isBlank c = false) (h : c ∈ line) :
    behind (trim line) c = eraseTrailing (behind line c) := by
  obtain ⟨x, y, rfl, hx⟩ := List.eq_append_cons_of_mem h
  rw [trim_mark hc, behind_mark hx, behind_mark (not_mem_eraseLeading hx)]

theorem trim_eraseLeading (s : Str) : trim (eraseLeading s) = trim s := by
  unfold trim
  rw [eraseLeading_eq, eraseLeading_eq, List.dropWhile_idempotent]

theorem trim_eraseTrailing (s : Str) : trim (eraseTrailing s) = trim s := by
  unfold trim
  simp only [eraseLeading_eq, eraseTrailing_eq]
  rw [trim_comm, List.rdropWhile_idempotent]

/-- The name of a section, with the blanks at the end of the line or without. -/
theorem trim_before (hc : isBlank c = false) (s : Str) :
    trim (before (eraseTrailing s) c) = trim (before s c) := by
  by_cases h : c ∈ s
  · obtain ⟨x, y, rfl, hx⟩ := List.eq_append_cons_of_mem h
    rw [eraseTrailing_eq, rdropWhile_mark hc, before_mark hx, before_mark hx]
  · have hend : c ∉ eraseTrailing s := by
      rw [eraseTrailing_eq]
      exact fun hmem => h (mem_of_mem_rdropWhile hmem)
    rw [before_none h, before_none hend, trim_eraseTrailing]

/-- The first character that counts is still the first when the end is dropped. -/
theorem head_trim (h : eraseLeading line ≠ []) : (trim line).head? = (eraseLeading line).head? := by
  obtain ⟨c, t, hct⟩ := List.exists_cons_of_ne_nil h
  have hc : isBlank c = false := by
    rw [eraseLeading_eq] at hct
    have hhead := List.head?_dropWhile_not isBlank line
    rw [hct] at hhead
    simpa using hhead
  have htrim : (c :: t).rdropWhile isBlank = c :: t.rdropWhile isBlank :=
    rdropWhile_mark (x := []) hc
  unfold trim
  rw [hct, eraseTrailing_eq, htrim]
  rfl

theorem trim_trim (s : Str) : trim (trim s) = trim s := by
  have hright : trim (trim s) = trim (eraseLeading s) := trim_eraseTrailing (eraseLeading s)
  rw [hright, trim_eraseLeading]

theorem eraseLeading_trim (s : Str) : eraseLeading (trim s) = trim s := by
  unfold trim
  rw [eraseTrailing_eq, eraseLeading_eq, eraseLeading_eq, ← trim_comm, List.dropWhile_idempotent]

theorem mem_of_mem_trim (h : c ∈ trim s) : c ∈ s := by
  unfold trim at h
  rw [eraseTrailing_eq, eraseLeading_eq] at h
  exact (List.dropWhile_suffix isBlank).subset (mem_of_mem_rdropWhile h)

theorem mem_of_mem_before {d : Char} (h : c ∈ before s d) : c ∈ s :=
  (List.takeWhile_prefix _).subset h

theorem mem_of_mem_behind {d : Char} (h : c ∈ behind s d) : c ∈ s :=
  (List.dropWhile_suffix _).subset (List.mem_of_mem_tail h)

theorem not_mem_before (s : Str) (c : Char) : c ∉ before s c := by
  intro h
  have hne := List.mem_takeWhile_imp h
  simp at hne

/-! ## Lines -/

/-- A key does not begin with a number sign, as its line would be a comment. -/
theorem key_head (hsilent : ¬Silent line) (hequal : '=' ∈ line) :
    (trim (before line '=')).head? ≠ some '#' := by
  intro hhead
  obtain ⟨x, y, rfl, hx⟩ := List.eq_append_cons_of_mem hequal
  rw [before_mark hx] at hhead
  by_cases hnil : eraseLeading x = []
  · have htrim : trim x = [] := by
      unfold trim
      rw [hnil]
      rfl
    rw [htrim] at hhead
    exact absurd hhead (by simp)
  · rw [head_trim hnil] at hhead
    refine hsilent (Or.inr ?_)
    rw [eraseLeading_eq, dropWhile_mark (c := '=') rfl, ← eraseLeading_eq]
    obtain ⟨d, t, hd⟩ := List.exists_cons_of_ne_nil hnil
    rw [hd] at hhead ⊢
    exact hhead

theorem extract_silent (h : Silent line) (p : Parser) (cur : Str) :
    p.extractLine cur line = some (p, cur) := by
  unfold Parser.extractLine
  by_cases hnil : eraseLeading line = []
  · simp only [if_pos hnil]
  · have hhash : (eraseTrailing (eraseLeading line)).head? = some '#' :=
      (head_trim hnil).trans (h.resolve_left hnil)
    simp only [if_neg hnil, if_pos hhash]

/-- A line that is not silent is searched for its marks. -/
theorem extract_searched (h : ¬Silent line) (p : Parser) (cur : Str) :
    p.extractLine cur line =
      match find (trim line) '[' with
      | some i =>
        let sec := trim (substr (substr (trim line) (i + 1) none) 0
          (find (substr (trim line) (i + 1) none) ']'))
        some ({ p with mSections := p.mSections ++ [sec] }, sec)
      | none =>
        match find (trim line) '=' with
        | some i =>
          if cur = [] then none
          else
            some (p.emplace cur (trim (substr (trim line) 0 (some i)))
              (readValue (substr (trim line) (i + 1) none)), cur)
        | none => none := by
  have hnil : eraseLeading line ≠ [] := fun hnil => h (Or.inl hnil)
  have hhash : ¬(eraseTrailing (eraseLeading line)).head? = some '#' := fun hhash =>
    h (Or.inr ((head_trim hnil).symm.trans hhash))
  unfold Parser.extractLine
  simp only [if_neg hnil, if_neg hhash]
  rfl

theorem extract_bracket (h : ¬Silent line) (hopen : '[' ∈ line) (p : Parser) (cur : Str) :
    p.extractLine cur line
      = some (p.take cur (.header (trim (before (behind line '[') ']')))) := by
  obtain ⟨i, hi⟩ := find_some ((mem_trim (c := '[') rfl).mpr hopen)
  rw [extract_searched h, hi]
  simp only [substr_find, substr_behind hi, behind_trim (c := '[') rfl hopen,
    trim_before (c := ']') rfl]
  rfl

theorem extract_equal (h : ¬Silent line) (hopen : '[' ∉ line)
    (hequal : '=' ∈ line) (hcur : cur ≠ [])
    (p : Parser) : p.extractLine cur line
      = some (p.take cur (.pair (trim (before line '=')) (readValue (behind line '=')))) := by
  have hnone : '[' ∉ trim line := fun hmem => hopen ((mem_trim rfl).mp hmem)
  obtain ⟨i, hi⟩ := find_some ((mem_trim (c := '=') rfl).mpr hequal)
  have hkey : substr (trim line) 0 (some i) = before (trim line) '=' := by
    rw [← hi, substr_find]
  rw [extract_searched h, find_none hnone, hi]
  simp only [if_neg hcur, hkey, substr_behind hi, before_trim (c := '=') rfl hequal,
    behind_trim (c := '=') rfl hequal, trim_eraseLeading, readValue_trailing]
  rfl

/-- **A refused line is an error.** -/
theorem extract_refused (h : Refused cur line) (p : Parser) : p.extractLine cur line = none := by
  obtain ⟨⟨hsilent, hopen⟩, hline⟩ := h
  have hnone : '[' ∉ trim line := fun hmem => hopen ((mem_trim rfl).mp hmem)
  rw [extract_searched hsilent, find_none hnone]
  rcases hline with hequal | hcur
  · have hequal' : '=' ∉ trim line := fun hmem => hequal ((mem_trim rfl).mp hmem)
    rw [find_none hequal']
  · cases find (trim line) '=' with
    | none => rfl
    | some i => exact if_pos hcur

/-- **Any other line is taken for its entry.** -/
theorem extract_entry (h : ¬Refused cur line) :
    ∃ e, lineEntry line = some e ∧ ∀ p : Parser, p.extractLine cur line = some (p.take cur e) := by
  unfold lineEntry
  split
  · rename_i hsilent
    exact ⟨.nothing, rfl, fun p => extract_silent hsilent p cur⟩
  rename_i hsilent
  split
  · rename_i hopen
    exact ⟨_, rfl, fun p => extract_bracket hsilent hopen p cur⟩
  rename_i hopen
  split
  · rename_i hequal
    exact ⟨_, rfl, extract_equal hsilent hopen hequal fun hcur => h ⟨⟨hsilent, hopen⟩, Or.inr hcur⟩⟩
  · rename_i hequal
    exact absurd ⟨⟨hsilent, hopen⟩, Or.inl hequal⟩ h

/-! ## Files -/

/-- The section after a line that is read. -/
theorem take_section (e : Entry) (h : lineEntry line = some e) (p : Parser) (cur : Str) :
    (p.take cur e).2 = sectionAfter cur line := by
  unfold sectionAfter
  rw [h]
  cases e <;> rfl

theorem extractLines_refused (h : Refused cur line) (p : Parser) (rest : List Str) :
    p.extractLines cur (line :: rest) = (.error .PARSE_ERROR, p) := by
  rw [Parser.extractLines, extract_refused h]

/-- A line that is read, and the rest of the file behind it. -/
theorem extractLines_read (h : ¬Refused cur line) :
    ∃ e, lineEntry line = some e ∧ ∀ (p : Parser) (rest : List Str),
      p.extractLines cur (line :: rest)
        = (p.take cur e).1.extractLines (sectionAfter cur line) rest := by
  obtain ⟨e, he, hextract⟩ := extract_entry h
  refine ⟨e, he, fun p rest => ?_⟩
  rw [← take_section e he p cur]
  exact extractLines_cons (hextract p) rest

/-- The first line that is refused is this one, or comes later. -/
theorem refused_cons (cur line : Str) (lines : List Str) :
    (∃ above l below, line :: lines = above ++ l :: below
      ∧ Refused (above.foldl sectionAfter cur) l)
    ↔ Refused cur line ∨ ∃ above l below, lines = above ++ l :: below
      ∧ Refused (above.foldl sectionAfter (sectionAfter cur line)) l := by
  constructor
  · rintro ⟨above, l, below, heq, hl⟩
    cases above with
    | nil =>
        rw [List.nil_append] at heq
        exact Or.inl ((List.cons.inj heq).1 ▸ hl)
    | cons a above =>
        obtain ⟨rfl, rfl⟩ := List.cons.inj heq
        exact Or.inr ⟨above, l, below, rfl, hl⟩
  · rintro (href | ⟨above, l, below, rfl, hl⟩)
    · exact ⟨[], line, lines, rfl, href⟩
    · exact ⟨line :: above, l, below, rfl, hl⟩

/-- **Where the loop stops** is a matter of the lines. -/
theorem extractLines_error_iff (p : Parser) (cur : Str) (lines : List Str) :
    (∃ e, (p.extractLines cur lines).1 = .error e)
    ↔ ∃ above line below, lines = above ++ line :: below
        ∧ Refused (above.foldl sectionAfter cur) line := by
  induction lines generalizing p cur with
  | nil =>
      refine iff_of_false (fun ⟨e, he⟩ => absurd he (by simp [Parser.extractLines])) ?_
      rintro ⟨above, line, below, h, _⟩
      exact absurd h (by simp)
  | cons line lines ih =>
      rw [refused_cons]
      by_cases href : Refused cur line
      · rw [extractLines_refused href]
        exact iff_of_true ⟨_, rfl⟩ (Or.inl href)
      · obtain ⟨e, _, hread⟩ := extractLines_read href
        rw [hread, ih, or_iff_right href]

theorem firstGiven_cons (sec key : Str) (g : Given) (pairs : List Given) :
    firstGiven sec key (g :: pairs)
      = (if g.sec = sec ∧ g.key = key then some g.value else none).or
        (firstGiven sec key pairs) := by
  unfold firstGiven
  rw [List.find?_cons]
  by_cases h : g.sec = sec ∧ g.key = key
  · simp [h]
  · simp [h]

theorem firstGiven_append (sec key : Str) (pairs rest : List Given) :
    firstGiven sec key (pairs ++ rest)
      = (firstGiven sec key pairs).or (firstGiven sec key rest) := by
  unfold firstGiven
  rw [List.find?_append]
  cases pairs.find? fun g => g.sec = sec ∧ g.key = key <;> rfl

/-- **What the loop stores** is a matter of the lines too, as far as there is no value yet. -/
theorem extractLines_given (p : Parser) (cur : Str) (lines : List Str) (sec key : Str) :
    (p.extractLines cur lines).2.getValue sec key
      = (p.getValue sec key).or (firstGiven sec key (given cur lines)) := by
  induction lines generalizing p cur with
  | nil => exact (Option.or_none).symm
  | cons line lines ih =>
      rw [given]
      by_cases href : Refused cur line
      · rw [extractLines_refused href, if_pos href]
        exact (Option.or_none).symm
      · obtain ⟨e, he, hread⟩ := extractLines_read href
        rw [hread, ih, if_neg href]
        have hsec : sectionAfter cur line = _ := (take_section e he p cur).symm
        cases e with
        | nothing =>
            rw [he]
            rfl
        | header name =>
            rw [he]
            rfl
        | pair k value =>
            rw [he, hsec]
            show ((p.emplace cur k value).getValue sec key).or _ = _
            rw [getValue_emplace, Option.or_assoc, firstGiven_cons]
            rfl

/-! ## Loads -/

theorem load_keeps {files : String → Option Str} {file : Str}
    (hfile : files p.mFilepath = some file) :
    (p.load files).2 = (p.extractLines [] (getlines file)).2 := by
  rw [load_eq hfile]
  generalize p.extractLines [] (getlines file) = r
  obtain ⟨answer, p'⟩ := r
  cases answer <;> rfl

theorem load_missing {files : String → Option Str} (h : files p.mFilepath = none) :
    p.load files = (.error .FILE_NOT_FOUND, p) := by
  unfold Parser.load
  rw [h]

/-- A load fails where there is no file, or where its lines are not read to their end. -/
theorem load_error_iff {files : String → Option Str} {file : Str}
    (hfile : files p.mFilepath = some file) :
    (∃ e, (p.load files).1 = .error e) ↔ Stops (getlines file) := by
  unfold Stops
  rw [← extractLines_error_iff p, load_eq hfile]
  cases hread : p.extractLines [] (getlines file) with
  | mk answer q => cases answer <;> simp

/-- **What a lookup finds after a load**, failed or not: what it found before, and what the file
gives first. -/
theorem load_getValue (p : Parser) (files : String → Option Str) (sec key : Str) :
    (p.load files).2.getValue sec key
      = (p.getValue sec key).or (gives p.mFilepath files sec key) := by
  unfold gives
  cases hfile : files p.mFilepath with
  | none =>
      rw [load_missing hfile]
      exact (Option.or_none).symm
  | some file => rw [load_keeps hfile, extractLines_given, Option.bind_some]

end QuickStructs.TomlParser
