import QuickStructs.Proof.TomlEntries

/-!
# Quoted values

A value is searched for a number sign before its quotes. So a number sign between quotes ends
the value, and the opening quote stays. Apart from that a quoted value comes back as it is,
under the section and the key that it is written for, if the line is read there as the pair
that it is: if the loop comes to it, in that section, and finds the key where it ends.
-/

namespace QuickStructs.TomlParser

open Lib.Text

variable {b b' line key text rest sec s cur content note : Str} {c q : Char}
variable {above : List Str}

/-! ## Number signs -/

/-- **A number sign between the quotes ends the value**, and the quote before it stays. -/
theorem readValue_cut (hb : Blanks b) (hq : Quote q) (hcontent : q ∉ content)
    (hhash : '#' ∈ content) (rest : Str) :
    ∃ u, readValue (b ++ (q :: (content ++ [q])) ++ rest) = q :: u := by
  obtain ⟨u, w, rfl, hu⟩ := List.eq_append_cons_of_mem hhash
  have hmark : isBlank '#' = false := rfl
  have htrim : eraseTrailing (eraseLeading (b ++ (q :: (u ++ '#' :: w ++ [q])) ++ rest))
      = q :: u ++ '#' :: eraseTrailing (w ++ [q] ++ rest) := by
    have hlead : eraseLeading (b ++ (q :: (u ++ '#' :: w ++ [q])) ++ rest)
        = q :: u ++ '#' :: (w ++ [q] ++ rest) := by
      rw [erase_leading_mark hb hq.not_blank]
      simp only [List.append_assoc, List.cons_append]
    rw [hlead, eraseTrailing_eq, eraseTrailing_eq, rdropWhile_mark hmark]
  have hqhash : '#' ≠ q := by
    rcases hq with rfl | rfl <;> decide
  have hfirst : '#' ∉ q :: u := List.not_mem_cons_of_ne_of_not_mem hqhash hu
  have hend : eraseLeading (eraseTrailing (q :: u)) = q :: u.rdropWhile isBlank := by
    have hright : (q :: u).rdropWhile isBlank = q :: u.rdropWhile isBlank :=
      rdropWhile_mark (x := []) hq.not_blank
    rw [eraseTrailing_eq, eraseLeading_eq, hright, List.dropWhile_cons, hq.not_blank]
    rfl
  refine ⟨u.rdropWhile isBlank, ?_⟩
  unfold readValue
  simp only [htrim, find_mark hfirst, substr_before, hend]
  -- the first quote is the only one
  refine unquote_bare fun hlen q' _ hends => ?_
  obtain ⟨hhead, hlast⟩ := hends
  cases hhead
  have hne : u.rdropWhile isBlank ≠ [] := by
    intro hnil
    rw [hnil] at hlen
    exact absurd hlen (by simp)
  rw [List.getLast?_cons, List.getLast?_eq_some_getLast hne] at hlast
  have hmem : q ∈ u.rdropWhile isBlank := by
    have heq : (u.rdropWhile isBlank).getLast hne = q := by simpa using hlast
    exact heq ▸ List.getLast_mem hne
  exact hcontent (List.mem_append_left _ (mem_of_mem_rdropWhile hmem))

theorem readValue_quoted_iff (h : QuotedText text content note) (hn : '\n' ∉ text)
    (hopen : '[' ∉ content) (hnote : '[' ∉ note) : readValue text = content ↔ '#' ∉ content := by
  cases h with
  | mk b _ _ b' q hb hq hcontent hend hb' =>
      constructor
      · intro heq hhash
        obtain ⟨u, hu⟩ := readValue_cut hb hq hcontent hhash (note ++ b')
        rw [← List.append_assoc, heq] at hu
        exact hcontent (hu ▸ List.mem_cons_self)
      · intro hhash
        have hend' : LineEnd (· ≠ '[') note := by
          cases hend with
          | none => exact .none
          | comment b₁ t hb₁ _ =>
              refine .comment b₁ t hb₁ fun c hc hbracket => hnote ?_
              exact List.mem_append_right _ (List.mem_cons_of_mem _ (hbracket ▸ hc))
        have hntext : '\n' ∉ q :: (content ++ [q]) := fun hmem =>
          hn (List.mem_append_left _ (List.mem_append_left _ (List.mem_append_right _ hmem)))
        rw [← readValue_trailing,
          readValue_eq (.quoted q content hq hhash hopen) hend' hb hb' hntext]

/-- The only bracket there can be is in the comment. -/
theorem QuotedText.bracket (h : QuotedText text content note) (hopen : '[' ∉ content) :
    '[' ∈ text ↔ '[' ∈ note := by
  cases h with
  | mk b _ _ b' q hb hq _ _ hb' =>
      have hquote : '[' ≠ q := by
        rcases hq with rfl | rfl <;> decide
      have hvalue : '[' ∉ q :: (content ++ [q]) :=
        List.not_mem_cons_of_ne_of_not_mem hquote (List.not_mem_append hopen
          (List.not_mem_cons_of_ne_of_not_mem hquote List.not_mem_nil))
      constructor
      · intro hmem
        rcases List.mem_append.mp hmem with hmem | hmem
        · exact (List.mem_append.mp hmem).resolve_left
            (List.not_mem_append (hb.not_mem rfl) hvalue)
        · exact absurd hmem (hb'.not_mem rfl)
      · exact fun hmem => List.mem_append_left _ (List.mem_append_right _ hmem)

/-! ## The line of a quoted value -/

/-- What trimming leaves alone has no blank at its ends. -/
theorem tight_of_trim (h : trim s = s) : Tight s := by
  have hleft : s.dropWhile isBlank = s := by
    have hlead := eraseLeading_trim s
    rw [h, eraseLeading_eq] at hlead
    exact hlead
  have hright : s.rdropWhile isBlank = s := by
    have htrim := h
    unfold trim at htrim
    rw [eraseLeading_eq, eraseTrailing_eq, hleft] at htrim
    exact htrim
  refine ⟨fun c hc hblank => ?_, fun c hc hblank => ?_⟩
  · obtain ⟨t, rfl⟩ := List.head?_eq_some_iff.mp hc
    rw [List.dropWhile_cons, isBlank_of_blank hblank, if_pos rfl] at hleft
    have hlen := (List.dropWhile_suffix (l := t) isBlank).length_le
    rw [hleft, List.length_cons] at hlen
    omega
  · have hne : s ≠ [] := by
      rintro rfl
      exact absurd hc (by simp)
    have hlast : s.getLast hne = c := by
      rw [List.getLast?_eq_some_getLast hne] at hc
      exact Option.some.inj hc
    have hkept := List.rdropWhile_eq_self_iff.mp hright hne
    rw [hlast] at hkept
    exact hkept (isBlank_of_blank hblank)

/-- A line with an equal sign is a comment only if its key begins with a number sign. -/
theorem key_line_loud (hb : Blanks b) (hkey : Trimmed isBlank key) (hhash : key.head? ≠ some '#')
    (hb' : Blanks b') (text : Str) : ¬Silent (b ++ key ++ b' ++ '=' :: text) := by
  have hlead : eraseLeading (b ++ key ++ b' ++ '=' :: text)
      = (key ++ b').dropWhile isBlank ++ '=' :: text := by
    rw [eraseLeading_eq, dropWhile_mark (c := '=') rfl, List.append_assoc,
      List.dropWhile_append_of_pos hb.all]
  unfold Silent
  rw [hlead]
  cases key with
  | nil =>
      rw [List.nil_append, List.dropWhile_eq_nil_iff.mpr hb'.all]
      simp
  | cons c key =>
      have hc : isBlank c = false := by
        refine Bool.eq_false_iff.mpr fun hc => ?_
        have hleft := hkey.left
        rw [List.dropWhile_cons, if_pos hc] at hleft
        have hlen := (List.dropWhile_suffix (l := key) isBlank).length_le
        rw [hleft, List.length_cons] at hlen
        omega
      rw [List.cons_append, List.dropWhile_cons, hc]
      rintro (hnil | hhead)
      · exact absurd hnil (by simp)
      · exact hhash hhead

/-- What one line gives: a pair, if it is searched for an equal sign and has one, under a
section with a name. -/
theorem line_given (cur line sec key value : Str) :
    firstGiven sec key (given cur [line]) = some value
    ↔ Plain line ∧ '=' ∈ line ∧ cur ≠ [] ∧ cur = sec ∧ trim (before line '=') = key
      ∧ readValue (behind line '=') = value := by
  have hnil : ∀ {P : Prop}, ¬P → (firstGiven sec key [] = some value ↔ P) := fun hP =>
    iff_of_false (by simp [firstGiven]) hP
  rw [given]
  by_cases href : Refused cur line
  · rw [if_pos href]
    refine hnil fun h => ?_
    rcases href.2 with hequal | hcur
    · exact hequal h.2.1
    · exact h.2.2.1 hcur
  rw [if_neg href]
  by_cases hplain : Plain line
  · have hequal : '=' ∈ line := by_contra fun h => href ⟨hplain, Or.inl h⟩
    have hcur : cur ≠ [] := fun h => href ⟨hplain, Or.inr h⟩
    have hentry : lineEntry line
        = some (.pair (trim (before line '=')) (readValue (behind line '='))) := by
      unfold lineEntry
      rw [if_neg hplain.1, if_neg hplain.2, if_pos hequal]
    rw [hentry]
    show firstGiven sec key (⟨cur, _, _⟩ :: []) = _ ↔ _
    rw [firstGiven_cons]
    by_cases hkey : cur = sec ∧ trim (before line '=') = key
    · rw [if_pos hkey, Option.some_or, Option.some.injEq]
      exact ⟨fun hv => ⟨hplain, hequal, hcur, hkey.1, hkey.2, hv⟩, fun h => h.2.2.2.2.2⟩
    · rw [if_neg hkey, Option.none_or]
      exact hnil fun h => hkey ⟨h.2.2.2.1, h.2.2.2.2.1⟩
  · have hentry : ∀ k v, lineEntry line ≠ some (.pair k v) := by
      intro k v hk
      unfold lineEntry at hk
      split at hk
      · exact absurd hk (by simp)
      · rename_i hsilent
        split at hk
        · exact absurd hk (by simp)
        · rename_i hopen
          exact hplain ⟨hsilent, hopen⟩
    split
    · rename_i k v hk
      exact absurd hk (hentry k v)
    · exact hnil fun h => hplain h.1

/-- The line is read as the pair that it is: the loop comes to it, and in the section; and
nothing in the key, the content or the comment is taken for something else. -/
structure ReadAsWritten (above : List Str) (sec key content note : Str) : Prop where
  reached : ¬Stops above
  inside : above.foldl sectionAfter [] = sec
  named : sec ≠ []
  key : key = [] ∨ Key key
  hash : '#' ∉ content
  bracket : '[' ∉ note

/-- **What the line of a quoted value gives**, in the section `cur`. -/
theorem quoted_line_given (hb : Blanks b) (hb' : Blanks b') (htext : QuotedText text content note)
    (hn : '\n' ∉ b ++ key ++ b' ++ '=' :: text) (hopen : '[' ∉ content) (cur sec : Str) :
    firstGiven sec key (given cur [b ++ key ++ b' ++ '=' :: text]) = some content
    ↔ cur = sec ∧ sec ≠ [] ∧ (key = [] ∨ Key key) ∧ '#' ∉ content ∧ '[' ∉ note := by
  have hbracket := htext.bracket hopen
  have hequal : '=' ∈ b ++ key ++ b' ++ '=' :: text :=
    List.mem_append_right _ List.mem_cons_self
  have hnkey : '\n' ∉ key := fun h => hn
    (List.mem_append_left _ (List.mem_append_left _ (List.mem_append_right _ h)))
  have hntext : '\n' ∉ text := fun h => hn (List.mem_append_right _ (List.mem_cons_of_mem _ h))
  have hbehind : '=' ∉ key → before (b ++ key ++ b' ++ '=' :: text) '=' = b ++ key ++ b'
      ∧ behind (b ++ key ++ b' ++ '=' :: text) '=' = text := by
    intro hkey
    have hfirst : '=' ∉ b ++ key ++ b' :=
      List.not_mem_append (List.not_mem_append (hb.not_mem rfl) hkey) (hb'.not_mem rfl)
    exact ⟨before_mark hfirst, behind_mark hfirst⟩
  rw [line_given]
  constructor
  · rintro ⟨⟨hsilent, hplain⟩, _, hcur, rfl, hkey, hvalue⟩
    have hnote : '[' ∉ note := fun h => hplain
      (List.mem_append_right _ (List.mem_cons_of_mem _ (hbracket.mpr h)))
    have hkeyequal : '=' ∉ key := fun h => not_mem_before _ _ (mem_of_mem_trim (hkey ▸ h))
    have hhash := key_head hsilent hequal
    rw [hkey] at hhash
    rw [(hbehind hkeyequal).2, readValue_quoted_iff htext hntext hopen hnote] at hvalue
    refine ⟨rfl, hcur, or_iff_not_imp_left.mpr fun hne => ?_, hvalue, hnote⟩
    refine ⟨hne, tight_of_trim ?_, hhash, hkeyequal, fun h => hplain ?_⟩
    · rw [← hkey, trim_trim]
    · exact List.mem_append_left _ (List.mem_append_left _ (List.mem_append_right _ h))
  · rintro ⟨rfl, hcur, hkey, hhash, hnote⟩
    obtain ⟨htrimmed, hkeyhash, hkeyequal, hkeyopen⟩ : Trimmed isBlank key
        ∧ key.head? ≠ some '#' ∧ '=' ∉ key ∧ '[' ∉ key := by
      rcases hkey with rfl | hkey
      · exact ⟨⟨rfl, rfl⟩, by simp, by simp, by simp⟩
      · exact ⟨hkey.tight.trimmed hnkey, hkey.hash, hkey.equal, hkey.bracket⟩
    obtain ⟨hbefore, hrest⟩ := hbehind hkeyequal
    refine ⟨⟨key_line_loud hb htrimmed hkeyhash hb' text, ?_⟩, hequal, hcur, rfl, ?_, ?_⟩
    · refine List.not_mem_append (List.not_mem_append (List.not_mem_append (hb.not_mem rfl)
        hkeyopen) (hb'.not_mem rfl)) (List.not_mem_cons_of_ne_of_not_mem (by decide) ?_)
      exact fun h => hnote (hbracket.mp h)
    · rw [hbefore]
      exact erase_around hb htrimmed hb'
    · rw [hrest]
      exact (readValue_quoted_iff htext hntext hopen hnote).mpr hhash

/-! ## A quoted value in a file -/

/-- What a line that is read gives, before the lines below it. -/
theorem given_cons (href : ¬Refused cur line) (rest : List Str) :
    given cur (line :: rest) = given cur [line] ++ given (sectionAfter cur line) rest := by
  rw [given, if_neg href, given, if_neg href]
  have hsec : ∀ k v, lineEntry line = some (.pair k v) → sectionAfter cur line = cur := by
    intro k v h
    unfold sectionAfter
    rw [h]
  split
  · rename_i k v h
    rw [hsec k v h]
    rfl
  · rfl

/-- Lines that are all read give what they give, and then come those below them. -/
theorem given_read (cur : Str) (above rest : List Str)
    (h : ¬∃ a l b, above = a ++ l :: b ∧ Refused (a.foldl sectionAfter cur) l) :
    given cur (above ++ rest) = given cur above ++ given (above.foldl sectionAfter cur) rest := by
  induction above generalizing cur with
  | nil => rfl
  | cons line above ih =>
      rw [refused_cons, not_or] at h
      rw [List.cons_append, given_cons h.1, given_cons h.1 above, ih _ h.2, List.append_assoc]
      rfl

/-- Below a line that is refused nothing is read. -/
theorem given_refused (cur : Str) (above rest : List Str)
    (h : ∃ a l b, above = a ++ l :: b ∧ Refused (a.foldl sectionAfter cur) l) :
    given cur (above ++ rest) = given cur above := by
  induction above generalizing cur with
  | nil =>
      obtain ⟨a, l, b, heq, _⟩ := h
      exact absurd heq (by simp)
  | cons line above ih =>
      rw [refused_cons] at h
      by_cases href : Refused cur line
      · rw [List.cons_append, given, if_pos href, given, if_pos href]
      · rw [List.cons_append, given_cons href, given_cons href above, ih _ (h.resolve_left href)]

/-- What a lookup finds when a file has been loaded. -/
theorem load_finds {p : Parser} {files : String → Option Str} {file : Str}
    (hfile : files p.mFilepath = some file) (sec key : Str) :
    (p.load files).2.getValue sec key
      = (p.getValue sec key).or (firstGiven sec key (given [] (getlines file))) := by
  rw [load_getValue, gives, hfile, Option.bind_some]

/-- The value that the key has above the line. -/
def valueAbove (p : Parser) (above : List Str) (sec key : Str) : Option Str :=
  (p.getValue sec key).or (firstGiven sec key (given [] above))

/--
**A quoted value is read back exactly when its line is read as it is written**, unless the key
has a value already, from the lines above or from an earlier load: the first one counts, and it
may be the same.
-/
theorem quoted_survives_iff (p : Parser) (above : List Str) (habove : ∀ l ∈ above, '\n' ∉ l)
    (sec b key b' text content note : Str) (hb : Blanks b) (hb' : Blanks b')
    (htext : QuotedText text content note) (hn : '\n' ∉ b ++ key ++ b' ++ '=' :: text)
    (hopen : '[' ∉ content) :
    (∀ (files : String → Option Str) (file : Str) (rest : List Str),
      files p.mFilepath = some file →
      getlines file = above ++ (b ++ key ++ b' ++ '=' :: text) :: rest →
      (p.load files).2.getValue sec key = some content)
    ↔ valueAbove p above sec key = some content
      ∨ valueAbove p above sec key = none ∧ ReadAsWritten above sec key content note := by
  have hline := quoted_line_given hb hb' htext hn hopen
  generalize b ++ key ++ b' ++ '=' :: text = line at hline hn
  constructor
  · intro hall
    -- a file that ends with the line
    have hlines : ∀ l ∈ above ++ [line], '\n' ∉ l := by
      intro l hl
      rcases List.mem_append.mp hl with hl | hl
      · exact habove l hl
      · exact List.mem_singleton.mp hl ▸ hn
    have hvalue := hall (fun _ => some ((above ++ [line]).flatMap fun l => l ++ ['\n'])) _ [] rfl
      (getlines_lines hlines)
    rw [load_finds rfl, getlines_lines hlines] at hvalue
    by_cases hstops : Stops above
    · rw [given_refused [] above [line] hstops] at hvalue
      exact Or.inl hvalue
    · rw [given_read [] above [line] hstops, firstGiven_append, ← Option.or_assoc] at hvalue
      change (valueAbove p above sec key).or _ = _ at hvalue
      cases hold : valueAbove p above sec key with
      | some v =>
          rw [hold, Option.some_or] at hvalue
          exact Or.inl hvalue
      | none =>
          rw [hold, Option.none_or, hline] at hvalue
          obtain ⟨hinside, hnamed, hkey, hhash, hbracket⟩ := hvalue
          exact Or.inr ⟨rfl, hstops, hinside, hnamed, hkey, hhash, hbracket⟩
  · intro hcond files file rest hfile hlines
    rw [load_finds hfile, hlines]
    rcases hcond with hold | ⟨hnew, hread⟩
    · by_cases hstops : Stops above
      · rw [given_refused [] above _ hstops]
        exact hold
      · rw [given_read [] above _ hstops, firstGiven_append, ← Option.or_assoc]
        change (valueAbove p above sec key).or _ = _
        rw [hold]
        rfl
    · have hvalue := (hline (above.foldl sectionAfter []) sec).mpr
        ⟨hread.inside, hread.named, hread.key, hread.hash, hread.bracket⟩
      have href : ¬Refused (above.foldl sectionAfter []) line := by
        intro href
        rw [given, if_pos href] at hvalue
        exact absurd hvalue (by simp [firstGiven])
      rw [given_read [] above _ hread.reached, firstGiven_append, ← Option.or_assoc]
      change (valueAbove p above sec key).or _ = _
      rw [hnew, Option.none_or, given_cons href, firstGiven_append, hvalue]
      rfl

/-- A section `a` with `k="x" #`, for a parser that has loaded nothing. -/
theorem quoted_survives_iff_comment :
    (∀ (files : String → Option Str) (file : Str) (rest : List Str),
      files "etc/config.toml" = some file →
      getlines file = [['[', 'a', ']']] ++ ['k', '=', '"', 'x', '"', ' ', '#'] :: rest →
      (Parser.load {} files).2.getValue ['a'] ['k'] = some ['x'])
    ↔ valueAbove {} [['[', 'a', ']']] ['a'] ['k'] = some ['x']
      ∨ valueAbove {} [['[', 'a', ']']] ['a'] ['k'] = none
        ∧ ReadAsWritten [['[', 'a', ']']] ['a'] ['k'] ['x'] [' ', '#'] :=
  quoted_survives_iff {} [['[', 'a', ']']] (by decide) ['a'] [] ['k'] []
    ['"', 'x', '"', ' ', '#'] ['x'] [' ', '#'] (by simp [Blanks]) (by simp [Blanks])
    (QuotedText.mk [] ['x'] [' ', '#'] [] '"' (by simp [Blanks]) (Or.inl rfl) (by decide)
      (LineEnd.comment [' '] [] (by simp [Blanks, Blank]) (by simp)) (by simp [Blanks]))
    (by decide) (by decide)

/-- A section `a` with `k="x#y"`: the lookup returns the text before the number sign, and the
quote before that. -/
theorem quoted_value_cut :
    QuotedText ['"', 'x', '#', 'y', '"'] ['x', '#', 'y'] []
      ∧ let files : String → Option Str := fun _ =>
          some ['[', 'a', ']', '\n', 'k', '=', '"', 'x', '#', 'y', '"', '\n']
        (Parser.load {} files).1 = .ok true
        ∧ (Parser.load {} files).2.getValue ['a'] ['k'] = some ['"', 'x'] :=
  ⟨QuotedText.mk [] ['x', '#', 'y'] [] [] '"' (by simp [Blanks]) (Or.inl rfl) (by decide)
    LineEnd.none (by simp [Blanks]), rfl, by decide⟩

end QuickStructs.TomlParser
