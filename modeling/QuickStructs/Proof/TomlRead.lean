import QuickStructs.Spec.Toml

/-!
# Well-formed files are read as they are meant

A line is read by searching for marks and cutting at them. In a well-formed line each
mark that is searched for is the one that is meant, because the fields before it do not
have it; what is dropped at the ends of a piece is the blanks around a field, because
the field has none at its own ends. Quotes and number signs are not blanks, so they stop
what is dropped.

The loop is then told by entries: what it has stored is what the lines so far say first.
-/

namespace QuickStructs.TomlParser

open Lib.Text

variable {b b' t x y line file key value text rest sec name k cur : Str} {c : Char} {e : Entry}
variable {p : Parser} {entries : List Entry} {lines : List Str}

/-! ## Blanks -/

/-- The characters that the code drops. -/
def isBlank (c : Char) : Bool := c ∈ blanks

theorem isBlank_of_blank (h : Blank c) : isBlank c = true := by
  rcases h with rfl | rfl | rfl <;> rfl

theorem isBlank_eq_false (h : ¬Blank c) (hn : c ≠ '\n') : isBlank c = false := by
  refine decide_eq_false fun hc => ?_
  rcases List.mem_cons.mp hc with hc | hc
  · exact h (Or.inl hc)
  rcases List.mem_cons.mp hc with hc | hc
  · exact h (Or.inr (Or.inl hc))
  rcases List.mem_cons.mp hc with hc | hc
  · exact h (Or.inr (Or.inr hc))
  · exact hn (List.mem_singleton.mp hc)

theorem Blanks.all (h : Blanks b) : ∀ c ∈ b, isBlank c = true := fun c hc =>
  isBlank_of_blank (h c hc)

theorem Blanks.not_mem (h : Blanks b) (hc : isBlank c = false) : c ∉ b := by
  intro hmem
  rw [isBlank_of_blank (h c hmem)] at hc
  exact absurd hc (by decide)

/-- Within a line, nothing is dropped from a field without blanks at its ends. -/
theorem Tight.trimmed (h : Tight t) (hn : '\n' ∉ t) : Trimmed isBlank t where
  left := by
    cases t with
    | nil => rfl
    | cons c t =>
        have hc : c ≠ '\n' := fun hcn => hn (hcn ▸ List.mem_cons_self)
        rw [List.dropWhile_cons, isBlank_eq_false (h.first c rfl) hc]
        rfl
  right := by
    refine List.rdropWhile_eq_self_iff.mpr fun hne hblank => ?_
    have hlast := isBlank_eq_false (h.last _ (List.getLast?_eq_some_getLast hne))
      fun hcn => hn (hcn ▸ List.getLast_mem hne)
    rw [hlast] at hblank
    exact absurd hblank (by decide)

theorem eraseLeading_eq (s : Str) : eraseLeading s = s.dropWhile isBlank := erase_leading s blanks

theorem eraseTrailing_eq (s : Str) : eraseTrailing s = s.rdropWhile isBlank :=
  erase_trailing s blanks

/-- A field loses the blanks around it. -/
theorem erase_around (hb : Blanks b) (ht : Trimmed isBlank t) (hb' : Blanks b') :
    eraseTrailing (eraseLeading (b ++ t ++ b')) = t := by
  rw [eraseLeading_eq, eraseTrailing_eq]
  exact trim_left_right hb.all ht hb'.all

/-! ## Values -/

theorem unquote_bare (h : 2 ≤ text.length → ∀ q, Quote q →
    ¬(text.head? = some q ∧ text.getLast? = some q)) : unquote text = text := by
  refine if_neg ?_
  rintro ⟨hlen, hq | hq⟩
  · exact h hlen '"' (Or.inl rfl) hq
  · exact h hlen '\'' (Or.inr rfl) hq

/-- The code finds the quotes around a text. -/
theorem quotes_found {q : Char} (hq : Quote q) (content : Str) :
    2 ≤ (q :: (content ++ [q])).length
      ∧ (quotedBy '"' (q :: (content ++ [q])) ∨ quotedBy '\'' (q :: (content ++ [q]))) := by
  have hends : quotedBy q (q :: (content ++ [q])) := by
    refine ⟨rfl, ?_⟩
    rw [← List.cons_append, List.getLast?_concat]
  refine ⟨?_, ?_⟩
  · rw [List.length_cons, List.length_append]
    exact Nat.succ_le_succ (Nat.le_add_left 1 _)
  · rcases hq with rfl | rfl
    · exact Or.inl hends
    · exact Or.inr hends

theorem unquote_quoted {q : Char} (hq : Quote q) (content : Str) :
    unquote (q :: (content ++ [q])) = content := by
  have hlen : (q :: (content ++ [q])).length - 2 = content.length := by
    rw [List.length_cons, List.length_append]
    rfl
  unfold unquote
  rw [if_pos (quotes_found hq content), hlen]
  exact List.take_left

theorem Value.unquote (h : Value text value) : unquote text = value := by
  cases h with
  | bare _ _ _ _ hq => exact unquote_bare hq
  | quoted q content hq _ _ => exact unquote_quoted hq _

theorem Quote.not_blank {q : Char} (h : Quote q) : isBlank q = false := by
  rcases h with rfl | rfl <;> rfl

theorem Value.trimmed (h : Value text value) (hn : '\n' ∉ text) : Trimmed isBlank text := by
  cases h with
  | bare _ ht _ _ _ => exact ht.trimmed hn
  | quoted q content hq _ _ =>
      refine ⟨?_, ?_⟩
      · rw [List.dropWhile_cons, hq.not_blank]
        rfl
      · rw [← List.cons_append, rdropWhile_mark hq.not_blank]
        rfl

theorem Value.not_mem (h : Value text value) : '#' ∉ text ∧ '[' ∉ text := by
  cases h with
  | bare _ _ hhash hbracket _ => exact ⟨hhash, hbracket⟩
  | quoted q content hq hhash hbracket =>
      have hmem : ∀ c, c ∉ value → c ≠ q → c ∉ q :: (value ++ [q]) := fun c hc hcq =>
        List.not_mem_cons_of_ne_of_not_mem hcq
          (List.not_mem_append hc (List.not_mem_cons_of_ne_of_not_mem hcq List.not_mem_nil))
      rcases hq with rfl | rfl
      · exact ⟨hmem '#' hhash (by decide), hmem '[' hbracket (by decide)⟩
      · exact ⟨hmem '#' hhash (by decide), hmem '[' hbracket (by decide)⟩

/-- **What comes after the equal sign is read as the value**, with a comment or without.
The blanks at the end of the line are gone by then. -/
theorem readValue_eq (hv : Value text value) (hend : LineEnd (· ≠ '[') rest) (hb : Blanks b)
    (hb' : Blanks b') (hn : '\n' ∉ text) :
    readValue (eraseTrailing (b ++ text ++ rest ++ b')) = value := by
  have ht := hv.trimmed hn
  obtain ⟨hhash, _⟩ := hv.not_mem
  unfold readValue
  cases hend with
  | none =>
      have htrim : eraseTrailing (eraseLeading (eraseTrailing (b ++ text ++ [] ++ b'))) = text := by
        rw [eraseTrailing_eq, eraseTrailing_eq, eraseLeading_eq, List.append_nil,
          trim_right_left hb.all ht hb'.all]
        exact ht.right
      simp only [htrim, find_none hhash]
      exact hv.unquote
  | comment b₁ note hb₁ _ =>
      have hmark : isBlank '#' = false := rfl
      -- the number sign stops what is dropped on either side of it
      have htrim :
          eraseTrailing (eraseLeading (eraseTrailing (b ++ text ++ (b₁ ++ '#' :: note) ++ b')))
          = eraseLeading (b ++ text ++ b₁)
            ++ '#' :: eraseTrailing (eraseTrailing (note ++ b')) := by
        rw [← List.append_assoc, List.append_assoc, List.cons_append, eraseTrailing_eq,
          eraseTrailing_eq, eraseTrailing_eq, eraseTrailing_eq, eraseLeading_eq, eraseLeading_eq,
          rdropWhile_mark hmark, dropWhile_mark hmark, rdropWhile_mark hmark]
      have hfirst : '#' ∉ eraseLeading (b ++ text ++ b₁) := by
        rw [eraseLeading_eq]
        intro hmem
        refine List.not_mem_append (List.not_mem_append (hb.not_mem hmark) hhash)
          (hb₁.not_mem hmark) ?_
        exact (List.dropWhile_sublist isBlank).subset hmem
      simp only [htrim, find_mark hfirst, substr_before, erase_around hb ht hb₁]
      rw [eraseLeading_eq, ht.left]
      exact hv.unquote

/-! ## Lines -/

/-- What an entry does to the parser and to the current section. -/
def Parser.take (p : Parser) (cur : Str) : Entry → Parser × Str
  | .nothing => (p, cur)
  | .header name => ({ p with mSections := p.mSections ++ [name] }, name)
  | .pair key value => (p.emplace cur key value, cur)

/-- A line whose first character that counts is `c`. -/
theorem erase_leading_mark (hb : Blanks b) (hc : isBlank c = false) (t b' : Str) :
    eraseLeading (b ++ (c :: t) ++ b') = c :: (t ++ b') := by
  rw [eraseLeading_eq, List.append_assoc, List.dropWhile_append_of_pos hb.all, List.cons_append,
    List.dropWhile_cons, hc]
  rfl

theorem extract_nothing (hb : Blanks b) (hb' : Blanks b') :
    p.extractLine cur (b ++ [] ++ b') = some (p, cur) := by
  have hempty : eraseLeading (b ++ [] ++ b') = [] := by
    rw [eraseLeading_eq, List.append_nil, List.dropWhile_append_of_pos hb.all]
    exact List.dropWhile_eq_nil_iff.mpr hb'.all
  unfold Parser.extractLine
  rw [hempty]
  rfl

theorem extract_comment (hb : Blanks b) (text b' : Str) :
    p.extractLine cur (b ++ ('#' :: text) ++ b') = some (p, cur) := by
  have hmark : isBlank '#' = false := rfl
  have htrim : eraseTrailing ('#' :: (text ++ b')) = '#' :: eraseTrailing (text ++ b') := by
    rw [eraseTrailing_eq, eraseTrailing_eq]
    exact rdropWhile_mark (x := []) hmark
  unfold Parser.extractLine
  rw [erase_leading_mark hb hmark]
  simp only [htrim]
  rfl

/-- **A header is cut at its brackets.** -/
theorem extract_header {b₁ b₂ : Str} (hb : Blanks b) (hb₁ : Blanks b₁) (hb₂ : Blanks b₂)
    (hname : Trimmed isBlank name) (hclose : ']' ∉ name) :
    p.extractLine cur (b ++ ('[' :: (b₁ ++ name ++ b₂ ++ ']' :: rest)) ++ b')
      = some ({ p with mSections := p.mSections ++ [name] }, name) := by
  have htrim : eraseTrailing ('[' :: (b₁ ++ name ++ b₂ ++ ']' :: rest ++ b'))
      = [] ++ '[' :: (b₁ ++ name ++ b₂ ++ ']' :: eraseTrailing (rest ++ b')) := by
    -- the closing bracket stops what is dropped at the end
    have hmark : isBlank ']' = false := rfl
    have hline : '[' :: (b₁ ++ name ++ b₂ ++ ']' :: rest ++ b')
        = '[' :: (b₁ ++ name ++ b₂) ++ ']' :: (rest ++ b') := by
      rw [List.append_assoc (b₁ ++ name ++ b₂)]
      rfl
    rw [hline, eraseTrailing_eq, eraseTrailing_eq, rdropWhile_mark hmark]
    rfl
  have hopen : find ([] ++ '[' :: (b₁ ++ name ++ b₂ ++ ']' :: eraseTrailing (rest ++ b'))) '['
      = some 0 := find_mark List.not_mem_nil
  have hafter : substr ([] ++ '[' :: (b₁ ++ name ++ b₂ ++ ']' :: eraseTrailing (rest ++ b')))
      (0 + 1) none = b₁ ++ name ++ b₂ ++ ']' :: eraseTrailing (rest ++ b') := rfl
  have hfirst : ']' ∉ b₁ ++ name ++ b₂ :=
    List.not_mem_append (List.not_mem_append (hb₁.not_mem rfl) hclose) (hb₂.not_mem rfl)
  have hhash : ([] ++ '[' :: (b₁ ++ name ++ b₂ ++ ']' :: eraseTrailing (rest ++ b'))).head?
      ≠ some '#' := by
    show some '[' ≠ some '#'
    decide
  unfold Parser.extractLine
  rw [erase_leading_mark hb rfl]
  simp only [htrim, if_neg hhash, hopen, hafter, find_mark hfirst, substr_before,
    erase_around hb₁ hname hb₂]
  rfl

theorem LineEnd.not_mem {ok : Char → Prop} (h : LineEnd ok rest) (hc : isBlank c = false)
    (hhash : c ≠ '#') (hok : ¬ok c) : c ∉ rest := by
  cases h with
  | none => exact List.not_mem_nil
  | comment b text hb htext =>
      refine List.not_mem_append (hb.not_mem hc) (List.not_mem_cons_of_ne_of_not_mem hhash ?_)
      exact fun hmem => hok (htext c hmem)

/-- The blanks at the end of the text are dropped with those of the line, or later. -/
theorem readValue_trailing (text : Str) : readValue (eraseTrailing text) = readValue text := by
  have htrim : eraseTrailing (eraseLeading (eraseTrailing text))
      = eraseTrailing (eraseLeading text) := by
    simp only [eraseLeading_eq, eraseTrailing_eq]
    rw [trim_comm, List.rdropWhile_idempotent]
  unfold readValue
  rw [htrim]

/-- What the code makes of a line that begins with a key. The equal sign stops what is dropped
at the end. -/
theorem trim_key_line (hb : Blanks b) (hne : key ≠ []) (hkey : Trimmed isBlank key)
    (b' text : Str) :
    eraseLeading (b ++ key ++ b' ++ '=' :: text) = key ++ b' ++ '=' :: text
      ∧ eraseTrailing (key ++ b' ++ '=' :: text) = key ++ b' ++ '=' :: eraseTrailing text := by
  have hmark : isBlank '=' = false := rfl
  refine ⟨?_, ?_⟩
  · rw [eraseLeading_eq, List.append_assoc (b ++ key), List.append_assoc b,
      List.dropWhile_append_of_pos hb.all, List.dropWhile_append, hkey.left,
      if_neg (by simpa using hne), List.append_assoc key]
  · rw [eraseTrailing_eq, eraseTrailing_eq, rdropWhile_mark hmark]

theorem key_line_starts (hne : key ≠ []) (hhash : key.head? ≠ some '#') (b' text : Str) :
    key ++ b' ++ '=' :: text ≠ [] ∧ (key ++ b' ++ '=' :: text).head? ≠ some '#' := by
  obtain ⟨c, key, rfl⟩ := List.exists_cons_of_ne_nil hne
  exact ⟨List.cons_ne_nil _ _, hhash⟩

/-- **A pair is cut at its equal sign**, when there is no bracket behind it. -/
theorem extract_key_line (hb : Blanks b) (hb' : Blanks b') (hne : key ≠ [])
    (hkey : Trimmed isBlank key) (hhash : key.head? ≠ some '#') (hequal : '=' ∉ key)
    (hopen : '[' ∉ key) (htext : '[' ∉ text) (hcur : cur ≠ []) :
    p.extractLine cur (b ++ key ++ b' ++ '=' :: text)
      = some (p.emplace cur key (readValue text), cur) := by
  obtain ⟨hlead, htrim⟩ := trim_key_line hb hne hkey b' text
  obtain ⟨hline, _⟩ := key_line_starts hne hhash b' text
  obtain ⟨_, hstart⟩ := key_line_starts hne hhash b' (eraseTrailing text)
  have hbefore : ∀ c, isBlank c = false → c ∉ key → c ∉ key ++ b' := fun c hc hck =>
    List.not_mem_append hck (hb'.not_mem hc)
  -- the line is not taken for a header
  have hnone : '[' ∉ key ++ b' ++ '=' :: eraseTrailing text := by
    refine List.not_mem_append (hbefore '[' rfl hopen)
      (List.not_mem_cons_of_ne_of_not_mem (by decide) fun hmem => htext ?_)
    rw [eraseTrailing_eq] at hmem
    exact mem_of_mem_rdropWhile hmem
  have hcut : eraseTrailing (eraseLeading (key ++ b')) = key :=
    erase_around (b := []) (fun _ hc => absurd hc List.not_mem_nil) hkey hb'
  unfold Parser.extractLine
  simp only [hlead, if_neg hline, htrim, if_neg hstart, find_none hnone,
    find_mark (hbefore '=' rfl hequal), if_neg hcur, substr_before, substr_after, hcut,
    readValue_trailing]

theorem extract_pair {b₁ b₂ : Str} (hb : Blanks b) (hb' : Blanks b') (hb₁ : Blanks b₁)
    (hb₂ : Blanks b₂) (hne : key ≠ []) (hkey : Trimmed isBlank key) (hhash : key.head? ≠ some '#')
    (hequal : '=' ∉ key) (hopen : '[' ∉ key) (hv : Value text value) (hn : '\n' ∉ text)
    (hend : LineEnd (· ≠ '[') rest) (hcur : cur ≠ []) :
    p.extractLine cur (b ++ (key ++ b₁ ++ '=' :: (b₂ ++ text ++ rest)) ++ b')
      = some (p.emplace cur key value, cur) := by
  have hline : b ++ (key ++ b₁ ++ '=' :: (b₂ ++ text ++ rest)) ++ b'
      = b ++ key ++ b₁ ++ '=' :: (b₂ ++ text ++ rest ++ b') := by
    simp only [List.append_assoc, List.cons_append]
  -- no field has an opening bracket
  have hnone : '[' ∉ b₂ ++ text ++ rest ++ b' :=
    List.not_mem_append (List.not_mem_append (List.not_mem_append (hb₂.not_mem rfl)
      hv.not_mem.2) (hend.not_mem rfl (by decide) fun hok => hok rfl)) (hb'.not_mem rfl)
  rw [hline, extract_key_line hb hb₁ hne hkey hhash hequal hopen hnone hcur, ← readValue_trailing,
    readValue_eq hv hend hb₂ hb' hn]

/-- **A well-formed line is taken for what it says.** -/
theorem extractLine_reads (h : Line line e) (hn : '\n' ∉ line)
    (hcur : ∀ key value, e = .pair key value → cur ≠ []) :
    p.extractLine cur line = some (p.take cur e) := by
  cases h with
  | mk b t b' _ hb hb' hsays =>
      have hnt : '\n' ∉ t := fun hmem =>
        hn (List.mem_append_left _ (List.mem_append_right _ hmem))
      cases hsays with
      | empty => exact extract_nothing hb hb'
      | comment text => exact extract_comment hb text b'
      | header b₁ name b₂ rest hb₁ hb₂ _ htight hclose _ =>
          refine extract_header hb hb₁ hb₂ (htight.trimmed fun hmem => hnt ?_) hclose
          refine List.mem_cons_of_mem _ (List.mem_append_left _ (List.mem_append_left _ ?_))
          exact List.mem_append_right _ hmem
      | pair key b₁ b₂ text value rest hb₁ hb₂ hne htight hhash hequal hopen hv hend =>
          have hnkey : '\n' ∉ key := fun hmem =>
            hnt (List.mem_append_left _ (List.mem_append_left _ hmem))
          have hntext : '\n' ∉ text := by
            intro hmem
            refine hnt (List.mem_append_right _ (List.mem_cons_of_mem _ ?_))
            exact List.mem_append_left _ (List.mem_append_right _ hmem)
          exact extract_pair hb hb' hb₁ hb₂ hne (htight.trimmed hnkey) hhash hequal hopen hv hntext
            hend (hcur key value rfl)

/-! ## Files -/

theorem mem_getlines (h : line ∈ getlines file) : '\n' ∉ line := by
  induction file generalizing line with
  | nil => exact absurd h List.not_mem_nil
  | cons c file ih =>
      rw [getlines] at h
      split at h
      · rcases List.mem_cons.mp h with rfl | h
        · exact List.not_mem_nil
        · exact ih h
      · rename_i hc
        split at h
        · rename_i first rest heq
          rcases List.mem_cons.mp h with rfl | h
          · intro hmem
            rcases List.mem_cons.mp hmem with hmem | hmem
            · exact hc hmem.symm
            · exact ih (heq ▸ List.mem_cons_self) hmem
          · exact ih (heq ▸ List.mem_cons_of_mem _ h)
        · rw [List.mem_singleton.mp h]
          exact fun hmem => hc (List.mem_singleton.mp hmem).symm

/-- A file that is written line by line is read line by line. -/
theorem getlines_lines (h : ∀ line ∈ lines, '\n' ∉ line) :
    getlines (lines.flatMap fun line => line ++ ['\n']) = lines := by
  induction lines with
  | nil => rfl
  | cons line lines ih =>
      have hrest := ih fun l hl => h l (List.mem_cons_of_mem _ hl)
      have hline : '\n' ∉ line := h line List.mem_cons_self
      show getlines (line ++ ['\n'] ++ lines.flatMap fun line => line ++ ['\n']) = line :: lines
      clear ih h
      induction line with
      | nil =>
          show getlines ('\n' :: lines.flatMap fun line => line ++ ['\n']) = _
          rw [getlines, if_pos rfl, hrest]
      | cons c line ih =>
          have hc : c ≠ '\n' := fun hc => hline (hc ▸ List.mem_cons_self)
          have htail := ih fun hmem => hline (List.mem_cons_of_mem c hmem)
          show getlines (c :: (line ++ ['\n'] ++ _)) = _
          rw [getlines, if_neg hc, htail]

/-- The keys of a section, none where there is no section. -/
theorem getValue_eq (p : Parser) (sec k : Str) :
    p.getValue sec k = (p.mKeys sec).getD (fun _ => none) k := by
  unfold Parser.getValue
  cases p.mKeys sec <;> rfl

/-- A value is stored where there is none yet. -/
theorem getValue_emplace (p : Parser) (cur key value sec k : Str) :
    (p.emplace cur key value).getValue sec k
      = (p.getValue sec k).or (if cur = sec ∧ key = k then some value else none) := by
  rw [getValue_eq, getValue_eq]
  unfold Parser.emplace
  by_cases hsec : sec = cur
  · subst hsec
    show (Function.update p.mKeys sec _ sec).getD _ k = _
    rw [Function.update_self, Option.getD_some]
    generalize (p.mKeys sec).getD (fun _ => none) = keys
    by_cases hk : k = key
    · subst hk
      rw [if_pos (⟨rfl, rfl⟩ : sec = sec ∧ k = k)]
      cases hval : keys k with
      | none =>
          rw [if_pos rfl, Function.update_self]
          rfl
      | some v =>
          rw [if_neg (by simp), hval]
          rfl
    · rw [if_neg (fun h => hk h.2.symm : ¬(sec = sec ∧ key = k)), Option.or_none]
      split
      · rw [Function.update_of_ne hk]
      · rfl
  · show (Function.update p.mKeys cur _ sec).getD _ k = _
    rw [Function.update_of_ne hsec, if_neg fun h => hsec h.1.symm, Option.or_none]

/-- The current section, as the code has it. -/
def Current (current : Option Str) (cur : Str) : Prop :=
  match current with
  | some name => cur = name ∧ name ≠ []
  | none => cur = []

/-- The header of a well-formed line has a name. -/
theorem Line.name_ne_nil (h : Line line (.header name)) : name ≠ [] := by
  cases h with
  | mk b t b' _ _ _ hsays =>
      cases hsays with
      | header _ _ _ _ _ _ hne _ _ _ => exact hne

theorem Headed.tail (h : Headed (e :: entries)) (he : ∀ name, e ≠ .header name) :
    Headed entries := by
  intro before key value rest heq
  obtain ⟨name, hname⟩ := h (e :: before) key value rest (by rw [heq]; rfl)
  rcases List.mem_cons.mp hname with hname | hname
  · exact absurd hname.symm (he name)
  · exact ⟨name, hname⟩

/-- The first entry is not a pair. -/
theorem Headed.ne_pair (h : Headed (.pair key value :: entries)) : False := by
  obtain ⟨name, hname⟩ := h [] key value entries rfl
  exact absurd hname List.not_mem_nil

/-- **What the loop stores.** What was there is kept, and the first value of a key is new. -/
theorem extractLines_reads (hlines : List.Forall₂ Line lines entries)
    (hn : ∀ line ∈ lines, '\n' ∉ line) :
    ∀ (p : Parser) (cur : Str) (current : Option Str), Current current cur →
      (current = none → Headed entries) →
      (p.extractLines cur lines).1 = .ok true
      ∧ ∀ sec k, (p.extractLines cur lines).2.getValue sec k
        = (p.getValue sec k).or (firstValue sec k current entries) := by
  induction hlines with
  | nil =>
      intro p cur current _ _
      refine ⟨rfl, fun sec k => ?_⟩
      rw [firstValue, Option.or_none]
      rfl
  | @cons line e lines entries hline _ ih =>
      intro p cur current hcur hheaded
      -- a pair comes under a section by now, and the section has a name
      have hreads : p.extractLine cur line = some (p.take cur e) := by
        refine extractLine_reads hline (hn line List.mem_cons_self) fun key value he hnil => ?_
        rw [he] at hheaded
        cases current with
        | none => exact (hheaded rfl).ne_pair
        | some name => exact hcur.2 (hcur.1.symm.trans hnil)
      have ih := ih fun l hl => hn l (List.mem_cons_of_mem _ hl)
      rw [Parser.extractLines, hreads]
      cases e with
      | nothing =>
          exact ih p cur current hcur fun hnone => (hheaded hnone).tail (by simp)
      | header name =>
          exact ih _ name (some name) ⟨rfl, hline.name_ne_nil⟩ (by simp)
      | pair key value =>
          obtain ⟨hok, hvalues⟩ := ih (p.emplace cur key value) cur current hcur
            fun hnone => (hheaded hnone).tail (by simp)
          refine ⟨hok, fun sec k => (hvalues sec k).trans ?_⟩
          rw [getValue_emplace, Option.or_assoc, firstValue]
          -- the first value counts: what was there before, then this line, then the rest
          have hsec : (cur = sec ∧ key = k) ↔ (current = some sec ∧ key = k) := by
            cases current with
            | none => exact absurd rfl fun hnone => ((hheaded hnone).ne_pair)
            | some name =>
                rw [hcur.1, Option.some.injEq]
          by_cases hhere : current = some sec ∧ key = k
          · rw [if_pos hhere, if_pos (hsec.mpr hhere)]
            rfl
          · rw [if_neg hhere, if_neg fun h => hhere (hsec.mp h)]
            rfl

theorem load_eq {files : String → Option Str} (hfile : files p.mFilepath = some file) :
    p.load files = match p.extractLines [] (getlines file) with
      | (.ok _, p) => (.ok true, p)
      | (.error _, p) => (.error .PARSE_ERROR, p) := by
  unfold Parser.load Parser.extractKeys
  rw [hfile]
  rfl

/--
**Well-formed files are read as they are meant.**

The parser is fresh, and the file at its path is well-formed: the reading succeeds, and a
lookup gives what the file says first.
-/
theorem load_reads (path : String) (files : String → Option Str) (file : Str)
    (entries : List Entry) (hfile : files path = some file)
    (hlines : List.Forall₂ Line (getlines file) entries) (hheaded : Headed entries) :
    (Parser.load { mFilepath := path } files).1 = .ok true
      ∧ ∀ sec key, (Parser.load { mFilepath := path } files).2.getValue sec key
        = firstValue sec key none entries := by
  obtain ⟨hok, hvalues⟩ := extractLines_reads hlines (fun _ hl => mem_getlines hl)
    { mFilepath := path } [] none rfl fun _ => hheaded
  have hload : Parser.load { mFilepath := path } files
      = (.ok true, (Parser.extractLines { mFilepath := path } [] (getlines file)).2) := by
    rw [load_eq hfile]
    generalize Parser.extractLines { mFilepath := path } [] (getlines file) = r at hok ⊢
    obtain ⟨answer, p⟩ := r
    cases hok
    rfl
  rw [hload]
  exact ⟨rfl, hvalues⟩

/-- A section with a quoted value, read from the default path. -/
theorem load_reads_quoted :
    let files : String → Option Str := fun _ =>
      some ['[', 'a', ']', '\n', ' ', 'k', '=', '\'', ' ', '\'', ' ', '#', '\r']
    (Parser.load {} files).1 = .ok true
      ∧ ∀ sec key, (Parser.load {} files).2.getValue sec key
        = firstValue sec key none [.header ['a'], .pair ['k'] [' ']] := by
  have hnone : Blanks [] := fun _ hc => absurd hc List.not_mem_nil
  have hspace : Blanks [' '] := fun c hc => Or.inl (List.mem_singleton.mp hc)
  have hcr : Blanks ['\r'] := fun c hc => Or.inr (Or.inr (List.mem_singleton.mp hc))
  have htight : ∀ c, ¬Blank c → Tight [c] := fun c hc => by
    refine ⟨?_, ?_⟩ <;>
    · rintro d ⟨⟩
      exact hc
  have hheader : Line ['[', 'a', ']'] (.header ['a']) :=
    Line.mk [] ['[', 'a', ']'] [] _ hnone hnone
      (Says.header [] ['a'] [] [] hnone hnone (by simp) (htight 'a' (by decide)) (by decide) .none)
  have hpair : Line [' ', 'k', '=', '\'', ' ', '\'', ' ', '#', '\r'] (.pair ['k'] [' ']) :=
    Line.mk [' '] ['k', '=', '\'', ' ', '\'', ' ', '#'] ['\r'] _ hspace hcr
      (Says.pair ['k'] [] [] ['\'', ' ', '\''] [' '] [' ', '#'] hnone hnone (by simp)
        (htight 'k' (by decide)) (by simp) (by decide) (by decide)
        (Value.quoted '\'' [' '] (Or.inr rfl) (by decide) (by decide))
        (LineEnd.comment [' '] [] hspace fun _ hc => absurd hc List.not_mem_nil))
  refine load_reads "etc/config.toml" _ _ _ rfl (.cons hheader (.cons hpair .nil)) ?_
  intro before key value rest heq
  cases before with
  | nil => exact absurd heq (by simp)
  | cons e before =>
      rw [List.cons_append] at heq
      exact ⟨['a'], (List.cons.inj heq).1 ▸ List.mem_cons_self⟩

end QuickStructs.TomlParser
