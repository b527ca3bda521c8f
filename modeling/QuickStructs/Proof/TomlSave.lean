import QuickStructs.Spec.TomlSave
import QuickStructs.Proof.TomlLookup
import QuickStructs.Proof.TomlReload

/-!
# Reading what was written

Whatever a file gives can be written, because each field is what was cut between two marks. And
what can be written is read again as it is: the marks that are found are those that were written.

So the tables that lookups find after any loads, failed or not, are the tables that one file can
hold, and each of them is what one load finds in the file written for it.
-/

namespace QuickStructs.TomlParser

open Lib.Text

variable {s line sec key value cur text : Str} {c : Char} {g : Given} {lines : List Str}
variable {pairs : List Given} {settings : List Setting} {n : Int}
variable {table : Str → Str → Option Str}

/-! ## The fields of a line -/

theorem mem_of_mem_unquote (h : c ∈ unquote s) : c ∈ s := by
  unfold unquote at h
  split at h
  · exact List.mem_of_mem_drop (List.mem_of_mem_take h)
  · exact h

/-- The value is a part of what is behind the equal sign, and it ends before a number sign. -/
theorem mem_readValue (h : c ∈ readValue text) : c ∈ text ∧ c ≠ '#' := by
  have htrim : ∀ {d}, d ∈ eraseTrailing (eraseLeading text) → d ∈ text := fun hd =>
    mem_of_mem_trim hd
  unfold readValue at h
  cases hfind : find (eraseTrailing (eraseLeading text)) '#' with
  | none =>
      simp only [hfind] at h
      have hmem := mem_of_mem_unquote h
      refine ⟨htrim hmem, ?_⟩
      rintro rfl
      obtain ⟨i, hi⟩ := find_some hmem
      rw [hfind] at hi
      exact absurd hi (by simp)
  | some i =>
      simp only [hfind] at h
      have hcut : substr (eraseTrailing (eraseLeading text)) 0 (some i)
          = before (eraseTrailing (eraseLeading text)) '#' := by
        rw [← hfind, substr_find]
      rw [hcut] at h
      have hmem : c ∈ before (eraseTrailing (eraseLeading text)) '#' := by
        have hmem := mem_of_mem_unquote h
        rw [eraseLeading_eq, eraseTrailing_eq] at hmem
        exact mem_of_mem_rdropWhile ((List.dropWhile_suffix isBlank).subset hmem)
      refine ⟨htrim (mem_of_mem_before hmem), ?_⟩
      rintro rfl
      exact not_mem_before _ _ hmem

/-! ## What is given can be written -/

/-- A section as it is cut from a header, or none yet. -/
structure SectionCut (sec : Str) : Prop where
  trimmed : trim sec = sec
  marks : ']' ∉ sec ∧ '\n' ∉ sec

theorem sectionCut_after (hcur : SectionCut cur) (hn : '\n' ∉ line) :
    SectionCut (sectionAfter cur line) := by
  unfold sectionAfter lineEntry
  split
  · rename_i name heq
    split at heq
    · exact absurd heq (by simp)
    · split at heq
      · cases heq
        refine ⟨trim_trim _, fun hmem => not_mem_before _ _ (mem_of_mem_trim hmem), fun hmem => ?_⟩
        exact hn (mem_of_mem_behind (mem_of_mem_before (mem_of_mem_trim hmem)))
      · split at heq
        · exact absurd heq (by simp)
        · exact absurd heq (by simp)
  · exact hcur

/-- **A pair that a line gives can be written.** -/
theorem writable_pair (hcur : SectionCut cur) (hn : '\n' ∉ line) (href : ¬Refused cur line)
    (hentry : lineEntry line = some (.pair key value)) : Writable ⟨cur, key, value⟩ := by
  unfold lineEntry at hentry
  split at hentry
  · exact absurd hentry (by simp)
  rename_i hsilent
  split at hentry
  · exact absurd hentry (by simp)
  rename_i hopen
  split at hentry
  · rename_i hequal
    cases hentry
    have hbefore : ∀ c, c ∉ line → c ∉ trim (before line '=') := fun c hc hmem =>
      hc (mem_of_mem_before (mem_of_mem_trim hmem))
    have hbehind : ∀ c, c ∉ line → c ∉ readValue (behind line '=') := fun c hc hmem =>
      hc (mem_of_mem_behind (mem_readValue hmem).1)
    exact {
      named := fun hnil => href ⟨⟨hsilent, hopen⟩, Or.inr hnil⟩
      secTrim := hcur.trimmed
      secMarks := hcur.marks
      keyTrim := trim_trim _
      keyHead := key_head hsilent hequal
      keyMarks := ⟨fun hmem => not_mem_before _ _ (mem_of_mem_trim hmem), hbefore '[' hopen,
        hbefore '\n' hn⟩
      valueMarks := ⟨fun hmem => (mem_readValue hmem).2 rfl, hbehind '[' hopen, hbehind '\n' hn⟩ }
  · exact absurd hentry (by simp)

theorem given_writable (hcur : SectionCut cur) (hn : ∀ line ∈ lines, '\n' ∉ line)
    (hg : g ∈ given cur lines) : Writable g := by
  induction lines generalizing cur with
  | nil => exact absurd hg List.not_mem_nil
  | cons line lines ih =>
      have hline := hn line List.mem_cons_self
      have ih := ih (sectionCut_after hcur hline) fun l hl => hn l (List.mem_cons_of_mem _ hl)
      rw [given] at hg
      split at hg
      · exact absurd hg List.not_mem_nil
      rename_i href
      split at hg
      · rename_i key value hentry
        rcases List.mem_cons.mp hg with rfl | hg
        · exact writable_pair hcur hline href hentry
        · -- the section does not change at a pair
          have hsame : sectionAfter cur line = cur := by
            unfold sectionAfter
            rw [hentry]
          rw [hsame] at ih
          exact ih hg
      · exact ih hg

/-- **What a file gives can be written.** -/
theorem file_writable {file : Str} (hg : g ∈ given [] (getlines file)) : Writable g :=
  given_writable ⟨rfl, by simp⟩ (fun _ hl => mem_getlines hl) hg

/-! ## What can be written is read -/

theorem header_entry (hg : Writable g) :
    lineEntry ('[' :: (g.sec ++ [']'])) = some (.header g.sec) := by
  have hlead : eraseLeading ('[' :: (g.sec ++ [']'])) = '[' :: (g.sec ++ [']']) := by
    rw [eraseLeading_eq]
    exact dropWhile_mark (x := []) rfl
  have hsilent : ¬Silent ('[' :: (g.sec ++ [']'])) := by
    unfold Silent
    rw [hlead]
    simp
  have hbehind : behind ('[' :: (g.sec ++ [']'])) '[' = g.sec ++ [']'] :=
    behind_mark (x := []) List.not_mem_nil
  unfold lineEntry
  rw [if_neg hsilent, if_pos List.mem_cons_self, hbehind, before_mark hg.secMarks.1, hg.secTrim]

/-- A value in quotes is read without them. -/
theorem readValue_quoted (h : '#' ∉ value ∧ '[' ∉ value ∧ '\n' ∉ value) :
    readValue ('"' :: (value ++ ['"'])) = value := by
  have hquoted : Value ('"' :: (value ++ ['"'])) value :=
    Value.quoted '"' value (Or.inl rfl) h.1 h.2.1
  have hnone : Blanks [] := fun _ hc => absurd hc List.not_mem_nil
  have hline : '\n' ∉ '"' :: (value ++ ['"']) := by
    simp [h.2.2]
  have hread := readValue_eq hquoted .none hnone hnone hline
  rw [readValue_trailing, List.append_nil, List.append_nil, List.nil_append] at hread
  exact hread

theorem pair_entry (hg : Writable g) :
    lineEntry (g.key ++ '=' :: '"' :: (g.value ++ ['"'])) = some (.pair g.key g.value)
      ∧ ∀ cur, cur ≠ [] → ¬Refused cur (g.key ++ '=' :: '"' :: (g.value ++ ['"'])) := by
  obtain ⟨hequal, hopen, _⟩ := hg.keyMarks
  have hlead : eraseLeading (g.key ++ '=' :: '"' :: (g.value ++ ['"']))
      = g.key ++ '=' :: '"' :: (g.value ++ ['"']) := by
    have hkey : eraseLeading g.key = g.key := by
      rw [← hg.keyTrim]
      exact eraseLeading_trim _
    rw [eraseLeading_eq] at hkey ⊢
    rw [dropWhile_mark (c := '=') rfl, hkey]
  have hsilent : ¬Silent (g.key ++ '=' :: '"' :: (g.value ++ ['"'])) := by
    unfold Silent
    rw [hlead]
    cases hkey : g.key with
    | nil => simp
    | cons c key =>
        have hhead := hg.keyHead
        rw [hkey] at hhead
        simpa using hhead
  have hmem : '=' ∈ g.key ++ '=' :: '"' :: (g.value ++ ['"']) :=
    List.mem_append_right _ List.mem_cons_self
  have hheader : '[' ∉ g.key ++ '=' :: '"' :: (g.value ++ ['"']) := by
    simp [hopen, hg.valueMarks.2.1]
  refine ⟨?_, ?_⟩
  · unfold lineEntry
    rw [if_neg hsilent, if_neg hheader, if_pos hmem, before_mark hequal, behind_mark hequal,
      hg.keyTrim, readValue_quoted hg.valueMarks]
  · intro cur hcur href
    exact href.2.elim (fun hno => hno hmem) hcur

/-- The header of a pair, and the section that it begins. -/
theorem header_read (hg : Writable g) (cur : Str) :
    ¬Refused cur ('[' :: (g.sec ++ [']']))
      ∧ sectionAfter cur ('[' :: (g.sec ++ [']'])) = g.sec := by
  refine ⟨fun href => href.1.2 List.mem_cons_self, ?_⟩
  unfold sectionAfter
  rw [header_entry hg]

theorem given_header (hg : Writable g) (cur : Str) (rest : List Str) :
    given cur (('[' :: (g.sec ++ [']'])) :: rest) = given g.sec rest := by
  obtain ⟨hheader, hsec⟩ := header_read hg cur
  rw [given, if_neg hheader, header_entry hg, hsec]

theorem given_pair (hg : Writable g) (rest : List Str) :
    given g.sec ((g.key ++ '=' :: '"' :: (g.value ++ ['"'])) :: rest) = g :: given g.sec rest := by
  obtain ⟨hpair, hread⟩ := pair_entry hg
  rw [given, if_neg (hread g.sec hg.named), hpair]

theorem written_cons (g : Given) (pairs : List Given) :
    (g :: pairs).flatMap Given.write = ('[' :: (g.sec ++ [']']))
      :: (g.key ++ '=' :: '"' :: (g.value ++ ['"'])) :: pairs.flatMap Given.write := rfl

/-- **The pairs that were written are given, in their order.** -/
theorem given_written (h : ∀ g ∈ pairs, Writable g) (cur : Str) :
    given cur (pairs.flatMap Given.write) = pairs := by
  induction pairs generalizing cur with
  | nil => rfl
  | cons g pairs ih =>
      have hg := h g List.mem_cons_self
      rw [written_cons, given_header hg, given_pair hg,
        ih fun g hg => h g (List.mem_cons_of_mem _ hg)]

/-- No line of them is refused. -/
theorem extractLines_written (h : ∀ g ∈ pairs, Writable g) (p : Parser) (cur : Str) :
    (p.extractLines cur (pairs.flatMap Given.write)).1 = .ok true := by
  induction pairs generalizing p cur with
  | nil => rfl
  | cons g pairs ih =>
      have hg := h g List.mem_cons_self
      have ih := ih fun g hg => h g (List.mem_cons_of_mem _ hg)
      obtain ⟨hheader, hsec⟩ := header_read hg cur
      obtain ⟨_, hread⟩ := pair_entry hg
      obtain ⟨_, _, hfirst⟩ := extractLines_read hheader
      obtain ⟨_, _, hsecond⟩ := extractLines_read (hread g.sec hg.named)
      rw [written_cons, hfirst, hsec, hsecond]
      exact ih _ _

theorem getlines_save (h : ∀ g ∈ pairs, Writable g) :
    getlines (save pairs) = pairs.flatMap Given.write := by
  refine getlines_lines fun line hline => ?_
  obtain ⟨g, hg, hmem⟩ := List.mem_flatMap.mp hline
  have hw := h g hg
  rcases List.mem_cons.mp hmem with rfl | hmem
  · simp [hw.secMarks.2]
  · rw [List.mem_singleton.mp hmem]
    simp [hw.keyMarks.2.2, hw.valueMarks.2.2]

/-- A load of a file that was written. -/
theorem load_save (path : String) (h : ∀ g ∈ pairs, Writable g) :
    (Parser.load { mFilepath := path } fun _ => some (save pairs)).1 = .ok true
      ∧ ∀ sec key, (Parser.load { mFilepath := path } fun _ => some (save pairs)).2.getValue sec key
        = firstGiven sec key pairs := by
  constructor
  · have hok := extractLines_written h { mFilepath := path } []
    rw [load_eq rfl, getlines_save h]
    generalize Parser.extractLines { mFilepath := path } [] _ = r at hok ⊢
    obtain ⟨answer, p⟩ := r
    cases hok
    rfl
  · intro sec key
    rw [load_getValue, gives, Option.bind_some, getlines_save h, given_written h]
    exact Option.none_or

/--
**Any file has the same lookups as the file written from what it gives.**

The file may be anything, and a load of it may fail. What it gives down to the line that is not
read, written as headers and quoted values, is loaded without an error and gives the same again, in
the same order.
-/
theorem save_loads (path : String) (file : Str) :
    let written := save (given [] (getlines file))
    (Parser.load { mFilepath := path } fun _ => some written).1 = .ok true
      ∧ given [] (getlines written) = given [] (getlines file)
      ∧ ∀ sec key,
        (Parser.load { mFilepath := path } fun _ => some written).2.getValue sec key
          = (Parser.load { mFilepath := path } fun _ => some file).2.getValue sec key := by
  intro written
  have hpairs : ∀ g ∈ given [] (getlines file), Writable g := fun _ hg => file_writable hg
  obtain ⟨hok, hvalues⟩ := load_save path hpairs
  refine ⟨hok, ?_, fun sec key => ?_⟩
  · rw [getlines_save hpairs, given_written hpairs]
  · rw [hvalues, load_getValue]
    exact Option.none_or.symm

/-! ## What lookups can find -/

theorem firstGiven_mem (h : firstGiven sec key pairs = some value) :
    (⟨sec, key, value⟩ : Given) ∈ pairs := by
  obtain ⟨g, hfind, rfl⟩ := Option.map_eq_some_iff.mp h
  have hg := List.find?_some hfind
  obtain ⟨rfl, rfl⟩ : g.sec = sec ∧ g.key = key := by simpa using hg
  exact List.mem_of_find?_eq_some hfind

/-- The lookups of pairs that can be written can be held. -/
theorem holdable_firstGiven (h : ∀ g ∈ pairs, Writable g) :
    Holdable fun sec key => firstGiven sec key pairs where
  finite := by
    refine ((pairs.map fun g => (g.sec, g.key)).finite_toSet).subset fun x hx => ?_
    obtain ⟨value, hvalue⟩ := Option.ne_none_iff_exists'.mp hx
    exact List.mem_map.mpr ⟨_, firstGiven_mem hvalue, rfl⟩
  writable := fun sec key value hvalue => h _ (firstGiven_mem hvalue)

/-- What can be held can be listed. -/
theorem Holdable.listed (h : Holdable table) : ∃ pairs : List Given, (∀ g ∈ pairs, Writable g)
    ∧ ∀ sec key, firstGiven sec key pairs = table sec key := by
  let entry (x : Str × Str) : Option Given := (table x.1 x.2).map fun value => ⟨x.1, x.2, value⟩
  have hentry : ∀ g ∈ h.finite.toFinset.toList.filterMap entry,
      table g.sec g.key = some g.value := by
    intro g hg
    obtain ⟨x, _, hx⟩ := List.mem_filterMap.mp hg
    obtain ⟨value, hvalue, rfl⟩ := Option.map_eq_some_iff.mp hx
    exact hvalue
  refine ⟨h.finite.toFinset.toList.filterMap entry, ?_, fun sec key => ?_⟩
  · intro g hg
    exact h.writable _ _ _ (hentry g hg)
  · cases hfirst : firstGiven sec key (h.finite.toFinset.toList.filterMap entry) with
    | some value => exact (hentry _ (firstGiven_mem hfirst)).symm
    | none =>
        cases hvalue : table sec key with
        | none => rfl
        | some value =>
            -- a value would have been listed
            refine absurd ⟨rfl, rfl⟩ (firstGiven_none (g := ⟨sec, key, value⟩) hfirst ?_)
            refine List.mem_filterMap.mpr ⟨(sec, key), ?_, ?_⟩
            · simp [hvalue]
            · simp only [entry, hvalue, Option.map_some]

/-- What files give, one after another, is what pairs give that can be written. -/
theorem calls_listed (path : String) (calls : List (String → Option Str)) :
    ∃ pairs : List Given, (∀ g ∈ pairs, Writable g)
      ∧ ∀ sec key, (calls.findSome? fun files => gives path files sec key)
        = firstGiven sec key pairs := by
  induction calls with
  | nil => exact ⟨[], by simp, fun _ _ => rfl⟩
  | cons files calls ih =>
      obtain ⟨pairs, hpairs, hfirst⟩ := ih
      cases hfile : files path with
      | none =>
          have hgives : ∀ sec key, gives path files sec key = none := by
            intro sec key
            rw [gives, hfile, Option.bind_none]
          refine ⟨pairs, hpairs, fun sec key => ?_⟩
          rw [List.findSome?_cons, hgives]
          exact hfirst sec key
      | some file =>
          refine ⟨given [] (getlines file) ++ pairs, ?_, fun sec key => ?_⟩
          · intro g hg
            rcases List.mem_append.mp hg with hg | hg
            · exact file_writable hg
            · exact hpairs g hg
          · rw [List.findSome?_cons, firstGiven_append, ← hfirst, gives, hfile, Option.bind_some]
            cases firstGiven sec key (given [] (getlines file)) <;> rfl

/-- The lookups after any loads can be held. -/
theorem loads_holdable (path : String) (calls : List (String → Option Str)) :
    Holdable (Parser.loads { mFilepath := path } calls).getValue := by
  obtain ⟨pairs, hpairs, hfirst⟩ := calls_listed path calls
  have hvalues : (Parser.loads { mFilepath := path } calls).getValue
      = fun sec key => firstGiven sec key pairs := by
    funext sec key
    rw [loads_getValue, ← hfirst]
    exact Option.none_or
  rw [hvalues]
  exact holdable_firstGiven hpairs

/--
**What lookups can find.**

From a fresh parser, any loads of any files, failed or not, lead to a table that can be held, and
each table that can be held is what one load finds that succeeds: the sections and keys without the
marks that would end them and without blanks around them, the values with neither a number sign nor
an opening bracket, and finitely many of them.
-/
theorem tables_iff (path : String) (table : Str → Str → Option Str) :
    ((∃ calls : List (String → Option Str), ∀ sec key,
        (Parser.loads { mFilepath := path } calls).getValue sec key = table sec key)
      ↔ Holdable table)
    ∧ ((∃ files : String → Option Str, (Parser.load { mFilepath := path } files).1 = .ok true
        ∧ ∀ sec key, (Parser.load { mFilepath := path } files).2.getValue sec key = table sec key)
      ↔ Holdable table) := by
  have hloads : ∀ calls : List (String → Option Str),
      (∀ sec key, (Parser.loads { mFilepath := path } calls).getValue sec key = table sec key) →
      Holdable table := by
    intro calls hcalls
    have heq : (Parser.loads { mFilepath := path } calls).getValue = table :=
      funext fun sec => funext fun key => hcalls sec key
    exact heq ▸ loads_holdable path calls
  have hfile : Holdable table → ∃ files : String → Option Str,
      (Parser.load { mFilepath := path } files).1 = .ok true ∧ ∀ sec key,
        (Parser.load { mFilepath := path } files).2.getValue sec key = table sec key := by
    intro h
    obtain ⟨pairs, hpairs, hfirst⟩ := h.listed
    obtain ⟨hok, hvalues⟩ := load_save path hpairs
    exact ⟨_, hok, fun sec key => (hvalues sec key).trans (hfirst sec key)⟩
  refine ⟨⟨fun ⟨calls, hcalls⟩ => hloads calls hcalls, fun h => ?_⟩, ⟨?_, hfile⟩⟩
  · obtain ⟨files, _, hvalues⟩ := hfile h
    exact ⟨[files], hvalues⟩
  · rintro ⟨files, _, hvalues⟩
    exact hloads [files] hvalues

/-! ## Numbers -/

/-- A number has none of the marks. -/
theorem not_mem_integer (hc : c ≠ '-') (hdigit : c.isDigit = false) (n : Int) :
    c ∉ Lib.Decimal.integer n := by
  intro hmem
  rcases Lib.Decimal.mem_integer hmem with h | h
  · exact hc h
  · rw [hdigit] at h
    exact absurd h (by decide)

theorem writable_setting {s : Setting} (h : s.Fits) : Writable s.given where
  named := h.writable.named
  secTrim := h.writable.secTrim
  secMarks := h.writable.secMarks
  keyTrim := h.writable.keyTrim
  keyHead := h.writable.keyHead
  keyMarks := h.writable.keyMarks
  valueMarks := ⟨not_mem_integer (by decide) rfl _, not_mem_integer (by decide) rfl _,
    not_mem_integer (by decide) rfl _⟩

/-- A number is not in quotes, so there is nothing to take off. -/
theorem unquote_integer (n : Int) : unquote (Lib.Decimal.integer n) = Lib.Decimal.integer n := by
  refine unquote_bare fun _ q hq hends => ?_
  have hmem : q ∈ Lib.Decimal.integer n := List.mem_of_mem_head? hends.1
  rcases hq with rfl | rfl
  · exact not_mem_integer (by decide) rfl n hmem
  · exact not_mem_integer (by decide) rfl n hmem

theorem firstGiven_settings (sec key : Str) (settings : List Setting) :
    firstGiven sec key (settings.map Setting.given)
      = (firstSet sec key settings).map Lib.Decimal.integer := by
  unfold firstGiven firstSet
  rw [List.find?_map, Option.map_map, Option.map_map]
  rfl

/-- A number that is looked up by one string. -/
theorem getInt_integer {p : Parser} (hdot : '.' ∉ sec) (hint : -2147483648 ≤ n ∧ n ≤ 2147483647)
    (hval : p.getValue sec key = some (Lib.Decimal.integer n)) :
    p.getInt (sec ++ '.' :: key) = n := by
  have hstring : p.getString (sec ++ '.' :: key) = Lib.Decimal.integer n := by
    rw [getString_eq p hdot, hval]
    exact unquote_integer n
  unfold Parser.getInt
  simp only [hstring, if_neg (Lib.Decimal.integer_ne_nil n), Lib.Decimal.stoi_written hint]

theorem getInt_none {p : Parser} (hdot : '.' ∉ sec) (hval : p.getValue sec key = none) :
    p.getInt (sec ++ '.' :: key) = 0 := by
  have hstring : p.getString (sec ++ '.' :: key) = [] := by
    rw [getString_eq p hdot, hval]
    rfl
  unfold Parser.getInt
  simp only [hstring, if_true]

/--
**Numbers come back as they were set.**

A file is written from settings, each as a header with its section and a key with a decimal number
in quotes. It is loaded without an error, and `get_int` finds for each section and key the number
that was set first, and 0 where none was.
-/
theorem settings_reload (path : String) (settings : List Setting)
    (hfits : ∀ s ∈ settings, s.Fits) :
    let r := Parser.load { mFilepath := path } fun _ => some (save (settings.map Setting.given))
    r.1 = .ok true
      ∧ ∀ sec key, '.' ∉ sec →
        r.2.getInt (sec ++ '.' :: key) = (firstSet sec key settings).getD 0 := by
  intro r
  have hpairs : ∀ g ∈ settings.map Setting.given, Writable g := by
    intro g hg
    obtain ⟨s, hs, rfl⟩ := List.mem_map.mp hg
    exact writable_setting (hfits s hs)
  obtain ⟨hok, hvalues⟩ := load_save path hpairs
  refine ⟨hok, fun sec key hdot => ?_⟩
  have hval : r.2.getValue sec key = (firstSet sec key settings).map Lib.Decimal.integer := by
    rw [← firstGiven_settings]
    exact hvalues sec key
  cases hfirst : firstSet sec key settings with
  | none =>
      rw [hfirst] at hval
      exact getInt_none hdot hval
  | some n =>
      rw [hfirst] at hval
      -- the number is that of one of the settings
      obtain ⟨s, hfind, rfl⟩ := Option.map_eq_some_iff.mp hfirst
      exact getInt_integer hdot (hfits s (List.mem_of_find?_eq_some hfind)).int hval

/-- The largest port and the least `int`, in two sections. -/
theorem settings_reload_two :
    let settings : List Setting := [⟨['n'], ['p'], 65535⟩, ⟨['a', ' ', 'b'], ['k'], -2147483648⟩]
    let r := Parser.load {} fun _ => some (save (settings.map Setting.given))
    r.1 = .ok true ∧ r.2.getInt (['n'] ++ '.' :: ['p']) = 65535
      ∧ r.2.getInt (['a', ' ', 'b'] ++ '.' :: ['k']) = -2147483648 := by
  intro settings r
  have hfits : ∀ s ∈ settings, s.Fits := by
    intro s hs
    have hname : ∀ sec key, sec ≠ [] → trim sec = sec → ']' ∉ sec ∧ '\n' ∉ sec → trim key = key →
        key.head? ≠ some '#' → '=' ∉ key ∧ '[' ∉ key ∧ '\n' ∉ key → Writable ⟨sec, key, []⟩ :=
      fun sec key hn hs hm ht hh hk => ⟨hn, hs, hm, ht, hh, hk, by simp⟩
    rcases List.mem_cons.mp hs with rfl | hs
    · exact ⟨hname _ _ (by decide) (by decide) (by decide) (by decide) (by decide) (by decide),
        by decide, by decide⟩
    · rw [List.mem_singleton.mp hs]
      exact ⟨hname _ _ (by decide) (by decide) (by decide) (by decide) (by decide) (by decide),
        by decide, by decide⟩
  obtain ⟨hok, hints⟩ := settings_reload "etc/config.toml" settings hfits
  exact ⟨hok, hints ['n'] ['p'] (by decide), hints ['a', ' ', 'b'] ['k'] (by decide)⟩

end QuickStructs.TomlParser
