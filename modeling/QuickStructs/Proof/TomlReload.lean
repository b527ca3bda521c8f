import QuickStructs.Proof.TomlEntries

/-!
# Loading again

A load adds to what is there. It adds before it knows that the file can be read to its end,
and it does not touch what an earlier load has stored. So a failed load leaves no trace only
where the lines above the error say nothing new; and after a successful one the lookups are
those of the current file only where the earlier files have said nothing else.
-/

namespace QuickStructs.TomlParser

variable {p : Parser} {sec key cur : Str} {files : String → Option Str} {pairs : List Given}

theorem firstGiven_none (h : firstGiven sec key pairs = none) {g : Given} (hg : g ∈ pairs) :
    ¬(g.sec = sec ∧ g.key = key) := by
  have hfind := List.find?_eq_none.mp (Option.map_eq_none_iff.mp h) g hg
  simpa using hfind

theorem firstGiven_some {value : Str} (h : firstGiven sec key pairs = some value) :
    ∃ g ∈ pairs, g.sec = sec ∧ g.key = key := by
  obtain ⟨g, hfind, _⟩ := Option.map_eq_some_iff.mp h
  have hg := List.find?_some hfind
  exact ⟨g, List.mem_of_find?_eq_some hfind, by simpa using hg⟩

/-! ## A load that fails -/

/--
**A load that fails changes nothing exactly when it says nothing new**: each pair above the line
of the error is for a key that has a value in its section already. Where the file is not found,
there is no such pair. The same is true of a load that succeeds, with the pairs of all lines.
-/
theorem failed_load_iff (p : Parser) (files : String → Option Str) :
    (∀ sec key, (p.load files).2.getValue sec key = p.getValue sec key)
    ↔ ∀ file, files p.mFilepath = some file → ∀ g ∈ given [] (getlines file),
      p.getValue g.sec g.key ≠ none := by
  constructor
  · intro hsame file hfile g hg hnone
    have hafter := hsame g.sec g.key
    rw [load_getValue, hnone, Option.none_or, gives, hfile, Option.bind_some] at hafter
    exact firstGiven_none hafter hg ⟨rfl, rfl⟩
  · intro hgiven sec key
    rw [load_getValue]
    cases hval : p.getValue sec key with
    | some v => rfl
    | none =>
        rw [Option.none_or]
        cases hgives : gives p.mFilepath files sec key with
        | none => rfl
        | some value =>
            -- the file gives the key a value, so it has had one
            obtain ⟨file, hfile, hfirst⟩ := Option.bind_eq_some_iff.mp hgives
            obtain ⟨g, hg, rfl, rfl⟩ := firstGiven_some hfirst
            exact absurd hval (hgiven file hfile g hg)

/-- `[a]`, `k=1`, and a line that is not read: the load fails, and the key has a value. -/
theorem failed_load_stores :
    let files : String → Option Str := fun _ => some ['[', 'a', ']', '\n', 'k', '=', '1', '\n', 'x']
    (Parser.load {} files).1 = .error .PARSE_ERROR
      ∧ Parser.getValue {} ['a'] ['k'] = none
      ∧ (Parser.load {} files).2.getValue ['a'] ['k'] = some ['1'] :=
  ⟨rfl, rfl, by decide⟩

/-! ## A load after others -/

/-- One load after another, from the files as they are at each. -/
def Parser.loads (p : Parser) (calls : List (String → Option Str)) : Parser :=
  calls.foldl (fun p files => (p.load files).2) p

theorem take_filepath (p : Parser) (cur : Str) (e : Entry) :
    (p.take cur e).1.mFilepath = p.mFilepath := by
  cases e <;> rfl

theorem extractLines_filepath (p : Parser) (cur : Str) (lines : List Str) :
    (p.extractLines cur lines).2.mFilepath = p.mFilepath := by
  induction lines generalizing p cur with
  | nil => rfl
  | cons line lines ih =>
      by_cases href : Refused cur line
      · rw [extractLines_refused href]
      · obtain ⟨e, _, hread⟩ := extractLines_read href
        rw [hread, ih, take_filepath]

/-- A load does not change the path. -/
theorem load_filepath (p : Parser) (files : String → Option Str) :
    (p.load files).2.mFilepath = p.mFilepath := by
  cases hfile : files p.mFilepath with
  | none => rw [load_missing hfile]
  | some file => rw [load_keeps hfile, extractLines_filepath]

/-- **What a lookup finds after any loads**: the value it found before, and after that the first
that any of the files gives. -/
theorem loads_getValue (p : Parser) (calls : List (String → Option Str)) (sec key : Str) :
    (p.loads calls).getValue sec key
      = (p.getValue sec key).or (calls.findSome? fun files => gives p.mFilepath files sec key) := by
  induction calls generalizing p with
  | nil => exact (Option.or_none).symm
  | cons files calls ih =>
      show ((p.load files).2.loads calls).getValue sec key = _
      rw [ih, load_getValue, load_filepath, Option.or_assoc, List.findSome?_cons]
      cases gives p.mFilepath files sec key <;> rfl

theorem loads_filepath (p : Parser) (calls : List (String → Option Str)) :
    (p.loads calls).mFilepath = p.mFilepath := by
  induction calls generalizing p with
  | nil => rfl
  | cons files calls ih => exact (ih (p.load files).2).trans (load_filepath p files)

/--
**After any sequence of loads, one more leaves the lookups of its file alone exactly when it
gives all that is there already the value it has**: what the earlier files gave first, the current
one gives first too.
-/
theorem reload_iff (path : String) (calls : List (String → Option Str))
    (files : String → Option Str) :
    (∀ sec key, ((Parser.loads { mFilepath := path } calls).load files).2.getValue sec key
      = (Parser.load { mFilepath := path } files).2.getValue sec key)
    ↔ ∀ sec key value, (calls.findSome? fun files => gives path files sec key) = some value →
      gives path files sec key = some value := by
  have hfresh : ∀ sec key, Parser.getValue { mFilepath := path } sec key = none := fun _ _ => rfl
  simp only [load_getValue, loads_getValue, loads_filepath, hfresh, Option.none_or]
  refine forall₂_congr fun sec key => ?_
  cases calls.findSome? fun files => gives path files sec key with
  | none => exact iff_of_true rfl fun _ h => absurd h (by simp)
  | some v =>
      constructor
      · rintro heq value ⟨⟩
        exact heq.symm
      · exact fun h => (h v rfl).symm

/-- `k=1`, and then `k=2`: both loads succeed, and the value is that of the first. A fresh parser
finds the second. -/
theorem reload_keeps_old :
    let first : String → Option Str := fun _ => some ['[', 'a', ']', '\n', 'k', '=', '1']
    let second : String → Option Str := fun _ => some ['[', 'a', ']', '\n', 'k', '=', '2']
    (Parser.load {} first).1 = .ok true
      ∧ ((Parser.loads {} [first]).load second).1 = .ok true
      ∧ ((Parser.loads {} [first]).load second).2.getValue ['a'] ['k'] = some ['1']
      ∧ (Parser.load {} second).2.getValue ['a'] ['k'] = some ['2'] :=
  ⟨rfl, rfl, by decide, by decide⟩

end QuickStructs.TomlParser
