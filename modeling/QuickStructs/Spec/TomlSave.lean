import Mathlib.Data.Set.Finite.Basic
import QuickStructs.Spec.TomlLines

/-!
# What files can hold

A file gives sections and keys their values, and not every text can be one of the three. The marks
that the code searches for are not told from characters of a field, so a field cannot have those
that would end it, wherever they stand. Blanks at the ends of a section or a key are lost; those of
a value are kept between quotes.

What is left can be written down, each pair under a header of its own.
-/

namespace QuickStructs.TomlParser

/-- A section and a key that a line can have, and a value that quotes can hold. -/
structure Writable (g : Given) : Prop where
  named : g.sec ≠ []
  secTrim : trim g.sec = g.sec
  secMarks : ']' ∉ g.sec ∧ '\n' ∉ g.sec
  keyTrim : trim g.key = g.key
  /-- The line is not a comment. -/
  keyHead : g.key.head? ≠ some '#'
  keyMarks : '=' ∉ g.key ∧ '[' ∉ g.key ∧ '\n' ∉ g.key
  valueMarks : '#' ∉ g.value ∧ '[' ∉ g.value ∧ '\n' ∉ g.value

/-- A header, and the pair with its value in quotes. -/
def Given.write (g : Given) : List Str :=
  ['[' :: (g.sec ++ [']']), g.key ++ '=' :: '"' :: (g.value ++ ['"'])]

/-- A file with the pairs. -/
def save (pairs : List Given) : Str :=
  (pairs.flatMap Given.write).flatMap fun line => line ++ ['\n']

/-- What lookups can find: finitely many values, all of them where they can be written. -/
structure Holdable (table : Str → Str → Option Str) : Prop where
  finite : {x : Str × Str | table x.1 x.2 ≠ none}.Finite
  writable : ∀ sec key value, table sec key = some value → Writable ⟨sec, key, value⟩

/-- A number for a key. -/
structure Setting where
  sec : Str
  key : Str
  value : Int

/-- As a file gives it. -/
def Setting.given (s : Setting) : Given := ⟨s.sec, s.key, Lib.Decimal.integer s.value⟩

/-- An `int`, in a section that one string can name together with the key. -/
structure Setting.Fits (s : Setting) : Prop where
  writable : Writable ⟨s.sec, s.key, []⟩
  undotted : '.' ∉ s.sec
  int : -2147483648 ≤ s.value ∧ s.value ≤ 2147483647

/-- The number that is set first. -/
def firstSet (sec key : Str) (settings : List Setting) : Option Int :=
  (settings.find? fun s => s.sec = sec ∧ s.key = key).map Setting.value

end QuickStructs.TomlParser
