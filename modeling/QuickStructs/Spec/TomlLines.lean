import QuickStructs.Spec.Toml

/-!
# What any line is taken for

The code has something to make of almost every line, well-formed or not. A line with an
opening bracket is a header, whatever else is on it, and one with an equal sign and no
bracket is a pair. The rest, comments and blank lines apart, is not read.

What a line should be is another matter: nothing, a complete header or a pair with a key,
each between blanks and with a comment or without.

The pairs of a file are those down to the line that is not read, each with the section it
is in. Where a line stands matters for one thing only: a pair is not read before the first
section with a name.
-/

namespace QuickStructs.TomlParser

open Lib.Text

/-- Without the blanks around it. -/
def trim (s : Str) : Str := eraseTrailing (eraseLeading s)

/-- A line of blanks, or a comment. -/
def Silent (line : Str) : Prop := eraseLeading line = [] ∨ (eraseLeading line).head? = some '#'

instance (line : Str) : Decidable (Silent line) := inferInstanceAs (Decidable (_ ∨ _))

/-- A line that is searched for an equal sign. -/
def Plain (line : Str) : Prop := ¬Silent line ∧ '[' ∉ line

instance (line : Str) : Decidable (Plain line) := inferInstanceAs (Decidable (_ ∧ _))

def lineEntry (line : Str) : Option Entry :=
  if Silent line then some .nothing
  else if '[' ∈ line then some (.header (trim (before (behind line '[') ']')))
  else if '=' ∈ line then some (.pair (trim (before line '=')) (readValue (behind line '=')))
  else none

def NonBlank (s : Str) : Prop := ∃ c ∈ s, ¬Blank c

/-- A line without the blanks around it and without its comment. A key may have a number
sign in it. -/
inductive Core : Str → Prop where
  | empty : Core []
  | header (name : Str) : NonBlank name → ']' ∉ name → Core ('[' :: (name ++ [']']))
  | pair (key value : Str) : NonBlank key → '=' ∉ key → Core (key ++ '=' :: value)

/-- Blanks, and perhaps a comment behind them. -/
inductive Tail : Str → Prop where
  | blanks (b : Str) : Blanks b → Tail b
  | comment (b text : Str) : Blanks b → Tail (b ++ '#' :: text)

/-- The forms that a line should have, for any name, key and value that can be told apart. -/
inductive WellFormed : Str → Prop where
  | mk (b core tail : Str) : Blanks b → Core core → Tail tail → WellFormed (b ++ core ++ tail)

/-- The section after a line. -/
def sectionAfter (cur line : Str) : Str :=
  match lineEntry line with
  | some (.header name) => name
  | _ => cur

/-- The line is not read in the section `cur`. -/
def Refused (cur line : Str) : Prop := Plain line ∧ ('=' ∉ line ∨ cur = [])

instance (cur line : Str) : Decidable (Refused cur line) := inferInstanceAs (Decidable (_ ∧ _))

/-- The lines are not read to their end: one of them is refused in the section it is in. -/
def Stops (lines : List Str) : Prop :=
  ∃ above line below, lines = above ++ line :: below
    ∧ Refused (above.foldl sectionAfter []) line

/-- A pair with its section. -/
structure Given where
  sec : Str
  key : Str
  value : Str
  deriving DecidableEq, Repr

/-- The pairs of the lines above the first that is refused. -/
def given (cur : Str) : List Str → List Given
  | [] => []
  | line :: rest =>
    if Refused cur line then []
    else
      match lineEntry line with
      | some (.pair key value) => ⟨cur, key, value⟩ :: given cur rest
      | _ => given (sectionAfter cur line) rest

/-- The value that is given first. -/
def firstGiven (sec key : Str) (pairs : List Given) : Option Str :=
  (pairs.find? fun g => g.sec = sec ∧ g.key = key).map Given.value

/-- What the file at the path gives first, nothing where there is no file. -/
def gives (path : String) (files : String → Option Str) (sec key : Str) : Option Str :=
  (files path).bind fun file => firstGiven sec key (given [] (getlines file))

end QuickStructs.TomlParser
