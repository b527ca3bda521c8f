import QuickStructs.Utils.TomlParser

/-!
# What a configuration file says

A well-formed line says nothing, names the section that begins, or gives a key a value.
The forms of the lines are given as they are written, from left to right; nothing here
searches or cuts. What a file says is read off its entries: under a section, the first
value given to a key counts, wherever in the file the section is opened again.
-/

namespace QuickStructs.TomlParser

/-- Space, tab or CR. -/
def Blank (c : Char) : Prop := c = ' ' ∨ c = '\t' ∨ c = '\r'

instance (c : Char) : Decidable (Blank c) := inferInstanceAs (Decidable (_ ∨ _))

def Blanks (s : Str) : Prop := ∀ c ∈ s, Blank c

/-- There is no blank at either end. -/
structure Tight (s : Str) : Prop where
  first : ∀ c ∈ s.head?, ¬Blank c
  last : ∀ c ∈ s.getLast?, ¬Blank c

def Quote (q : Char) : Prop := q = '"' ∨ q = '\''

inductive Entry where
  | nothing
  | header (name : Str)
  | pair (key value : Str)
  deriving DecidableEq, Repr

/-- The end of a line: nothing, or a comment after blanks. The characters of the comment
are as `ok` asks. -/
inductive LineEnd (ok : Char → Prop) : Str → Prop where
  | none : LineEnd ok []
  | comment (b text : Str) : Blanks b → (∀ c ∈ text, ok c) → LineEnd ok (b ++ '#' :: text)

/-- How values are written. -/
inductive Value : Str → Str → Prop where
  | bare (text : Str) : Tight text → '#' ∉ text → '[' ∉ text →
      (2 ≤ text.length → ∀ q, Quote q → ¬(text.head? = some q ∧ text.getLast? = some q)) →
      Value text text
  | quoted (q : Char) (content : Str) : Quote q → '#' ∉ content → '[' ∉ content →
      Value (q :: (content ++ [q])) content

/-- What a line says, without the blanks around it. -/
inductive Says : Str → Entry → Prop where
  | empty : Says [] .nothing
  | comment (text : Str) : Says ('#' :: text) .nothing
  | header (b name b' rest : Str) : Blanks b → Blanks b' → name ≠ [] → Tight name → ']' ∉ name →
      LineEnd (fun _ => True) rest →
      Says ('[' :: (b ++ name ++ b' ++ ']' :: rest)) (.header name)
  | pair (key b b' text value rest : Str) : Blanks b → Blanks b' → key ≠ [] → Tight key →
      key.head? ≠ some '#' → '=' ∉ key → '[' ∉ key → Value text value →
      LineEnd (· ≠ '[') rest →
      Says (key ++ b ++ '=' :: (b' ++ text ++ rest)) (.pair key value)

/-- A well-formed line. -/
inductive Line : Str → Entry → Prop where
  | mk (b text b' : Str) (e : Entry) : Blanks b → Blanks b' → Says text e →
      Line (b ++ text ++ b') e

/-- How keys are written. -/
structure Key (key : Str) : Prop where
  ne : key ≠ []
  tight : Tight key
  hash : key.head? ≠ some '#'
  equal : '=' ∉ key
  bracket : '[' ∉ key

/-- A line with a key and an equal sign, and any text behind them. -/
inductive KeyLine : Str → Str → Str → Prop where
  | mk (b key b' text : Str) : Blanks b → Key key → Blanks b' →
      KeyLine (b ++ key ++ b' ++ '=' :: text) key text

/-- A text in quotes, and perhaps a comment, whatever is in them; a quote does not occur
between its quotes. -/
inductive QuotedText : Str → Str → Str → Prop where
  | mk (b content note b' : Str) (q : Char) : Blanks b → Quote q → q ∉ content →
      LineEnd (fun _ => True) note → Blanks b' →
      QuotedText (b ++ (q :: (content ++ [q])) ++ note ++ b') content note

/-- Every pair comes after a header. -/
def Headed (entries : List Entry) : Prop :=
  ∀ before key value rest, entries = before ++ .pair key value :: rest →
    ∃ name, .header name ∈ before

/-- The first value that is given to the key in the section; `current` is the section at
the beginning. -/
def firstValue (sec key : Str) (current : Option Str) : List Entry → Option Str
  | [] => none
  | .nothing :: rest => firstValue sec key current rest
  | .header name :: rest => firstValue sec key (some name) rest
  | .pair k value :: rest =>
    if current = some sec ∧ k = key then some value else firstValue sec key current rest

end QuickStructs.TomlParser
