import Mathlib.Logic.Function.Basic
import QuickStructs.Lib.Decimal
import QuickStructs.Lib.Text

/-!
# The configuration file parser

`TomlParser` reads a file line by line. A line is trimmed, and it is then a comment, a
section header, or a pair of a key and a value; the value loses its comment first and its
quotes after that. An error stops the reading where it is: the parser keeps what it has
read until then.

The map of sections is a map of maps, as in the code, and an entry that is there is not
overwritten. The log messages are left out.
-/

namespace QuickStructs.TomlParser

open Lib.Text

abbrev Str := List Char

inductive TomlParserError where
  | FILE_NOT_FOUND
  | PARSE_ERROR
  | KEY_NOT_FOUND
  | TYPE_MISMATCH
  | INVALID_TOML
  deriving DecidableEq, Repr

/-- `TomlParser`. -/
structure Parser where
  mFilepath : String := "etc/config.toml"
  mSections : List Str := []
  /-- Map of section -> (key -> value). -/
  mKeys : Str → Option (Str → Option Str) := fun _ => none

/-- `" \t\r\n"` -/
def blanks : List Char := [' ', '\t', '\r', '\n']

/-- `s.erase(0, s.find_first_not_of(" \t\r\n"))` -/
def eraseLeading (s : Str) : Str := erase s 0 (findFirstNotOf s blanks)

/-- `s.erase(s.find_last_not_of(" \t\r\n") + 1)` -/
def eraseTrailing (s : Str) : Str := erase s (after (findLastNotOf s blanks)) none

/-- The first and the last character are `q`. -/
def quotedBy (q : Char) (val : Str) : Prop := val.head? = some q ∧ val.getLast? = some q

instance (q : Char) (val : Str) : Decidable (quotedBy q val) :=
  inferInstanceAs (Decidable (_ ∧ _))

def unquote (val : Str) : Str :=
  if 2 ≤ val.length ∧ (quotedBy '"' val ∨ quotedBy '\'' val) then
    substr val 1 (some (val.length - 2))
  else val

/-- What the text after the equal sign is worth. -/
def readValue (val : Str) : Str :=
  let val := eraseTrailing (eraseLeading val)
  match find val '#' with
  | some commentPos => unquote (eraseLeading (eraseTrailing (substr val 0 (some commentPos))))
  | none => unquote val

/-- `m_keys[section].emplace(key, val)` -/
def Parser.emplace (p : Parser) (sec key val : Str) : Parser :=
  let keys := (p.mKeys sec).getD fun _ => none
  let keys := if keys key = none then Function.update keys key (some val) else keys
  { p with mKeys := Function.update p.mKeys sec (some keys) }

/-- One round of the loop of `extract_keys`, `none` for a parse error. The second component
is `current_section`. -/
def Parser.extractLine (p : Parser) (currentSection : Str) (line : Str) : Option (Parser × Str) :=
  let line := eraseLeading line
  if line = [] then some (p, currentSection)
  else
    let line := eraseTrailing line
    if line.head? = some '#' then some (p, currentSection)
    else
      match find line '[' with
      | some leftBracket =>
        let sec := substr line (leftBracket + 1) none
        let sec := substr sec 0 (find sec ']')
        let sec := eraseTrailing (eraseLeading sec)
        some ({ p with mSections := p.mSections ++ [sec] }, sec)
      | none =>
        match find line '=' with
        | some equalSign =>
          if currentSection = [] then none
          else
            let key := substr line 0 (some equalSign)
            let val := substr line (equalSign + 1) none
            let key := eraseTrailing (eraseLeading key)
            some (p.emplace currentSection key (readValue val), currentSection)
        | none => none

def Parser.extractLines (p : Parser) (currentSection : Str) :
    List Str → Except TomlParserError Bool × Parser
  | [] => (.ok true, p)
  | line :: rest =>
    match p.extractLine currentSection line with
    | some (p, currentSection) => p.extractLines currentSection rest
    | none => (.error .PARSE_ERROR, p)

/-- What `std::getline` reads from a file, call by call. -/
def getlines : Str → List Str
  | [] => []
  | c :: file =>
    if c = '\n' then [] :: getlines file
    else
      match getlines file with
      | line :: rest => (c :: line) :: rest
      | [] => [[c]]

/-- `extract_keys` -/
def Parser.extractKeys (p : Parser) (file : Str) : Except TomlParserError Bool × Parser :=
  p.extractLines [] (getlines file)

/-- `load`; `files` is what is in the files that can be opened. -/
def Parser.load (p : Parser) (files : String → Option Str) : Except TomlParserError Bool × Parser :=
  match files p.mFilepath with
  | none => (.error .FILE_NOT_FOUND, p)
  | some file =>
    let placeholder := true
    if !placeholder then (.error .INVALID_TOML, p)
    else
      match p.extractKeys file with
      | (.ok _, p) => (.ok true, p)
      | (.error _, p) => (.error .PARSE_ERROR, p)

/-- `get_value` -/
def Parser.getValue (p : Parser) (sec key : Str) : Option Str :=
  (p.mKeys sec).bind fun keys => keys key

/-- `get_string`, which names the section and the key in one string. -/
def Parser.getString (p : Parser) (key : Str) : Str :=
  match find key '.' with
  | none => []
  | some dot =>
    let sec := substr key 0 (some dot)
    let subkey := substr key (dot + 1) none
    match p.mKeys sec with
    | none => []
    | some keys =>
      match keys subkey with
      | none => []
      | some val => unquote val

/-- `get_int` -/
def Parser.getInt (p : Parser) (key : Str) : Int :=
  let s := p.getString key
  if s = [] then 0
  else
    match Lib.Decimal.stoi s with
    | some n => n
    | none => 0

end QuickStructs.TomlParser
