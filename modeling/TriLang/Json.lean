/-!
# JSON text

Values and the two ways in which they are written: on one line without blanks, and over several
lines with two spaces of indentation for each level.  Empty arrays and objects are written alike in
both.  Strings escape quotes, backslashes and control characters only.
-/

namespace TriLang

inductive Json
  | null
  | bool (value : Bool)
  | nat (value : Nat)
  | str (value : String)
  | arr (items : List Json)
  | obj (fields : List (String × Json))

namespace Json

/-- A string, or null. -/
def ofOption : Option String → Json
  | none => null
  | some s => str s

/-! ## Strings -/

def hexDigit (n : Nat) : Char := "0123456789abcdef".toList.getD n '0'

/-- How a character is written inside quotes. -/
def escape (c : Char) : List Char :=
  if c = '"' then ['\\', '"']
  else if c = '\\' then ['\\', '\\']
  else if c = '\x08' then ['\\', 'b']
  else if c = '\x0c' then ['\\', 'f']
  else if c = '\n' then ['\\', 'n']
  else if c = '\r' then ['\\', 'r']
  else if c = '\t' then ['\\', 't']
  else if c.toNat < 32 then ['\\', 'u', '0', '0', hexDigit (c.toNat / 16), hexDigit (c.toNat % 16)]
  else [c]

def quote (s : String) : String := String.ofList ('"' :: s.toList.flatMap escape ++ ['"'])

/-! ## Values -/

mutual

/-- On one line. -/
def compact : Json → String
  | null => "null"
  | bool value => if value then "true" else "false"
  | nat value => toString value
  | str value => quote value
  | arr items => "[" ++ String.intercalate "," (compactItems items) ++ "]"
  | obj fields => "\x7b" ++ String.intercalate "," (compactFields fields) ++ "\x7d"

def compactItems : List Json → List String
  | [] => []
  | v :: vs => v.compact :: compactItems vs

def compactFields : List (String × Json) → List String
  | [] => []
  | (key, v) :: fields => (quote key ++ ":" ++ v.compact) :: compactFields fields

end

/-- A new line, indented for `level`. -/
def newLine (level : Nat) : String := String.ofList ('\n' :: List.replicate (2 * level) ' ')

/-- Brackets around entries, each of them on a line of its own. -/
def block (level : Nat) (opening closing : String) : List String → String
  | [] => opening ++ closing
  | entries =>
    opening ++ newLine (level + 1) ++ String.intercalate ("," ++ newLine (level + 1)) entries
      ++ newLine level ++ closing

mutual

/-- Over several lines, inside `level` brackets. -/
def pretty (level : Nat) : Json → String
  | null => "null"
  | bool value => if value then "true" else "false"
  | nat value => toString value
  | str value => quote value
  | arr items => block level "[" "]" (prettyItems (level + 1) items)
  | obj fields => block level "\x7b" "\x7d" (prettyFields (level + 1) fields)

def prettyItems (level : Nat) : List Json → List String
  | [] => []
  | v :: vs => v.pretty level :: prettyItems level vs

def prettyFields (level : Nat) : List (String × Json) → List String
  | [] => []
  | (key, v) :: fields => (quote key ++ ": " ++ v.pretty level) :: prettyFields level fields

end

end Json

end TriLang
