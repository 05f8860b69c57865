/-!
# Values of literals

Literals are kept as written.  An integer literal has a value if the number it spells fits a signed
64-bit word; a character literal has one if exactly one character stands between its quotes.
-/

namespace TriLang.Literal

/-- The number spelled by decimal digits. -/
def decimal (digits : List Char) : Nat :=
  digits.foldl (fun n d => 10 * n + (d.toNat - '0'.toNat)) 0

/-- Whether `n` is a signed 64-bit number. -/
def fitsWord (n : Int) : Bool := -0x8000000000000000 ≤ n && n < 0x8000000000000000

/-- The sign before a number, and what follows it. -/
def sign : List Char → Int × List Char
  | '-' :: rest => (-1, rest)
  | '+' :: rest => (1, rest)
  | rest => (1, rest)

/-- The value of an integer literal: one sign at most, then decimal digits only. -/
def integer? (spelling : String) : Option Int :=
  let (unit, digits) := sign spelling.toList
  if !digits.isEmpty && digits.all Char.isDigit && fitsWord (unit * decimal digits) then
    some (unit * decimal digits)
  else none

/-- What stands between the first and the last character of a character literal. -/
def interior (spelling : String) : List Char := spelling.toList.tail.dropLast

/-- The value of a character literal. -/
def character? (spelling : String) : Option Char :=
  match interior spelling with
  | [c] => some c
  | _ => none

end TriLang.Literal
