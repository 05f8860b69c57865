/-!
# Numbers of a JSON text

A number is read into a significand below `2 ^ 64` and a decimal exponent; digits that no longer
fit only count towards the exponent, or are dropped behind the point.  It stands for the product of
the two, rounded to a double, and is out of range if that is infinite.
-/

namespace TriLang.Json

inductive Fault
  /-- The text is not JSON. -/
  | malformed
  /-- The text ends too early. -/
  | unfinished
  /-- The text is JSON for something else. -/
  | mistyped
  deriving DecidableEq

namespace Number

def digit (c : Char) : Nat := c.toNat - '0'.toNat

/-- Appends digits to a significand while they fit, and gives what is left of the text. -/
def absorb (significand : Nat) : List Char → Nat × List Char
  | [] => (significand, [])
  | c :: rest =>
    let next := 10 * significand + digit c
    if c.isDigit && next < 2 ^ 64 then absorb next rest else (significand, c :: rest)

/-- The nearest number with 53 significant bits; a tie goes to an even last bit. -/
def roundToDouble (n : Nat) : Nat :=
  let unit := Nat.pow 2 (n.log2 - 52)
  let quotient := n / unit
  let twice := 2 * (n % unit)
  if twice > unit ∨ (twice = unit ∧ quotient % 2 = 1) then (quotient + 1) * unit
  else quotient * unit

/-- Whether the number is infinite as a product of doubles. -/
def isOutOfRange (significand : Nat) (exponent : Int) : Bool :=
  significand != 0 &&
    (exponent > 308 ||
      (0 ≤ exponent && roundToDouble significand * roundToDouble (Nat.pow 10 exponent.toNat)
        ≥ Nat.pow 2 1024 - Nat.pow 2 970))

/-- What is wrong with a number of the given parts where something else is wanted. -/
def faultOf (significand : Nat) (exponent : Int) : Fault :=
  if isOutOfRange significand exponent then .malformed else .mistyped

/-- The sign before the digits of an exponent, and the rest. -/
def exponentSign : List Char → Int × List Char
  | '+' :: rest => (1, rest)
  | '-' :: rest => (-1, rest)
  | rest => (1, rest)

/-- What is wrong with a number that goes on with the exponent `text`. -/
def exponentFault (significand : Nat) (exponent : Int) (text : List Char) : Fault :=
  let (unit, digits) := exponentSign text
  match digits with
  | [] => .unfinished
  | c :: _ =>
    if c.isDigit then
      let value := (digits.takeWhile Char.isDigit).foldl (fun n d => 10 * n + digit d) 0
      faultOf significand (exponent + unit * value)
    else .malformed

/-- What is wrong with a number that goes on with `text` behind its digits. -/
def tailFault (significand : Nat) (exponent : Int) : List Char → Fault
  | 'e' :: rest => exponentFault significand exponent rest
  | 'E' :: rest => exponentFault significand exponent rest
  | _ => faultOf significand exponent

/-- What is wrong with a number that goes on with `text` behind its point. -/
def fractionFault (significand : Nat) (exponent : Int) (text : List Char) : Fault :=
  match text with
  | [] => .unfinished
  | c :: _ =>
    if c.isDigit then
      let (wider, rest) := absorb significand text
      tailFault wider (exponent - (text.length - rest.length)) (rest.dropWhile Char.isDigit)
    else .malformed

/-- What is wrong with a number, its sign aside, where something else is wanted. -/
def fault (text : List Char) : Fault :=
  match text with
  | [] => .unfinished
  | c :: rest =>
    if c = '0' && (rest.head?.any Char.isDigit) then .malformed
    else if c.isDigit then
      let (significand, rest) := absorb 0 text
      let exponent := (rest.takeWhile Char.isDigit).length
      match rest.dropWhile Char.isDigit with
      | '.' :: rest => fractionFault significand exponent rest
      | rest => tailFault significand exponent rest
    else .malformed

end Number

end TriLang.Json
