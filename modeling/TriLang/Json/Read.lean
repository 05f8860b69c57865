import TriLang.Json.Number
import TriLang.Span

/-!
# Reading JSON text

Readers take a value off the beginning of a text and give the rest of it, or the first fault met
from left to right.  A value that nobody asks for is skipped: its strings are not decoded, so an
escape that stands for no character passes there, and nesting has no limit.
-/

namespace TriLang.Json

/-- What is taken off the beginning of `cs`. -/
structure Taken (α : Type) (cs : List Char) where
  value : α
  rest : List Char
  le : rest.length ≤ cs.length

/-- A value taken off the beginning of `cs`, or a fault. -/
abbrev Reading (α : Type) (cs : List Char) := Except Fault (Taken α cs)

namespace Read

variable {α : Type}

/-- What is taken off the end of a text is taken off the text. -/
def within {cs ds : List Char} (le : cs.length ≤ ds.length) : Reading α cs → Reading α ds
  | .ok t => .ok ⟨t.value, t.rest, Nat.le_trans t.le le⟩
  | .error fault => .error fault

theorem length_le_cons (c : Char) (cs : List Char) : cs.length ≤ (c :: cs).length := Nat.le_succ _

theorem length_dropDigits_le (cs : List Char) :
    (cs.dropWhile Char.isDigit).length ≤ cs.length :=
  (List.dropWhile_sublist _).length_le

/-- Takes off nothing. -/
def nothing (cs : List Char) : Reading Unit cs := .ok ⟨(), cs, Nat.le_refl _⟩

/-- What is taken off behind `c` is taken off with it. -/
def past (c : Char) {cs : List Char} (r : Reading α cs) : Reading α (c :: cs) :=
  within (length_le_cons c cs) r

/-- What is taken off behind digits is taken off with them. -/
def pastDigits {cs : List Char} (r : Reading α (cs.dropWhile Char.isDigit)) : Reading α cs :=
  within (length_dropDigits_le cs) r

def isBlank (c : Char) : Bool := c == ' ' || c == '\t' || c == '\n' || c == '\r'

def skipBlank (cs : List Char) : List Char := cs.dropWhile isBlank

theorem length_skipBlank_le (cs : List Char) : (skipBlank cs).length ≤ cs.length :=
  (List.dropWhile_sublist _).length_le

theorem length_lt_of_skipBlank_eq {cs rest : List Char} {c : Char} (h : skipBlank cs = c :: rest) :
    rest.length < cs.length := by
  have := length_skipBlank_le cs
  rw [h, List.length_cons] at this
  exact this

theorem length_le_of_skipBlank_eq {cs rest left : List Char} {c : Char}
    (h : skipBlank cs = c :: rest) (le : left.length ≤ rest.length) : left.length ≤ cs.length :=
  Nat.le_trans le (Nat.le_of_lt (length_lt_of_skipBlank_eq h))

/-! ## Words and strings -/

/-- Takes off `expected`, to the letter. -/
def word (expected : List Char) : (cs : List Char) → Reading Unit cs :=
  match expected with
  | [] => nothing
  | e :: es => fun
    | [] => .error .unfinished
    | c :: cs => if c = e then past c (word es cs) else .error .malformed

def hexValue? (c : Char) : Option Nat :=
  if '0' ≤ c ∧ c ≤ '9' then some (c.toNat - '0'.toNat)
  else if 'a' ≤ c ∧ c ≤ 'f' then some (c.toNat - 'a'.toNat + 10)
  else if 'A' ≤ c ∧ c ≤ 'F' then some (c.toNat - 'A'.toNat + 10)
  else none

/-- Takes off four hexadecimal digits.  A text with fewer than four bytes left ends too early. -/
def hexQuad (cs : List Char) : Reading Nat cs :=
  if utf8Length (cs.take 4) < 4 then .error .unfinished
  else
    match cs with
    | a :: b :: c :: d :: rest =>
      match hexValue? a, hexValue? b, hexValue? c, hexValue? d with
      | some a, some b, some c, some d =>
        .ok ⟨((a * 16 + b) * 16 + c) * 16 + d, rest, by simp; omega⟩
      | _, _, _, _ => .error .malformed
    | _ => .error .malformed

def isHighSurrogate (n : Nat) : Bool := 0xD800 ≤ n && n ≤ 0xDBFF

def isLowSurrogate (n : Nat) : Bool := 0xDC00 ≤ n && n ≤ 0xDFFF

/-- What follows the letter `u` of an escape: one code unit, or a pair of surrogates. -/
def unicodeEscape (cs : List Char) : Reading Char cs := do
  let high ← hexQuad cs
  if isLowSurrogate high.value then .error .malformed
  else if isHighSurrogate high.value then
    match h : high.rest with
    | [] => .error .unfinished
    | ['\\'] => .error .unfinished
    | '\\' :: 'u' :: rest =>
      let low ← hexQuad rest
      if isLowSurrogate low.value then
        let code := 0x10000 + (high.value - 0xD800) * 0x400 + (low.value - 0xDC00)
        .ok ⟨Char.ofNat code, low.rest, by
          have := low.le
          have := high.le
          simp [h] at this
          omega⟩
      else .error .malformed
    | _ => .error .malformed
  else .ok ⟨Char.ofNat high.value, high.rest, high.le⟩

/-- The character that a one-letter escape stands for. -/
def shortEscape? : Char → Option Char
  | '"' => some '"'
  | '\\' => some '\\'
  | '/' => some '/'
  | 'b' => some '\x08'
  | 'f' => some '\x0c'
  | 'n' => some '\n'
  | 'r' => some '\r'
  | 't' => some '\t'
  | _ => none

/-- What follows the backslash of an escape. -/
def escape : (cs : List Char) → Reading Char cs
  | [] => .error .unfinished
  | c :: rest =>
    match shortEscape? c with
    | some e => .ok ⟨e, rest, by simp⟩
    | none => if c = 'u' then past c (unicodeEscape rest) else .error .malformed

/-- What follows the opening quote of a string, up to and with the closing one. -/
def string (cs : List Char) : Reading (List Char) cs :=
  match cs with
  | [] => .error .unfinished
  | c :: rest =>
    if c = '"' then .ok ⟨[], rest, by simp⟩
    else if c = '\\' then do
      let e ← escape rest
      have := e.le
      let tail ← string e.rest
      .ok ⟨e.value :: tail.value, tail.rest, by have := tail.le; simp; omega⟩
    else if c.toNat < 32 then .error .malformed
    else do
      let tail ← string rest
      .ok ⟨c :: tail.value, tail.rest, by have := tail.le; simp; omega⟩
  termination_by cs.length
  decreasing_by all_goals (simp; try omega)

/-! ## Values of the wrong type -/

/-- The fault of a value that is not of the type wanted, if it is a value at all. -/
def wrongType (cs : List Char) : Fault :=
  match cs with
  | 'n' :: rest => judge (word ['u', 'l', 'l'] rest)
  | 't' :: rest => judge (word ['r', 'u', 'e'] rest)
  | 'f' :: rest => judge (word ['a', 'l', 's', 'e'] rest)
  | '-' :: rest => Number.fault rest
  | '"' :: rest => judge (string rest)
  | '[' :: _ => .mistyped
  | '\x7b' :: _ => .mistyped
  | c :: _ => if c.isDigit then Number.fault cs else .malformed
  | [] => .unfinished
where
  /-- A value that can be read is of the wrong type. -/
  judge {α : Type} {cs : List Char} : Reading α cs → Fault
    | .ok _ => .mistyped
    | .error fault => fault

/-! ## Values of one type -/

def bool (cs : List Char) : Reading Bool cs :=
  match h : skipBlank cs with
  | 't' :: rest => do
    let t ← word ['r', 'u', 'e'] rest
    .ok ⟨true, t.rest, length_le_of_skipBlank_eq h t.le⟩
  | 'f' :: rest => do
    let t ← word ['a', 'l', 's', 'e'] rest
    .ok ⟨false, t.rest, length_le_of_skipBlank_eq h t.le⟩
  | rest => .error (wrongType rest)

/-- A string, or null. -/
def stringOrNull (cs : List Char) : Reading (Option String) cs :=
  match h : skipBlank cs with
  | 'n' :: rest => do
    let t ← word ['u', 'l', 'l'] rest
    .ok ⟨none, t.rest, length_le_of_skipBlank_eq h t.le⟩
  | '"' :: rest => do
    let t ← string rest
    .ok ⟨some (String.ofList t.value), t.rest, length_le_of_skipBlank_eq h t.le⟩
  | rest => .error (wrongType rest)

end Read

end TriLang.Json
