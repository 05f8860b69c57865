import TriLang.Json.Read

/-!
# Skipping JSON values

A value is skipped with a stack of the arrays and objects that are open around it, so that nesting
has no limit.  Only the shape of the text is checked: strings are not decoded, and numbers may have
any size.
-/

namespace TriLang.Json.Read

/-! ## Numbers and strings -/

/-- Takes off an exponent behind its letter. -/
def skipExponent (cs : List Char) : Reading Unit cs :=
  let digits := (Number.exponentSign cs).2
  match h : digits with
  | c :: rest =>
    if c.isDigit then
      .ok ⟨(), rest.dropWhile Char.isDigit, by
        have := (List.dropWhile_sublist Char.isDigit (l := rest)).length_le
        have : digits.length ≤ cs.length := by
          simp only [digits]; unfold Number.exponentSign; split <;> simp
        simp [h] at this
        omega⟩
    else .error .malformed
  | [] => .error .malformed

/-- Takes off what may follow the digits of a number and its point. -/
def skipTail (cs : List Char) : Reading Unit cs :=
  match cs with
  | 'e' :: rest => past 'e' (skipExponent rest)
  | 'E' :: rest => past 'E' (skipExponent rest)
  | rest => nothing rest

/-- Takes off what may follow the digits of a number. -/
def skipFraction (cs : List Char) : Reading Unit cs :=
  match cs with
  | '.' :: rest =>
    if rest.head?.any Char.isDigit then
      past '.' (pastDigits (skipTail (rest.dropWhile Char.isDigit)))
    else .error .malformed
  | rest => skipTail rest

/-- Takes off a number, its sign aside. -/
def skipNumber (cs : List Char) : Reading Unit cs :=
  match cs with
  | [] => .error .malformed
  | c :: rest =>
    if c = '0' then
      if rest.head?.any Char.isDigit then .error .malformed
      else past c (skipFraction rest)
    else if c.isDigit then past c (pastDigits (skipFraction (rest.dropWhile Char.isDigit)))
    else .error .malformed

/-- What follows the backslash of an escape that is not decoded. -/
def skipEscape : (cs : List Char) → Reading Unit cs
  | [] => .error .unfinished
  | c :: rest =>
    if (shortEscape? c).isSome then past c (nothing rest)
    else if c = 'u' then past c ((hexQuad rest).map fun t => ⟨(), t.rest, t.le⟩)
    else .error .malformed

/-- What follows the opening quote of a string that is not decoded. -/
def skipString (cs : List Char) : Reading Unit cs :=
  match cs with
  | [] => .error .unfinished
  | c :: rest =>
    if c = '"' then past c (nothing rest)
    else if c = '\\' then do
      let e ← skipEscape rest
      have := e.le
      within (by simp; omega) (skipString e.rest)
    else if c.toNat < 32 then .error .malformed
    else past c (skipString rest)
  termination_by cs.length
  decreasing_by all_goals (simp; try omega)

/-- Takes off a value that is neither an array nor an object. -/
def skipScalar (cs : List Char) : Reading Unit cs :=
  match cs with
  | 'n' :: rest => past 'n' (word ['u', 'l', 'l'] rest)
  | 't' :: rest => past 't' (word ['r', 'u', 'e'] rest)
  | 'f' :: rest => past 'f' (word ['a', 'l', 's', 'e'] rest)
  | '-' :: rest => past '-' (skipNumber rest)
  | '"' :: rest => past '"' (skipString rest)
  | c :: rest => if c.isDigit then skipNumber (c :: rest) else .error .malformed
  | [] => .error .unfinished

/-! ## Arrays and objects -/

/-- What is open around a value. -/
inductive Frame
  | array
  | object
  deriving DecidableEq

def Frame.opening : Frame → Char
  | array => '['
  | object => '\x7b'

def Frame.closing : Frame → Char
  | array => ']'
  | object => '\x7d'

/-- Takes off the colon between a key and its value. -/
def colon (cs : List Char) : Reading Unit cs :=
  match h : skipBlank cs with
  | [] => .error .unfinished
  | c :: rest =>
    if c = ':' then .ok ⟨(), rest, length_le_of_skipBlank_eq h (Nat.le_refl _)⟩
    else .error .malformed

/-- Takes off what stands before a value in a frame: its key, in an object. -/
def skipKey (frame : Frame) (cs : List Char) : Reading Unit cs :=
  match frame with
  | .array => nothing cs
  | .object =>
    match h : skipBlank cs with
    | [] => .error .unfinished
    | c :: rest =>
      if c = '"' then do
        let key ← skipString rest
        let behind ← colon key.rest
        .ok ⟨(), behind.rest, length_le_of_skipBlank_eq h (Nat.le_trans behind.le key.le)⟩
      else .error .malformed

mutual

/-- Takes off a value, and then the rest of the `frames` around it. -/
def skipIn (frames : List Frame) (cs : List Char) : Reading Unit cs :=
  match h : skipBlank cs with
  | [] => .error .unfinished
  | c :: rest =>
    have := length_lt_of_skipBlank_eq h
    match [Frame.array, .object].find? (·.opening == c) with
    | some frame => within (by omega) (skipFirst frame frames rest)
    | none => do
      let t ← skipScalar (c :: rest)
      have := t.le
      within (by simp at *; omega) (skipRest frames t.rest)
  termination_by 3 * cs.length + 1
  decreasing_by all_goals ((try simp at *); omega)

/-- Takes off what follows the opening bracket of `frame`. -/
def skipFirst (frame : Frame) (frames : List Frame) (cs : List Char) : Reading Unit cs :=
  match h : skipBlank cs with
  | [] => .error .unfinished
  | c :: rest =>
    have := length_lt_of_skipBlank_eq h
    if c = frame.closing then within (by omega) (skipRest frames rest)
    else do
      let key ← skipKey frame (c :: rest)
      have := key.le
      within (by simp at *; omega) (skipIn (frame :: frames) key.rest)
  termination_by 3 * cs.length + 2
  decreasing_by all_goals ((try simp at *); omega)

/-- Takes off what follows a value in `frames`. -/
def skipRest (frames : List Frame) (cs : List Char) : Reading Unit cs :=
  match frames with
  | [] => nothing cs
  | frame :: outer =>
    match h : skipBlank cs with
    | [] => .error .unfinished
    | c :: rest =>
      have := length_lt_of_skipBlank_eq h
      if c = frame.closing then within (by omega) (skipRest outer rest)
      else if c = ',' then do
        let key ← skipKey frame rest
        have := key.le
        within (by omega) (skipIn (frame :: outer) key.rest)
      else .error .malformed
  termination_by 3 * cs.length

end

/-- Takes off a value. -/
def skipValue (cs : List Char) : Reading Unit cs := skipIn [] cs

end TriLang.Json.Read
