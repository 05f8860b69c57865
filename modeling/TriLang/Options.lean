import TriLang.Json
import TriLang.Json.Skip

/-!
# Options

The options of a run, and how they are read from JSON text: from an object, whose unknown members
are skipped and whose known ones occur once at most, or from an array of the values in order.  What
is absent has its default.
-/

namespace TriLang

structure Options where
  /-- Run every stage even when an earlier one has failed. -/
  keepGoing : Bool := true
  /-- Color rendered diagnostics. -/
  color : Bool := false
  /-- The name shown in rendered diagnostics. -/
  fileName : Option String := none
  deriving DecidableEq

namespace Options

def shownName (o : Options) : String := o.fileName.getD "<source>"

def json (o : Options) : Json :=
  .obj [("continue_after_errors", .bool o.keepGoing),
    ("color", .bool o.color),
    ("file_name", .ofOption o.fileName)]

/-! ## Members -/

/-- An option by itself. -/
inductive Field
  | keepGoing
  | color
  | fileName
  deriving DecidableEq

/-- The options in the order of their values in an array. -/
def Field.all : List Field := [.keepGoing, .color, .fileName]

def Field.key : Field → String
  | keepGoing => "continue_after_errors"
  | color => "color"
  | fileName => "file_name"

/-- The option named by a key. -/
def Field.ofKey? (key : List Char) : Option Field := all.find? (·.key.toList == key)

open Json (Fault Reading)
open Json.Read

/-- Takes off the value of an option and sets it. -/
def readField (o : Options) (field : Field) (cs : List Char) : Reading Options cs :=
  match field with
  | .keepGoing => do
    let t ← bool cs
    .ok ⟨{ o with keepGoing := t.value }, t.rest, t.le⟩
  | .color => do
    let t ← bool cs
    .ok ⟨{ o with color := t.value }, t.rest, t.le⟩
  | .fileName => do
    let t ← stringOrNull cs
    .ok ⟨{ o with fileName := t.value }, t.rest, t.le⟩

/-- Takes off the value of a member, which sets an option or is skipped. -/
def readValue (o : Options) (field : Option Field) (cs : List Char) : Reading Options cs := do
  let behind ← colon cs
  match field with
  | some field => within behind.le (readField o field behind.rest)
  | none =>
    let t ← skipValue behind.rest
    .ok ⟨o, t.rest, Nat.le_trans t.le behind.le⟩

/-- Takes off the opening quote of the next key of an object, or the bracket at its end. -/
def nextKey (isFirst : Bool) (cs : List Char) :
    Except Fault (Bool × { rest : List Char // rest.length < cs.length }) :=
  match h : skipBlank cs with
  | [] => .error .unfinished
  | c :: rest =>
    have shorter := length_lt_of_skipBlank_eq h
    if c = '\x7d' then .ok (false, ⟨rest, shorter⟩)
    else if isFirst then
      if c = '"' then .ok (true, ⟨rest, shorter⟩) else .error .malformed
    else if c = ',' then
      match h : skipBlank rest with
      | [] => .error .unfinished
      | c :: rest =>
        have shortest := length_lt_of_skipBlank_eq h
        if c = '"' then .ok (true, ⟨rest, Nat.lt_trans shortest shorter⟩) else .error .malformed
    else .error .malformed

/-- Takes off the members of an object up to its end, where the options `seen` have been set. -/
def readMembers (o : Options) (seen : List Field) (isFirst : Bool) (cs : List Char) :
    Except Fault (Options × List Char) := do
  match ← nextKey isFirst cs with
  | (false, rest) => .ok (o, rest.val)
  | (true, ⟨rest, _⟩) =>
    let key ← string rest
    let field := Field.ofKey? key.value
    if field.any (seen.contains ·) then .error .mistyped
    else
      let t ← readValue o field key.rest
      have := Nat.le_trans t.le key.le
      readMembers t.value (field.toList ++ seen) false t.rest
  termination_by cs.length

/-! ## Elements -/

/-- What stands before the next value of an array is taken off; at its end there is none. -/
def nextElement (isFirst : Bool) (cs : List Char) : Except Fault (Option (List Char)) :=
  match skipBlank cs with
  | [] => .error .unfinished
  | c :: rest =>
    if c = ']' then .ok none
    else if isFirst then .ok (some (c :: rest))
    else if c = ',' then
      match skipBlank rest with
      | [] => .error .unfinished
      | c :: rest => if c = ']' then .error .malformed else .ok (some (c :: rest))
    else .error .malformed

/-- Takes off the bracket at the end of an array. -/
def endArray (cs : List Char) : Except Fault (List Char) :=
  match skipBlank cs with
  | [] => .error .unfinished
  | c :: rest => if c = ']' then .ok rest else .error .malformed

/-- Takes off the elements of an array up to its end, which set the options `fields` in order. -/
def readElements (o : Options) (isFirst : Bool) (fields : List Field) (cs : List Char) :
    Except Fault (Options × List Char) := do
  match fields with
  | [] => .ok (o, ← endArray cs)
  | field :: fields =>
    match ← nextElement isFirst cs with
    | none => .ok (o, ← endArray cs)
    | some rest =>
      let t ← readField o field rest
      readElements t.value false fields t.rest

/-! ## Texts -/

/-- The options written in a text, or the first fault in it. -/
def ofJson (text : String) : Except Fault Options := do
  let (o, rest) ← match skipBlank text.toList with
    | '\x7b' :: rest => readMembers {} [] true rest
    | '[' :: rest => readElements {} true Field.all rest
    | rest => .error (wrongType rest)
  if (skipBlank rest).isEmpty then .ok o else .error .malformed

end Options

end TriLang
