import TriLang.Span

/-!
# Lines and positions

A source text is cut into lines at its newlines, and a byte offset is shown as the line it falls on
and its distance, in bytes, from the start of that line.  Offsets, line numbers and columns are
32-bit words: an offset counts modulo `2 ^ 32`, and lines and columns are numbered from one.
Columns never wrap; a place whose column is more than a word can hold has no position.
-/

namespace TriLang

/-- A line and a column, both counted from one. -/
structure Position where
  line : UInt32
  column : UInt32
  deriving DecidableEq

def Position.toString (p : Position) : String := s!"{p.line.toNat}:{p.column.toNat}"

/-- A line of a text without its newline, and the offset of its first byte. -/
structure Line where
  start : UInt32
  text : String
  deriving DecidableEq

/-- The lines spelled by `pieces`, one newline apart, the first of them at `offset`. -/
def Line.layOut (offset : Nat) : List (List Char) → List Line
  | [] => []
  | piece :: pieces =>
    ⟨offset.toUInt32, String.ofList piece⟩ :: layOut (offset + utf8Length piece + 1) pieces

/-- The lines of a source text in order. -/
structure Lines where
  toList : List Line

namespace Lines

/-- A text has one line more than it has newlines. -/
def ofSource (source : String) : Lines := ⟨Line.layOut 0 (source.toList.splitOn '\n')⟩

/-- The place of `offset`: the last line that starts at or before it, and how far in it lies, if
that is a column. -/
def position? (ls : Lines) (offset : Nat) : Option Position :=
  let reached := ls.toList.takeWhile (·.start ≤ offset.toUInt32)
  let start := (reached.getLast?.map Line.start).getD 0
  let distance := offset.toUInt32 - start
  if distance.toNat + 1 < UInt32.size then some ⟨reached.length.toUInt32, distance + 1⟩ else none

/-- The text of the line numbered `line`. -/
def text? (ls : Lines) (line : UInt32) : Option String :=
  if line = 0 then none else ls.toList[line.toNat - 1]?.map Line.text

def count (ls : Lines) : UInt32 := ls.toList.length.toUInt32

end Lines

end TriLang
