import TriLang.Diagnostic.Log
import TriLang.Diagnostic.Styled

/-!
# Excerpts

A diagnostic is shown on a terminal with the source lines that its labels start on, the labelled
text of each underlined on a row below: `^` under primary labels, `-` under secondary ones, which
lie on top.  The first message of a line stands at the end of its underline, the others hang below.

```text
error[E0201]: 'n' is already declared in this scope
  --> twice.tri:1:21
    |
  1 | let integer n; char n in n := 1
    |     ---------       ^ declared again here
    |     |
    |     first declared here
```

Columns count bytes.
-/

namespace TriLang

def LabelRole.symbol : LabelRole → Char
  | primary => '^'
  | secondary => '-'

/-- The style of a label's message. -/
def LabelRole.style : LabelRole → Style
  | primary => .boldRed
  | secondary => .blue

/-! ## Marks -/

/-- A label on the line that it starts on. -/
structure Mark where
  line : Nat
  /-- The column it starts at. -/
  column : Nat
  /-- The column it ends before. -/
  stop : Nat
  role : LabelRole
  message : Option String

namespace Mark

/-- The mark of a label from `start` to `stop`.  It covers a column at least; that of a label which
ends on another line, all that is left of its own. -/
def between (ls : Lines) (l : Label) (start stop : Position) : Mark :=
  let width := ((ls.text? start.line).getD "").utf8ByteSize
  let stopColumn := if stop.line = start.line then stop.column.toNat else width + 1
  ⟨start.line.toNat, start.column.toNat, max stopColumn (start.column.toNat + 1), l.role,
    l.message⟩

/-- The mark of a label, if both its ends have positions. -/
def ofLabel? (ls : Lines) (l : Label) : Option Mark := do
  let start ← ls.position? l.span.start
  let stop ← ls.position? l.span.stop
  return between ls l start stop

/-- Primary marks come before secondary ones, and marks of one role in the order of columns. -/
def le (a b : Mark) : Bool :=
  if a.role = b.role then a.column ≤ b.column else a.role = .primary

/-- Writes a mark over the cells of a row. -/
def draw (cells : List Char) (m : Mark) : List Char :=
  cells.mapIdx fun i cell => if m.column - 1 ≤ i ∧ i < m.stop - 1 then m.role.symbol else cell

end Mark

/-- The row of cells below a line of `width` bytes, without the blanks at its end. -/
def underline (width : Nat) (marks : List Mark) : List Char :=
  let cells := marks.foldl Mark.draw (List.replicate (width + 2) ' ')
  (cells.reverse.dropWhile (· == ' ')).reverse

/-! ## Rows -/

def blanks (n : Nat) : String := String.ofList (List.replicate n ' ')

/-- A text after so many blanks that it is `width` characters long, if it is not longer. -/
def padLeft (width : Nat) (text : String) : String := blanks (width - text.length) ++ text

namespace Excerpt

/-- The beginning of a row with nothing in the margin. -/
def margin (gutter : Nat) : Row := [.plain (blanks (gutter + 1) ++ " "), .styled .blue "|"]

/-- The pieces of an underline: each run of one character in its style. -/
def underlineRow (cells : List Char) : Row :=
  (cells.splitBy (· == ·)).map fun run =>
    match run.head? with
    | some '^' => ⟨some .boldRed, run⟩
    | some '-' => ⟨some .blue, run⟩
    | _ => ⟨none, run⟩

/-- A message that hangs below its mark. -/
def hanging (gutter : Nat) (m : Mark × String) : List Row :=
  let pad := Piece.plain (" " ++ blanks (m.1.column - 1))
  [margin gutter ++ [pad, .styled m.1.role.style "|"],
    margin gutter ++ [pad, .styled m.1.role.style m.2]]

/-- The rows below a line of `width` bytes. -/
def markRows (gutter width : Nat) (marks : List Mark) : List Row :=
  let sorted := marks.mergeSort Mark.le
  let cells := underline width sorted
  if cells.isEmpty then []
  else
    let drawn := margin gutter ++ [.plain " "] ++ underlineRow cells
    match sorted.filterMap fun m => m.message.map fun text => (m, text) with
    | [] => [drawn]
    | first :: others =>
      (drawn ++ [.plain " ", .styled first.1.role.style first.2])
        :: others.flatMap (hanging gutter)

/-- A source line and what is marked on it. -/
def lineRows (ls : Lines) (gutter : Nat) (marks : List Mark) (line : Nat) : List Row :=
  let text := (ls.text? line.toUInt32).getD ""
  [.styled .boldBlue (padLeft (gutter + 1) (toString line)), .plain " ", .styled .blue "|",
      .plain (" " ++ text)]
    :: markRows gutter text.utf8ByteSize (marks.filter (·.line == line))

/-- Lines in order, with a row of dots where lines are left out after `previous`. -/
def linesRows (ls : Lines) (gutter : Nat) (marks : List Mark) (previous : Option Nat) :
    List Nat → List Row
  | [] => []
  | line :: lines =>
    let gap := previous.any (· + 1 < line)
    (if gap then [[.plain (blanks gutter ++ " "), .styled .blue "..."]] else [])
      ++ lineRows ls gutter marks line ++ linesRows ls gutter marks (some line) lines

/-- The numbers of the marked lines in order, each once. -/
def lineNumbers (marks : List Mark) : List Nat := (marks.map Mark.line).mergeSort.eraseReps

/-- The position of a diagnostic and all marked lines. -/
def rows (ls : Lines) (file : String) (primary : Position) (marks : List Mark) : List Row :=
  let lines := lineNumbers marks
  let gutter := max 2 (toString (lines.getLast?.getD 1)).length
  [.plain "  ", .styled .blue "-->", .plain s!" {file}:{primary.toString}"]
    :: margin gutter :: linesRows ls gutter marks none lines

end Excerpt

namespace Diagnostic

def headerRow (d : Diagnostic) : Row :=
  let style := match d.severity with
    | .error => Style.boldRed
    | .warning => .boldYellow
    | .note => .boldBlue
  let code : Row := match d.code with
    | some code => [.plain "[", .styled .boldRed code, .plain "]"]
    | none => []
  .styled style d.severity.name :: (code ++ [.plain ": ", .styled .bold d.message])

/-- A remark after the excerpt. -/
def remarkRow (word text : String) : Row :=
  [.plain "    ", .styled .cyan "=", .plain " ", .styled .boldCyan word, .plain s!": {text}"]

def footerRows (d : Diagnostic) : List Row :=
  d.notes.map (remarkRow "note") ++ (d.help.map (remarkRow "help")).toList

/-- The rows of a diagnostic's lines, if all its labels have positions. -/
def excerpt? (ls : Lines) (file : String) (d : Diagnostic) : Option (List Row) := do
  let marks ← d.labels.mapM (Mark.ofLabel? ls)
  match d.place? with
  | some span =>
    let primary ← ls.position? span.start
    return Excerpt.rows ls file primary marks
  | none => return []

/-- All rows of a diagnostic on the file named `file`. -/
def rows? (ls : Lines) (file : String) (d : Diagnostic) : Option (List Row) := do
  let excerpt ← d.excerpt? ls file
  return d.headerRow :: (excerpt ++ d.footerRows)

def render? (ls : Lines) (file : String) (color : Bool) (d : Diagnostic) : Option String :=
  (d.rows? ls file).map fun rows => String.ofList (rows.flatMap (Row.write color))

end Diagnostic

/-- All diagnostics of a log, an empty line between them. -/
def Log.render? (log : Log) (ls : Lines) (file : String) (color : Bool) : Option String :=
  let texts := log.entries.mapM fun (_, d) => d.render? ls file color
  texts.map (String.intercalate "\n")

end TriLang
