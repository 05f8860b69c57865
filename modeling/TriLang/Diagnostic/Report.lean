import TriLang.Diagnostic.Code
import TriLang.Diagnostic.Log

/-!
# Reports

A report is what a log says, for other programs to read: every diagnostic with its stage, the
category of its code, and the lines and columns of its place and labels.  It is written as JSON, in
which parts that a diagnostic lacks are left out.  There is a report if all labels have positions.
-/

namespace TriLang

/-- The place of a diagnostic, with the text of its line. -/
structure Location where
  position : Position
  offset : Nat
  sourceLine : String
  deriving DecidableEq

structure ReportedLabel where
  label : Label
  start : Position
  stop : Position
  deriving DecidableEq

structure ReportedDiagnostic where
  stage : Stage
  diagnostic : Diagnostic
  category : Option Category
  location : Option Location
  labels : List ReportedLabel
  deriving DecidableEq

structure Report where
  file : String
  success : Bool
  failedStages : List Stage
  diagnostics : List ReportedDiagnostic
  errorCount : Nat
  warningCount : Nat
  deriving DecidableEq

/-! ## What is reported -/

def Location.of? (ls : Lines) (span : Span) : Option Location := do
  let p ← ls.position? span.start
  return ⟨p, span.start, (ls.text? p.line).getD ""⟩

def ReportedLabel.of? (ls : Lines) (l : Label) : Option ReportedLabel := do
  let start ← ls.position? l.span.start
  let stop ← ls.position? l.span.stop
  return ⟨l, start, stop⟩

def ReportedDiagnostic.of? (ls : Lines) (stage : Stage) (d : Diagnostic) :
    Option ReportedDiagnostic := do
  let location ← d.place?.mapM (Location.of? ls)
  let labels ← d.labels.mapM (ReportedLabel.of? ls)
  return {
    stage
    diagnostic := d
    category := (d.code.bind ErrorCode.find?).map ErrorCode.category
    location
    labels }

/-- The report on a run over the file named `file`. -/
def Report.of? (ls : Lines) (file : String) (log : Log) : Option Report := do
  let diagnostics ← log.entries.mapM fun (stage, d) => ReportedDiagnostic.of? ls stage d
  return {
    file
    success := log.count .error == 0
    failedStages := log.failedStages
    diagnostics
    errorCount := log.count .error
    warningCount := log.count .warning }

/-! ## As JSON -/

/-- A member that may be absent. -/
def optionalMember (key : String) (value : Option Json) : List (String × Json) :=
  (value.map (key, ·)).toList

def Position.json (p : Position) : Json :=
  .obj [("line", .nat p.line.toNat), ("column", .nat p.column.toNat)]

def Location.json (l : Location) : Json :=
  .obj [("line", .nat l.position.line.toNat),
    ("column", .nat l.position.column.toNat),
    ("byte_offset", .nat l.offset),
    ("source_line", .str l.sourceLine)]

def ReportedLabel.json (l : ReportedLabel) : Json :=
  .obj (("role", .str l.label.role.name)
    :: optionalMember "message" (l.label.message.map .str)
    ++ [("span", l.label.span.json), ("start", l.start.json), ("end", l.stop.json)])

def ReportedDiagnostic.json (r : ReportedDiagnostic) : Json :=
  let d := r.diagnostic
  .obj ([("stage", .str r.stage.name), ("severity", .str d.severity.name)]
    ++ optionalMember "code" (d.code.map .str)
    ++ optionalMember "category" (r.category.map (.str ·.name))
    ++ [("message", .str d.message)]
    ++ optionalMember "location" (r.location.map Location.json)
    ++ [("labels", .arr (r.labels.map ReportedLabel.json))]
    ++ (if d.notes.isEmpty then [] else [("notes", .arr (d.notes.map .str))])
    ++ optionalMember "help" (d.help.map .str))

/-- The first member is the version of this layout. -/
def Report.json (r : Report) : Json :=
  .obj [("version", .nat 1),
    ("file", .str r.file),
    ("success", .bool r.success),
    ("failed_stages", .arr (r.failedStages.map (.str ·.name))),
    ("diagnostics", .arr (r.diagnostics.map ReportedDiagnostic.json)),
    ("error_count", .nat r.errorCount),
    ("warning_count", .nat r.warningCount)]

def Report.text (r : Report) : String := r.json.pretty 0

end TriLang
