import TriLang.Diagnostic
import TriLang.Lines

/-!
# Logs

A log keeps the diagnostics of a run in the order in which they were found, each with the stage
that found it.  Nothing is ever taken back, so a stage that has failed stays failed.
-/

namespace TriLang

structure Log where
  entries : List (Stage × Diagnostic)

namespace Log

def empty : Log := ⟨[]⟩

def add (log : Log) (stage : Stage) (d : Diagnostic) : Log := ⟨log.entries ++ [(stage, d)]⟩

/-- Adds the diagnostics of one stage in order. -/
def addAll (log : Log) (stage : Stage) (ds : List Diagnostic) : Log :=
  ⟨log.entries ++ ds.map (stage, ·)⟩

/-- The diagnostics of one stage. -/
def ofStage (log : Log) (stage : Stage) : List Diagnostic :=
  (log.entries.filter (·.1 == stage)).map (·.2)

def hasFailed (log : Log) (stage : Stage) : Bool := (log.ofStage stage).any Diagnostic.isError

def hasError (log : Log) : Bool := log.entries.any (·.2.isError)

/-- The number of diagnostics of a severity. -/
def count (log : Log) (severity : Severity) : Nat :=
  log.entries.countP (·.2.severity == severity)

/-- The stages with errors in the order in which stages run. -/
def failedStages (log : Log) : List Stage := Stage.all.filter log.hasFailed

/-! ## Summary -/

/-- The errors of one stage in the order in which they were found. -/
def errorsOf (log : Log) (stage : Stage) : List Diagnostic :=
  (log.ofStage stage).filter Diagnostic.isError

/-- The line of a summary for one error, if its place has a position. -/
def errorLine? (ls : Lines) (d : Diagnostic) : Option String :=
  match d.place? with
  | some span => do
    let p ← ls.position? span.start
    return s!"Error: {d.message} at {p.toString}\n"
  | none => some s!"Error: {d.message}\n"

/-- The errors of one stage under a heading. -/
def stageSummary? (log : Log) (ls : Lines) (stage : Stage) : Option (List String) := do
  let lines ← (log.errorsOf stage).mapM (errorLine? ls)
  return s!"Errors found in the {stage.name} stage:\n" :: lines

/-- All errors, stage by stage. -/
def summary? (log : Log) (ls : Lines) : Option String :=
  if log.hasError then do
    let groups ← log.failedStages.mapM (log.stageSummary? ls)
    return String.join groups.flatten
  else some "No errors were found.\n"

end Log

end TriLang
