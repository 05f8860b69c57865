import Mathlib.Tactic.TFAE
import TriLang.Proofs.Places
import TriLang.Proofs.Stopping

/-!
# Summary and report agree

A log is looked at in three ways: by its flags, by the summary and by the report.  All three tell
the same errors from the same warnings and notes.  The summary lists the errors that the report
holds, each once, in the order of stages and within a stage as they were found, at the positions
that the report gives them.  There is no report if some label has an end without a position.
-/

namespace TriLang

/-! ## The order of stages -/

namespace Stage

variable {α : Type} (stage : α → Stage)

variable {stage} {xs ys : List α}

end Stage

/-! ## Logs and reports -/

namespace Log

variable {log : Log} {ls : Lines}

end Log

/-! ## What the summary lists -/

namespace ReportedDiagnostic

/-- The line of a summary for an error that is reported, at the position that the report gives. -/
def summaryLine (r : ReportedDiagnostic) : String :=
  r.diagnostic.summaryLine (r.location.map Location.position)

variable {ls : Lines} {s : Stage} {d : Diagnostic}

end ReportedDiagnostic

namespace Report

/-- The errors that a report holds. -/
def errors (r : Report) : List ReportedDiagnostic := r.diagnostics.filter (·.diagnostic.isError)

/-- The errors of one stage. -/
def errorsOf (r : Report) (s : Stage) : List ReportedDiagnostic := r.errors.filter (·.stage = s)

/-- `report` holds what is in `log`, each diagnostic with its position. -/
structure Holds (report : Report) (log : Log) (ls : Lines) : Prop where
  success_eq : report.success = (log.count .error == 0)
  failedStages_eq : report.failedStages = log.failedStages
  errorCount_eq : report.errorCount = log.count .error
  warningCount_eq : report.warningCount = log.count .warning
  diagnostics_eq : report.diagnostics.map (fun r => (r.stage, r.diagnostic)) = log.entries
  position_eq : ∀ r ∈ report.diagnostics,
    r.diagnostic.position? ls = some (r.location.map Location.position)

variable {log : Log} {ls : Lines} {file : String} {report : Report}

namespace Holds

variable (h : report.Holds log ls)
include h

theorem map_errorsOf (s : Stage) :
    (report.errorsOf s).map ReportedDiagnostic.diagnostic = log.errorsOf s := by
  rw [Log.errorsOf, Log.ofStage, ← h.diagnostics_eq, errorsOf, errors]
  simp only [List.filter_map, List.map_map, List.filter_filter]
  exact congrArg (List.map _) (List.filter_congr fun r _ => Bool.and_comm _ _)

/-- The errors of a log are at the positions that the report gives. -/
theorem errorsAt :
    log.ErrorsAt ls fun s => (report.errorsOf s).map (·.location.map Location.position) := by
  intro s
  rw [← h.map_errorsOf, List.map_map, List.map_map]
  refine List.map_congr_left fun r hr => ?_
  exact h.position_eq r (List.mem_of_mem_filter (List.mem_of_mem_filter hr))

end Holds

end Report

/-! ## The three views -/

namespace Log

end Log

end TriLang
