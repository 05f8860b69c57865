import TriLang.Diagnostic.Log
import TriLang.Proofs.Positions

/-!
# Places and summaries

The place of a diagnostic is that of one of its labels.  A summary has a heading for each stage that
has failed, and below it a line for each error of the stage, which tells the position of the error's
place.  There is a summary if all errors have positions.
-/

namespace TriLang

variable {ls : Lines} {d : Diagnostic}

/-! ## Places and positions -/

namespace Diagnostic

theorem place?_eq_none_iff : d.place? = none ↔ d.labels = [] := by
  rw [place?, Option.map_eq_none_iff, Option.or_eq_none_iff, List.head?_eq_none_iff]
  refine ⟨And.right, fun h => ?_⟩
  simp [h]

theorem place?_mem {span : Span} (h : d.place? = some span) : span ∈ d.labels.map Label.span := by
  rw [place?, Option.map_eq_some_iff] at h
  obtain ⟨l, hl, rfl⟩ := h
  rcases Option.or_eq_some_iff.1 hl with hl | ⟨-, hl⟩
  · exact List.mem_map_of_mem (List.mem_of_find?_eq_some hl)
  · exact List.mem_map_of_mem (List.mem_of_head? hl)

/-- The position of a diagnostic, if its place has one; a diagnostic without labels needs none. -/
def position? (ls : Lines) (d : Diagnostic) : Option (Option Position) :=
  d.place?.mapM fun span => ls.position? span.start

theorem position?_of_place? {span : Span} (h : d.place? = some span) :
    d.position? ls = (ls.position? span.start).map some := by
  rw [position?, h]
  cases hp : ls.position? span.start <;> simp [hp]

end Diagnostic

/-! ## Stages that have failed -/

namespace Log

variable {log : Log} {s : Stage}

theorem hasError_iff : log.hasError ↔ ∃ e ∈ log.entries, e.2.isError := List.any_eq_true

theorem hasFailed_iff : log.hasFailed s ↔ ∃ e ∈ log.entries, e.1 = s ∧ e.2.isError := by
  simp [hasFailed, ofStage]

/-- There is an error just if some stage has failed. -/
theorem hasError_iff_exists_hasFailed : log.hasError ↔ ∃ s, log.hasFailed s := by
  rw [hasError_iff]
  constructor
  · rintro ⟨e, he, herr⟩
    exact ⟨e.1, hasFailed_iff.2 ⟨e, he, rfl, herr⟩⟩
  · rintro ⟨s, hs⟩
    obtain ⟨e, he, -, herr⟩ := hasFailed_iff.1 hs
    exact ⟨e, he, herr⟩

theorem mem_failedStages_iff : s ∈ log.failedStages ↔ log.hasFailed s := by
  rw [failedStages, List.mem_filter, and_iff_right s.mem_all]

theorem hasFailed_of_mem_errorsOf {d : Diagnostic} (h : d ∈ log.errorsOf s) : log.hasFailed s :=
  List.any_eq_true.2 ⟨d, List.mem_filter.1 h⟩

end Log

/-! ## The lines of a summary -/

/-- The line above the errors of a stage. -/
def Stage.heading (s : Stage) : String := s!"Errors found in the {s.name} stage:"

/-- The line for an error at a position, or for one that has no place. -/
def Diagnostic.summaryLine (d : Diagnostic) : Option Position → String
  | some p => s!"Error: {d.message} at {p.line.toNat}:{p.column.toNat}"
  | none => s!"Error: {d.message}"

/-- The text of lines, each with a newline. -/
def writeLines (lines : List String) : String := String.join (lines.map (· ++ "\n"))

namespace Log

variable {log : Log} {s : Stage} {positions : Stage → List (Option Position)}

/-- The errors of each stage are at the positions that it is given. -/
def ErrorsAt (log : Log) (ls : Lines) (positions : Stage → List (Option Position)) : Prop :=
  ∀ s, (log.errorsOf s).map (Diagnostic.position? ls) = (positions s).map some

/-- A heading for each stage that has failed, and below it a line for each of its errors. -/
def summaryLines (log : Log) (positions : Stage → List (Option Position)) : List String :=
  log.failedStages.flatMap fun s =>
    s.heading :: List.zipWith Diagnostic.summaryLine (log.errorsOf s) (positions s)

theorem errorLine?_eq (ls : Lines) (d : Diagnostic) :
    errorLine? ls d = (d.position? ls).map fun p => d.summaryLine p ++ "\n" := by
  rw [errorLine?]
  cases hplace : d.place? with
  | none => rw [Diagnostic.position?, hplace]; rfl
  | some span =>
    rw [Diagnostic.position?_of_place? hplace]
    dsimp only
    cases ls.position? span.start with
    | none => rfl
    | some p => simp [Diagnostic.summaryLine, Position.toString, toString, String.append_assoc]

theorem stageSummary?_eq_some {ps : List (Option Position)}
    (h : (log.errorsOf s).map (Diagnostic.position? ls) = ps.map some) : log.stageSummary? ls s =
      some ((s.heading :: List.zipWith Diagnostic.summaryLine (log.errorsOf s) ps).map
        (· ++ "\n")) := by
  have hlines := mapM_map_eq_some h fun d p => d.summaryLine p ++ "\n"
  have hheading : s!"Errors found in the {s.name} stage:\n" = s.heading ++ "\n" := by
    cases s <;> decide +kernel
  rw [stageSummary?, funext (errorLine?_eq ls), hlines, hheading, List.map_cons, List.map_zipWith]
  rfl

/-- A summary joins the groups of the stages that have failed. -/
theorem summary?_eq_some (h : log.hasError) (hp : log.ErrorsAt ls positions) :
    log.summary? ls = some (writeLines (log.summaryLines positions)) := by
  have hgroups := mapM_eq_some_map fun s (_ : s ∈ log.failedStages) =>
    stageSummary?_eq_some (hp s)
  rw [summary?, if_pos h, hgroups, writeLines, summaryLines, List.map_flatMap, List.flatMap_def]
  rfl

theorem stageSummary?_eq_none_iff :
    log.stageSummary? ls s = none ↔ ∃ d ∈ log.errorsOf s, d.position? ls = none := by
  have hlines : log.stageSummary? ls s = none ↔
      (log.errorsOf s).mapM (errorLine? ls) = none := by
    rw [stageSummary?]
    cases (log.errorsOf s).mapM (errorLine? ls) <;> simp
  simp only [hlines, mapM_eq_none_iff, errorLine?_eq, Option.map_eq_none_iff]

/-- There is a summary unless an error has no position. -/
theorem summary?_eq_none_iff :
    log.summary? ls = none ↔ ∃ s, ∃ d ∈ log.errorsOf s, d.position? ls = none := by
  by_cases herror : log.hasError
  · have hgroups : log.summary? ls = none ↔
        log.failedStages.mapM (log.stageSummary? ls) = none := by
      rw [summary?, if_pos herror]
      cases log.failedStages.mapM (log.stageSummary? ls) <;> simp
    simp only [hgroups, mapM_eq_none_iff, stageSummary?_eq_none_iff, mem_failedStages_iff]
    refine exists_congr fun s => and_iff_right_of_imp ?_
    rintro ⟨d, hd, -⟩
    exact hasFailed_of_mem_errorsOf hd
  · rw [summary?, if_neg herror]
    refine iff_of_false nofun ?_
    rintro ⟨s, d, hd, -⟩
    exact herror (hasError_iff_exists_hasFailed.2 ⟨s, hasFailed_of_mem_errorsOf hd⟩)

/-- The errors that a summary shows all have positions. -/
theorem exists_errorsAt {text : String} (h : log.summary? ls = some text) :
    ∃ positions, log.ErrorsAt ls positions := by
  have hfound : ∀ s, ∃ ps, (log.errorsOf s).mapM (Diagnostic.position? ls) = some ps := by
    intro s
    refine Option.ne_none_iff_exists'.1 fun hnone => ?_
    have hsummary := summary?_eq_none_iff.2 ⟨s, mapM_eq_none_iff.1 hnone⟩
    rw [h] at hsummary
    cases hsummary
  choose positions hpositions using hfound
  exact ⟨positions, fun s => mapM_eq_some_iff.1 (hpositions s)⟩

end Log

end TriLang
