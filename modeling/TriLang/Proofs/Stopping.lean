import TriLang.Proofs.Stages

/-!
# Stopping after errors

A run that is to stop after errors does what a run that keeps going does, up to the end of the first
stage that fails, and nothing behind it.
-/

namespace TriLang

/-- The place of a stage in the order in which stages run. -/
def Stage.rank (s : Stage) : Nat := all.idxOf s

namespace Log

/-- The entries of the stages up to the first that fails, and all entries if none fails. -/
def upToFailure (log : Log) : List (Stage × Diagnostic) :=
  match log.failedStages.head? with
  | none => log.entries
  | some s => log.entries.filter fun e => e.1.rank ≤ s.rank

variable (xs : List LexicalError) (ys : List SyntaxError) (zs : List NamingError)

theorem failedStages_ofErrors : (ofErrors xs ys zs).failedStages =
    (if xs = [] then [] else [.tokenizer]) ++ (if ys = [] then [] else [.parser]) ++
      if zs = [] then [] else [.identifier] := by
  rw [failedStages, funext (hasFailed_ofErrors xs ys zs), Stage.all]
  cases xs <;> cases ys <;> cases zs <;> rfl

/-- The entries of one stage are all of a rank. -/
theorem filter_rank_map {ε : Type} (u s : Stage) (f : ε → Diagnostic) (es : List ε) :
    (es.map fun e => (u, f e)).filter (fun e => e.1.rank ≤ s.rank) =
      if u.rank ≤ s.rank then es.map fun e => (u, f e) else [] := by
  rw [List.filter_map]
  split <;> simp [Function.comp_def, *]

/-- Up to the failure there is what the failing stage reports, as those in front report nothing. -/
theorem upToFailure_ofErrors : (ofErrors xs ys zs).upToFailure =
    if xs ≠ [] then (ofErrors xs [] []).entries
    else if ys ≠ [] then (ofErrors [] ys []).entries
    else (ofErrors [] [] zs).entries := by
  have htp : ¬ Stage.parser.rank ≤ Stage.tokenizer.rank := by decide
  have hti : ¬ Stage.identifier.rank ≤ Stage.tokenizer.rank := by decide
  have hpi : ¬ Stage.identifier.rank ≤ Stage.parser.rank := by decide
  rw [upToFailure, failedStages_ofErrors]
  simp only [entries_ofErrors, List.map_nil, List.append_nil, List.nil_append, ne_eq]
  by_cases hx : xs = []
  · by_cases hy : ys = []
    · by_cases hz : zs = []
      · simp [hx, hy, hz]
      · simp [hx, hy, hz, filter_rank_map]
    · simp [hx, hy, filter_rank_map, hpi]
  · simp [hx, filter_rank_map, htp, hti]

/-- What is there up to the failure is where the whole log begins. -/
theorem upToFailure_prefix : (ofErrors xs ys zs).upToFailure <+: (ofErrors xs ys zs).entries := by
  rw [upToFailure_ofErrors]
  simp only [entries_ofErrors, List.map_nil, List.append_nil, List.nil_append, ne_eq]
  by_cases hx : xs = []
  · by_cases hy : ys = []
    · simp [hx, hy]
    · simp [hx, hy]
  · simp [hx]

/-- Only one stage reports anything up to the failure. -/
theorem exists_stage_upToFailure : ∃ s, ∀ e ∈ (ofErrors xs ys zs).upToFailure, e.1 = s := by
  rw [upToFailure_ofErrors]
  simp only [entries_ofErrors, List.map_nil, List.append_nil, List.nil_append]
  by_cases hx : xs = []
  · by_cases hy : ys = []
    · exact ⟨.identifier, by simp [hx, hy]⟩
    · exact ⟨.parser, by simp [hx, hy]⟩
  · exact ⟨.tokenizer, by simp [hx]⟩

/-- There is an error up to the failure if there is one at all. -/
theorem hasError_upToFailure :
    hasError ⟨(ofErrors xs ys zs).upToFailure⟩ = (ofErrors xs ys zs).hasError := by
  rw [upToFailure_ofErrors, hasError_ofErrors]
  have hx := hasError_ofErrors xs [] []
  have hy := hasError_ofErrors [] ys []
  have hz := hasError_ofErrors [] [] zs
  rw [hasError] at hx hy hz ⊢
  by_cases hxs : xs = []
  · by_cases hys : ys = []
    · simp [hxs, hys, hz]
    · simp [hxs, hys, hy]
  · have hne : xs.isEmpty = false := by simpa using hxs
    simp [hxs, hx, hne]

end Log

namespace Run

/-- `stop` is `full` up to the end of the first stage that fails. -/
structure Truncates (stop full : Run) : Prop where
  isOk : stop.isOk = full.isOk
  tokens : stop.tokens = full.tokens
  lines : stop.lines = full.lines
  entries : stop.log.entries = full.log.upToFailure
  isPrefix : stop.log.entries <+: full.log.entries
  ofOneStage : ∃ s, ∀ e ∈ stop.log.entries, e.1 = s
  /-- There is a program unless the tokens are wrong, and then it is that of the full run. -/
  program_isSome : stop.program.isSome = !full.log.hasFailed .tokenizer
  program_eq : stop.program.isSome → stop.program = full.program
  /-- Names are found unless the tokens or the program are wrong. -/
  naming_isSome :
    stop.naming.isSome = (!full.log.hasFailed .tokenizer && !full.log.hasFailed .parser)
  naming_eq : stop.naming.isSome → stop.naming = full.naming

/-- A run that has all of its log up to the failure, the program unless the first stage fails, and
the names unless one of the first two does, truncates the run that keeps going. -/
theorem truncates_of_log {stop : Run} {tokens : List Token} {p : Program} {n : Naming}
    {lines : Lines} (xs : List LexicalError) (ys : List SyntaxError) (zs : List NamingError)
    (h : stop = ⟨tokens, if xs = [] then some p else none,
      if xs = [] ∧ ys = [] then some n else none, ⟨(Log.ofErrors xs ys zs).upToFailure⟩, lines⟩) :
    stop.Truncates ⟨tokens, some p, some n, .ofErrors xs ys zs, lines⟩ := by
  subst h
  have hfailed := Log.hasFailed_ofErrors xs ys zs
  refine ⟨?_, rfl, rfl, rfl, Log.upToFailure_prefix xs ys zs,
    Log.exists_stage_upToFailure xs ys zs, ?_, ?_, ?_, ?_⟩
  · rw [isOk, isOk, Log.hasError_upToFailure]
  · cases xs <;> simp [hfailed]
  · cases xs <;> simp
  · cases xs <;> cases ys <;> simp [hfailed]
  · cases xs <;> cases ys <;> simp

/-- Stopping after errors truncates a run and changes nothing else. -/
theorem ofSource_truncates (source : String) (o : Options) :
    (ofSource source { o with keepGoing := false }).Truncates
      (ofSource source { o with keepGoing := true }) := by
  have hstop := ofSource_cases source { o with keepGoing := false }
  have hfull := ofSource_cases source { o with keepGoing := true }
  dsimp only at hstop hfull
  generalize Tokens.ofSource source = scanned at hstop hfull
  generalize Program.ofTokens scanned.toList = parsed at hstop hfull
  generalize Naming.ofProgram parsed.node = naming at hstop hfull
  -- Each ending of the run that stops goes with one way to cut the log at the failure.
  have hup := Log.upToFailure_ofErrors scanned.errors parsed.errors naming.errors
  obtain ⟨hk, -⟩ | ⟨hk, -⟩ | ⟨-, hfull⟩ := hfull
  · cases hk
  · cases hk
  rw [hfull]
  refine truncates_of_log _ _ _ ?_
  rw [hup]
  obtain ⟨-, hx, hstop⟩ | ⟨-, hx, hy, hstop⟩ | ⟨hk, hstop⟩ := hstop
  · simp [hstop, hx]
  · simp [hstop, hx, hy]
  · obtain ⟨hx, hy⟩ : scanned.errors = [] ∧ parsed.errors = [] := by simpa using hk
    simp [hstop, hx, hy]

end Run

end TriLang
