import TriLang.Proofs.Grammar
import TriLang.Proofs.Lossless
import TriLang.Run

/-!
# Stages of a run

All that the stages of a run report is an error, so a stage has failed just when it has reported
anything, and a run without errors has gone through all of its stages.
-/

namespace TriLang

/-! ## Logs -/

namespace Log

variable {log : Log} {s u : Stage} {ds : List Diagnostic}

@[simp] theorem addAll_nil (log : Log) (s : Stage) : log.addAll s [] = log := by simp [addAll]

@[simp] theorem ofStage_empty (s : Stage) : empty.ofStage s = [] := rfl

@[simp] theorem ofStage_addAll_self : (log.addAll s ds).ofStage s = log.ofStage s ++ ds := by
  simp [ofStage, addAll, List.filter_map, Function.comp_def]

theorem ofStage_addAll_of_ne (h : s ≠ u) : (log.addAll s ds).ofStage u = log.ofStage u := by
  simp [ofStage, addAll, List.filter_map, Function.comp_def, h]

end Log

/-! ## Errors as diagnostics -/

theorem LexicalError.isError_diagnostic (e : LexicalError) : e.diagnostic.isError := rfl

theorem SyntaxError.isError_diagnostic (e : SyntaxError) : e.diagnostic.isError := rfl

theorem NamingError.isError_diagnostic (e : NamingError) : e.diagnostic.isError := by
  obtain ⟨_ | _ | _, _⟩ := e
  case alreadyDeclared name previous => cases previous <;> rfl
  all_goals rfl

/-- Where everything reported is an error, there is an error if anything is reported. -/
theorem Diagnostic.any_isError_map {ε : Type} {f : ε → Diagnostic} (hf : ∀ e, (f e).isError)
    (es : List ε) : (es.map f).any isError = !es.isEmpty := by
  cases es <;> simp [hf]

/-! ## The log of a run -/

namespace Log

/-- All that the stages of a run report, in the order in which they run. -/
def ofErrors (xs : List LexicalError) (ys : List SyntaxError) (zs : List NamingError) : Log :=
  ((empty.addAll .tokenizer (xs.map LexicalError.diagnostic)).addAll .parser
    (ys.map SyntaxError.diagnostic)).addAll .identifier (zs.map NamingError.diagnostic)

variable (xs : List LexicalError) (ys : List SyntaxError) (zs : List NamingError)

theorem entries_ofErrors : (ofErrors xs ys zs).entries =
    xs.map (fun e => (.tokenizer, e.diagnostic)) ++ ys.map (fun e => (.parser, e.diagnostic)) ++
      zs.map fun e => (.identifier, e.diagnostic) := by
  simp [ofErrors, addAll, empty, Function.comp_def]

theorem ofStage_ofErrors (s : Stage) : (ofErrors xs ys zs).ofStage s =
    match s with
    | .tokenizer => xs.map LexicalError.diagnostic
    | .parser => ys.map SyntaxError.diagnostic
    | .identifier => zs.map NamingError.diagnostic
    | .checker | .exporter => [] := by
  cases s <;> simp [ofErrors, ofStage_addAll_of_ne]

theorem hasFailed_ofErrors (s : Stage) : (ofErrors xs ys zs).hasFailed s =
    match s with
    | .tokenizer => !xs.isEmpty
    | .parser => !ys.isEmpty
    | .identifier => !zs.isEmpty
    | .checker | .exporter => false := by
  rw [hasFailed, ofStage_ofErrors]
  cases s
  case tokenizer => exact Diagnostic.any_isError_map LexicalError.isError_diagnostic xs
  case parser => exact Diagnostic.any_isError_map SyntaxError.isError_diagnostic ys
  case identifier => exact Diagnostic.any_isError_map NamingError.isError_diagnostic zs
  case checker => rfl
  case exporter => rfl

theorem hasError_ofErrors :
    (ofErrors xs ys zs).hasError = !(xs.isEmpty && ys.isEmpty && zs.isEmpty) := by
  have hx := Diagnostic.any_isError_map LexicalError.isError_diagnostic xs
  have hy := Diagnostic.any_isError_map SyntaxError.isError_diagnostic ys
  have hz := Diagnostic.any_isError_map NamingError.isError_diagnostic zs
  rw [hasError, entries_ofErrors, List.any_append, List.any_append, Bool.not_and, Bool.not_and]
  simpa [Function.comp_def] using congrArg₂ or (congrArg₂ or hx hy) hz

end Log

/-! ## Scanned tokens -/

/-- Every lexeme takes a byte at least. -/
theorem Scan.Layout.length_le {source : String} {before : List Char} {xs : List Lexeme}
    (h : Layout source before xs) : utf8Length before + xs.length ≤ source.utf8ByteSize := by
  induction h with
  | @done before gap h _ =>
    rw [← utf8Length_toList, h, utf8Length_append]
    exact Nat.le_add_right _ _
  | @lexeme before gap piece rest x xs _ _ hp _ _ _ _ ih =>
    have := utf8Length_pos hp
    rw [utf8Length_append, utf8Length_append] at ih
    rw [List.length_cons]
    omega

namespace Tokens

variable {source : String}

theorem layout_lexemes (source : String) : Scan.Layout source [] (Scan.lexemes 0 source.toList) :=
  Scan.layout_lexemes 0 source.toList [] rfl rfl

theorem endsOnce_ofSource (source : String) : EndsOnce (ofSource source).toList := by
  refine ⟨_, _, rfl, rfl, fun t ht => ?_⟩
  obtain ⟨x, hx, rfl⟩ := List.mem_map.1 ht
  exact ((layout_lexemes source).proper x hx).token_kind_ne_endOfText

theorem length_toList_le (source : String) :
    (ofSource source).toList.length ≤ source.utf8ByteSize + 1 := by
  have := (layout_lexemes source).length_le
  simp only [ofSource, List.length_append, List.length_map, List.length_singleton]
  simp only [utf8Length_nil] at this
  omega

/-- An error is that of an invalid token. -/
theorem exists_token_of_mem_errors {e : LexicalError} (he : e ∈ (ofSource source).errors) :
    ∃ t ∈ (ofSource source).toList, t.kind = .error ∧ e.spelling = t.spelling ∧
      e.span = t.span := by
  have hm := List.mem_map_of_mem (f := fun e : LexicalError => (e.spelling, e.span)) he
  rw [ofSource, Scan.errors_eq (layout_lexemes source).proper] at hm
  obtain ⟨t, ht, heq⟩ := List.mem_map.1 hm
  obtain ⟨ht, hk⟩ := List.mem_filter.1 ht
  obtain ⟨hspelling, hspan⟩ := Prod.mk.inj heq
  exact ⟨t, List.mem_append_left _ ht, by simpa using hk, hspelling.symm, hspan.symm⟩

end Tokens

/-! ## Runs -/

namespace Run

variable {source : String} {o : Options}

/-- A run stops behind the first stage that fails if it is not to keep going, and else goes through
all stages. -/
theorem ofSource_cases (source : String) (o : Options) :
    let scanned := Tokens.ofSource source
    let parsed := Program.ofTokens scanned.toList
    let naming := Naming.ofProgram parsed.node
    (o.keepGoing = false ∧ scanned.errors ≠ [] ∧ ofSource source o =
      ⟨scanned.toList, none, none, .ofErrors scanned.errors [] [], .ofSource source⟩) ∨
    (o.keepGoing = false ∧ scanned.errors = [] ∧ parsed.errors ≠ [] ∧ ofSource source o =
      ⟨scanned.toList, some parsed.node, none, .ofErrors [] parsed.errors [],
        .ofSource source⟩) ∨
    ((o.keepGoing ∨ scanned.errors = [] ∧ parsed.errors = []) ∧ ofSource source o =
      ⟨scanned.toList, some parsed.node, some naming,
        .ofErrors scanned.errors parsed.errors naming.errors, .ofSource source⟩) := by
  intro scanned parsed naming
  have hs := Log.hasFailed_ofErrors scanned.errors [] [] .tokenizer
  have hp := Log.hasFailed_ofErrors scanned.errors parsed.errors [] .parser
  simp only [Log.ofErrors, List.map_nil, Log.addAll_nil] at hs hp ⊢
  unfold ofSource
  dsimp only
  rw [stopsAfter, stopsAfter, hs, hp]
  split
  case isTrue h =>
    obtain ⟨hk, he⟩ : o.keepGoing = false ∧ scanned.errors ≠ [] := by simpa using h
    exact .inl ⟨hk, he, rfl⟩
  case isFalse h =>
    have hks : o.keepGoing ∨ scanned.errors = [] := by simpa [or_iff_not_imp_left] using h
    split
    case isTrue h' =>
      obtain ⟨hk, he⟩ : o.keepGoing = false ∧ parsed.errors ≠ [] := by simpa using h'
      have hs : scanned.errors = [] := by simpa [hk] using hks
      refine .inr (.inl ⟨hk, hs, he, ?_⟩)
      rw [show (Tokens.ofSource source).errors = [] from hs]
      rfl
    case isFalse h' =>
      have hkp : o.keepGoing ∨ parsed.errors = [] := by simpa [or_iff_not_imp_left] using h'
      exact .inr (.inr ⟨by tauto, rfl⟩)

/-- What the stages report are errors of the text, of the tree and of the names in it. -/
theorem exists_ofErrors (source : String) (o : Options) :
    let parsed := Program.ofTokens (Tokens.ofSource source).toList
    ∃ xs ys zs, (ofSource source o).log = .ofErrors xs ys zs ∧
      xs.Sublist (Tokens.ofSource source).errors ∧ ys.Sublist parsed.errors ∧
      zs.Sublist (Naming.ofProgram parsed.node).errors := by
  intro parsed
  rcases ofSource_cases source o with ⟨-, -, hrun⟩ | ⟨-, -, -, hrun⟩ | ⟨-, hrun⟩
  · exact ⟨_, _, _, congrArg log hrun, .refl _, List.nil_sublist _, List.nil_sublist _⟩
  · exact ⟨_, _, _, congrArg log hrun, List.nil_sublist _, .refl _, List.nil_sublist _⟩
  · exact ⟨_, _, _, congrArg log hrun, .refl _, .refl _, .refl _⟩

theorem tokens_ofSource (source : String) (o : Options) :
    (ofSource source o).tokens = (Tokens.ofSource source).toList := by
  rcases ofSource_cases source o with ⟨-, -, h⟩ | ⟨-, -, -, h⟩ | ⟨-, h⟩ <;> rw [h]

theorem lines_ofSource (source : String) (o : Options) :
    (ofSource source o).lines = .ofSource source := by
  rcases ofSource_cases source o with ⟨-, -, h⟩ | ⟨-, -, -, h⟩ | ⟨-, h⟩ <;> rw [h]

/-- A run without errors comes to its end, and no stage of it reports anything. -/
theorem ofSource_of_isOk (h : (ofSource source o).isOk) :
    (Tokens.ofSource source).errors = [] ∧
      (Program.ofTokens (Tokens.ofSource source).toList).errors = [] ∧
      ∃ p n, p = (Program.ofTokens (Tokens.ofSource source).toList).node ∧
        n = Naming.ofProgram p ∧ n.errors = [] ∧
        (ofSource source o).program = some p ∧ (ofSource source o).naming = some n := by
  have hlog : (ofSource source o).log.hasError = false := by simpa [isOk] using h
  rcases ofSource_cases source o with ⟨-, hx, hrun⟩ | ⟨-, -, hy, hrun⟩ | ⟨-, hrun⟩
  · rw [hrun, Log.hasError_ofErrors] at hlog
    simp [hx] at hlog
  · rw [hrun, Log.hasError_ofErrors] at hlog
    simp [hy] at hlog
  · rw [hrun, Log.hasError_ofErrors, Bool.not_eq_false', Bool.and_eq_true, Bool.and_eq_true,
      List.isEmpty_iff, List.isEmpty_iff, List.isEmpty_iff] at hlog
    obtain ⟨⟨hx, hy⟩, hz⟩ := hlog
    rw [hrun]
    exact ⟨hx, hy, _, _, rfl, rfl, hz, rfl, rfl⟩

theorem hasFailed_tokenizer_eq :
    (ofSource source o).log.hasFailed .tokenizer = !(Tokens.ofSource source).errors.isEmpty := by
  rcases ofSource_cases source o with ⟨-, -, hrun⟩ | ⟨-, hx, -, hrun⟩ | ⟨-, hrun⟩
  · rw [hrun, Log.hasFailed_ofErrors]
  · rw [hrun, Log.hasFailed_ofErrors, hx]
  · rw [hrun, Log.hasFailed_ofErrors]

/-- A run that keeps going reads a program whatever is found wrong before. -/
theorem hasFailed_parser_eq (ho : o.keepGoing) : (ofSource source o).log.hasFailed .parser =
    !(Program.ofTokens (Tokens.ofSource source).toList).errors.isEmpty := by
  rcases ofSource_cases source o with ⟨hk, -⟩ | ⟨hk, -⟩ | ⟨-, hrun⟩
  · simp [ho] at hk
  · simp [ho] at hk
  · rw [hrun, Log.hasFailed_ofErrors]

end Run

end TriLang
