import TriLang.Proofs.Acceptance
import TriLang.Proofs.Barrier
import TriLang.Proofs.Outcome
import TriLang.Proofs.Stages
import TriLang.Proofs.Traversal

/-!
# Error nodes

An `error` node comes into a tree together with a syntax error, so a tree has no more of them than
there are syntax errors.  Naming reports an `error` node as malformed when it gets there.  So
nothing is reported as malformed in a program that is read without errors.
-/

namespace TriLang

/-! ## Error nodes and faults -/

namespace Phrase

/-- The `error` nodes of what stands for a phrase. -/
def errorNodes : (p : Phrase) → p.Tree → List ErrorNode
  | command, t | singleCommand, t => Command.errorNodes t
  | moreCommands, ts => Command.errorNodesOfList ts
  | declaration, t | singleDeclaration, t => Decl.errorNodes t
  | moreDeclarations, ts => Decl.errorNodesOfList ts
  | expression, t | primary, t => Expr.errorNodes t
  | parameter, t => Param.errorNodes t

/-- Each rule that gives an `error` node meets a fault of its own.  What it leaves out of the tree
may hold others, whose faults stay. -/
theorem Outcome.length_errorNodes_le {p : Phrase} {c d : Cursor} {t : p.Tree} {fs : List Fault}
    (h : p.Outcome c t d fs) : (p.errorNodes t).length ≤ fs.length := by
  induction h <;> simp only [errorNodes, Command.errorNodes, Decl.errorNodes, Expr.errorNodes,
    Param.errorNodes, Command.errorNodesOfList, Decl.errorNodesOfList, List.length_append,
    List.length_cons, List.length_nil] at * <;> omega

end Phrase

theorem Cursor.length_program_errorNodes_le (c : Cursor) :
    c.program.node.command.errorNodes.length ≤ c.program.errors.length := by
  have hcommand : c.singleCommand.node.errorNodes.length ≤ c.singleCommand.faults.length :=
    (singleCommand_outcome c).length_errorNodes_le
  rw [Read.errors, List.length_map, program_faults, List.length_append]
  exact Nat.le_add_right_of_le hcommand

/-! ## Error nodes and naming -/

/-- The `error` node that an error is about. -/
def NamingError.errorNode? (e : NamingError) : Option ErrorNode :=
  match e.fault with
  | .malformed family => some ⟨family, e.span⟩
  | .alreadyDeclared .. | .undeclared _ => none

namespace NamingState

/-- From `s` to `t` some of the `error` nodes `xs` are reported, in their order. -/
def Refuses (s t : NamingState) (xs : List ErrorNode) : Prop :=
  ∃ new, t.found.errors = s.found.errors ++ new ∧ (new.filterMap NamingError.errorNode?).Sublist xs

namespace Refuses

variable {s t u : NamingState} {xs ys : List ErrorNode}

theorem nothing (h : t.found.errors = s.found.errors) (xs : List ErrorNode) : s.Refuses t xs :=
  ⟨[], by rw [h, List.append_nil], List.nil_sublist xs⟩

theorem append (h : s.Refuses t xs) (h' : t.Refuses u ys) : s.Refuses u (xs ++ ys) := by
  obtain ⟨es, he, hx⟩ := h
  obtain ⟨fs, hf, hy⟩ := h'
  refine ⟨es ++ fs, by rw [hf, he, List.append_assoc], ?_⟩
  rw [List.filterMap_append]
  exact hx.append hy

theorem lookUp (o : Occurrence) (s : NamingState) : s.Refuses (s.lookUp o) [] := by
  unfold NamingState.lookUp
  split
  case h_1 => exact nothing rfl _
  case h_2 => exact ⟨[_], rfl, .slnil⟩

/-- The `error` nodes in the right-hand side of a rejected declaration are passed over. -/
theorem declare {rightSide : NamingState → NamingState} (id : NodeId) (span : Span)
    (name : Occurrence) (type : Option String) (s : NamingState)
    (hr : ∀ s : NamingState, s.Refuses (rightSide s) xs) :
    s.Refuses (s.declare id span name type rightSide) xs := by
  unfold NamingState.declare
  split
  case h_1 => exact ⟨[_], rfl, List.nil_sublist xs⟩
  case h_2 => exact hr _

end Refuses

theorem threads_refuses : Threads Refuses Refuses where
  refl _ := .nothing rfl _
  append := .append
  lookUp := .lookUp
  malformed family span _ := ⟨[⟨.malformed family, span⟩], rfl, .refl _⟩
  letIn h h' := h.append h'
  appendDecl := .append
  decl h := h
  declare := .declare

end NamingState

/-- What naming reports as malformed are `error` nodes of the program, each once at most and in
their order. -/
theorem Naming.filterMap_errorNode?_sublist (p : Program) :
    ((ofProgram p).errors.filterMap NamingError.errorNode?).Sublist p.command.errorNodes := by
  obtain ⟨new, he, hs⟩ := p.command.findNames_threads NamingState.threads_refuses .initial
  have hnew : (ofProgram p).errors = new := he
  rwa [hnew]

/-! ## Runs -/

theorem NamingError.exists_errorNode?_of_code {e : NamingError}
    (h : e.diagnostic.code = some "E0202") : ∃ x, e.errorNode? = some x := by
  obtain ⟨⟨name, previous⟩ | name | family, span⟩ := e
  case alreadyDeclared => cases previous <;> simp [diagnostic, Diagnostic.errorAt] at h
  case undeclared => simp [diagnostic, Diagnostic.errorAt] at h
  case malformed => exact ⟨_, rfl⟩

/-- Where an `error` node is reported as malformed, the program has not been read without errors. -/
theorem Run.hasFailed_parser_of_malformed {source : String} {o : Options} {d : Diagnostic}
    (hd : d ∈ (ofSource source o).log.ofStage .identifier) (hcode : d.code = some "E0202") :
    (ofSource source o).log.hasFailed .parser := by
  rcases ofSource_cases source o with ⟨-, -, hrun⟩ | ⟨-, -, -, hrun⟩ | ⟨-, hrun⟩
  · simp [hrun, Log.ofStage_ofErrors] at hd
  · simp [hrun, Log.ofStage_ofErrors] at hd
  · rw [hrun, Log.ofStage_ofErrors] at hd
    rw [hrun, Log.hasFailed_ofErrors]
    obtain ⟨e, he, rfl⟩ := List.mem_map.1 hd
    obtain ⟨x, hx⟩ := NamingError.exists_errorNode?_of_code hcode
    have hmem : x ∈ (Program.ofTokens (Tokens.ofSource source).toList).node.command.errorNodes :=
      (Naming.filterMap_errorNode?_sublist _).subset (List.mem_filterMap.2 ⟨e, he, hx⟩)
    have hpos := List.length_pos_of_mem hmem
    have hle := (Cursor.ofTokens (Tokens.ofSource source).toList).length_program_errorNodes_le
    have herrors : (Program.ofTokens (Tokens.ofSource source).toList).errors ≠ [] :=
      List.length_pos_iff.1 (Nat.lt_of_lt_of_le hpos hle)
    simpa using herrors

/-- A program has no more `error` nodes than there are syntax errors, whichever of those read one
behind the other it is.  Naming reports some of them as malformed, and a run does so only if reading
the program has failed. -/
theorem Program.errorNodes_reported :
    (∀ ts n, let r := ((Cursor.ofTokens ts).afterPrograms n).program
      r.node.command.errorNodes.length ≤ r.errors.length ∧
        (r.errors = [] → r.node.command.errorNodes = [])) ∧
      (∀ p : Program, ((Naming.ofProgram p).errors.filterMap NamingError.errorNode?).Sublist
        p.command.errorNodes) ∧
      ∀ source o, ∀ d ∈ (Run.ofSource source o).log.ofStage .identifier,
        d.code = some "E0202" → (Run.ofSource source o).log.hasFailed .parser := by
  refine ⟨fun ts n => ?_, Naming.filterMap_errorNode?_sublist,
    fun _ _ _ => Run.hasFailed_parser_of_malformed⟩
  have hle := ((Cursor.ofTokens ts).afterPrograms n).length_program_errorNodes_le
  refine ⟨hle, fun h => ?_⟩
  rw [h, List.length_nil] at hle
  exact List.eq_nil_of_length_eq_zero (Nat.le_zero.1 hle)

/-- Of two expressions that are missing, one is in a rejected declaration and is passed over. -/
theorem Program.errorNodes_reported_rejected :
    let source := "let const n ~ 1; const n ~ in x :="
    let r := ofTokens (Tokens.ofSource source).toList
    r.errors.length = 2 ∧ r.node.command.errorNodes.map ErrorNode.span = [⟨27, 29⟩, ⟨34, 34⟩] ∧
      ((Naming.ofProgram r.node).errors.filterMap NamingError.errorNode?).map ErrorNode.span =
        [⟨34, 34⟩] ∧
      (Run.ofSource source {}).log.hasFailed .parser ∧
      (ofTokens (Tokens.ofSource "nothing").toList).node.command.errorNodes = [] := by
  intro source r
  obtain ⟨hread, -, hrun⟩ := errorNodes_reported
  have hmalformed : ∃ d ∈ (Run.ofSource source {}).log.ofStage .identifier,
      d.code = some "E0202" := by decide +kernel
  obtain ⟨d, hd, hcode⟩ := hmalformed
  exact ⟨by decide +kernel, by decide +kernel, by decide +kernel, hrun source {} d hd hcode,
    (hread (Tokens.ofSource "nothing").toList 0).2 (by decide +kernel)⟩

end TriLang
