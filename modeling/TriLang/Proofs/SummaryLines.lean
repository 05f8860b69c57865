import TriLang.Proofs.LineTexts
import TriLang.Proofs.Operators
import TriLang.Proofs.Reports
import TriLang.Proofs.SourceOrder

/-!
# One line an error

A summary has a line for each stage that has failed and for each error.  Messages quote tokens as
they are spelled, and a character literal may be spelled with a newline, closed or not: so the line
of an error is broken where its message quotes such a literal, and nowhere else.  No name is spelled
with a newline, so what naming reports stays on one line.
-/

namespace TriLang

/-! ## What naming reports -/

/-- A fault names one of `xs`, or the family of an `error` node. -/
inductive NamingFault.Names (xs : List Leaf) : NamingFault → Prop
  | alreadyDeclared {x name previous} (hx : x ∈ xs) (hm : x.mention?.isSome)
      (hname : x.token.spelling = name) : Names xs (.alreadyDeclared name previous)
  | undeclared {x name} (hx : x ∈ xs) (hm : x.mention?.isSome)
      (hname : x.token.spelling = name) : Names xs (.undeclared name)
  | malformed {family} (h : family ∈ ["command", "declaration", "expression", "parameter"]) :
      Names xs (.malformed family)

theorem NamingFault.Names.mono {fault : NamingFault} {xs ys : List Leaf} (h : fault.Names xs)
    (hsub : xs ⊆ ys) : fault.Names ys := by
  cases h with
  | alreadyDeclared hx hm hname => exact .alreadyDeclared (hsub hx) hm hname
  | undeclared hx hm hname => exact .undeclared (hsub hx) hm hname
  | malformed h => exact .malformed h

namespace NamingState

/-- From `s` to `t` errors are reported that name some of `xs`. -/
def Blames (s t : NamingState) (xs : List Leaf) : Prop :=
  ∀ e ∈ t.found.errors, e ∈ s.found.errors ∨ e.fault.Names xs

namespace Blames

variable {s t u : NamingState} {xs ys : List Leaf}

theorem nothing (h : t.found.errors = s.found.errors) (xs : List Leaf) : s.Blames t xs :=
  fun _ he => .inl (h ▸ he)

theorem mono (h : s.Blames t xs) (hsub : xs ⊆ ys) : s.Blames t ys :=
  fun e he => (h e he).imp_right fun hnames => hnames.mono hsub

theorem append (h : s.Blames t xs) (h' : t.Blames u ys) : s.Blames u (xs ++ ys) := by
  intro e he
  rcases h' e he with he | hnames
  · exact h.mono (List.subset_append_left xs ys) e he
  · exact .inr (hnames.mono (List.subset_append_right xs ys))

theorem fail {fault : NamingFault} (h : fault.Names xs) (span : Span) (s : NamingState) :
    s.Blames (s.fail fault span) xs := by
  intro e he
  rcases List.mem_append.1 he with he | he
  · exact .inl he
  · obtain rfl := List.mem_singleton.1 he
    exact .inr h

theorem lookUp {x : Leaf} {o : Occurrence} (hx : x.mention? = some (.use o)) (s : NamingState) :
    s.Blames (s.lookUp o) [x] := by
  have hspelling : x.token.spelling = o.spelling := by
    cases x <;> cases hx <;> rfl
  unfold NamingState.lookUp
  split
  case h_1 => exact nothing rfl _
  case h_2 => exact fail (.undeclared (List.mem_singleton_self x) (hx ▸ rfl) hspelling) _ s

theorem declare {id : NodeId} {span : Span} {name : Occurrence} {type : Option String}
    {rightSide : NamingState → NamingState} (hn : .declared id span name ∈ xs)
    (hr : ∀ s : NamingState, s.Blames (rightSide s) xs) (s : NamingState) :
    s.Blames (s.declare id span name type rightSide) xs := by
  unfold NamingState.declare
  split
  case h_1 => exact fail (.alreadyDeclared hn rfl rfl) _ s
  case h_2 => exact hr _

end Blames

end NamingState

open NamingState

mutual

theorem Expr.blames_findNames : ∀ (e : Expr) (s : NamingState), s.Blames (e.findNames s) e.leaves
  | .binary _ left _ right, s =>
    (left.blames_findNames s).append ((Blames.lookUp rfl _).append (right.blames_findNames _))
  | .character .., _ | .integer .., _ => .nothing rfl _
  | .name .., s => .lookUp rfl s
  | .apply _ _ arg, s => (Blames.lookUp rfl s).append (arg.blames_findNames _)
  | .unary _ _ operand, s => (Blames.lookUp rfl s).append (operand.blames_findNames _)
  | .error span, s => .fail (.malformed (by decide)) span s

theorem Param.blames_findNames : ∀ (q : Param) (s : NamingState),
    s.Blames (q.findNames s) q.leaves
  | .blank _, _ => .nothing rfl _
  | .value _ expr, s => expr.blames_findNames s
  | .var .., s => .lookUp rfl s
  | .error span, s => .fail (.malformed (by decide)) span s

end

mutual

theorem Decl.blames_findNames : ∀ (d : Decl) (s : NamingState), s.Blames (d.findNames s) d.leaves
  | .const _ _ _ value, s =>
    .declare List.mem_cons_self
      (fun s => (value.blames_findNames s).mono (List.subset_cons_self ..)) s
  | .var id span type name, s =>
    have hname : .declared id span name ∈ [Leaf.name type, .declared id span name] :=
      List.mem_cons_of_mem _ List.mem_cons_self
    .declare hname (fun s => (Blames.lookUp rfl s).mono
      (List.subset_append_left [Leaf.name type] [.declared id span name])) s
  | .sequence _ _ items, s => Decl.blames_findNamesOfList items s
  | .error _ span, s => .fail (.malformed (by decide)) span s

theorem Decl.blames_findNamesOfList : ∀ (ds : List Decl) (s : NamingState),
    s.Blames (Decl.findNamesOfList ds s) (Decl.leavesOfList ds)
  | [], _ => .nothing rfl _
  | d :: ds, s => (d.blames_findNames s).append (Decl.blames_findNamesOfList ds _)

end

mutual

theorem Command.blames_findNames : ∀ (c : Command) (s : NamingState),
    s.Blames (c.findNames s) c.leaves
  | .assign _ _ value, s => (Blames.lookUp rfl s).append (value.blames_findNames _)
  | .blank _, _ => .nothing rfl _
  | .call _ _ arg, s => (Blames.lookUp rfl s).append (arg.blames_findNames _)
  | .ifElse _ cond thenBranch elseBranch, s =>
    (cond.blames_findNames s).append
      ((thenBranch.blames_findNames _).append (elseBranch.blames_findNames _))
  | .ifNoElse _ cond thenBranch, s =>
    (cond.blames_findNames s).append (thenBranch.blames_findNames _)
  | .letIn _ decl body, s =>
    (decl.blames_findNames { s with scopes := s.scopes.push }).append (body.blames_findNames _)
  | .sequence _ items, s => Command.blames_findNamesOfList items s
  | .whileDo _ cond body, s => (cond.blames_findNames s).append (body.blames_findNames _)
  | .repeatUntil _ body cond, s => (body.blames_findNames s).append (cond.blames_findNames _)
  | .error span, s => .fail (.malformed (by decide)) span s

theorem Command.blames_findNamesOfList : ∀ (cs : List Command) (s : NamingState),
    s.Blames (Command.findNamesOfList cs s) (Command.leavesOfList cs)
  | [], _ => .nothing rfl _
  | c :: cs, s => (c.blames_findNames s).append (Command.blames_findNamesOfList cs _)

end

/-- What naming reports names leaves of the tree. -/
theorem Naming.names_of_mem_errors {p : Program} {e : NamingError}
    (he : e ∈ (ofProgram p).errors) : e.fault.Names p.command.leaves :=
  (p.command.blames_findNames .initial e he).resolve_left List.not_mem_nil

/-! ## Newlines in messages -/

section

variable {c : Char} {pre text post : String}

theorem mem_toList_append_of_notMem_left (h : c ∉ pre.toList) :
    c ∈ (pre ++ text).toList ↔ c ∈ text.toList := by
  rw [String.toList_append, List.mem_append, or_iff_right h]

theorem mem_toList_append_of_notMem_right (h : c ∉ post.toList) :
    c ∈ (text ++ post).toList ↔ c ∈ text.toList := by
  rw [String.toList_append, List.mem_append, or_iff_left h]

theorem mem_toList_between (h : c ∉ pre.toList) (h' : c ∉ post.toList) :
    c ∈ (pre ++ text ++ post).toList ↔ c ∈ text.toList :=
  (mem_toList_append_of_notMem_right h').trans (mem_toList_append_of_notMem_left h)

end

theorem LexicalError.newline_mem_message {e : LexicalError} :
    '\n' ∈ e.message.toList ↔ '\n' ∈ e.spelling.toList := by
  obtain ⟨fault, spelling, span⟩ := e
  cases fault with
  | unexpectedCharacter | upperCaseName => exact mem_toList_between (by decide) (by decide)
  | malformedCharacter => exact mem_toList_append_of_notMem_left (by decide)

theorem TokenKind.newline_notMem_describe (kind : TokenKind) : '\n' ∉ kind.describe.toList := by
  cases kind <;> decide

theorem Expectation.newline_notMem_describe (x : Expectation) : '\n' ∉ x.describe.toList := by
  cases x with
  | token kind => exact kind.newline_notMem_describe
  | _ => decide

theorem Token.newline_mem_describe {t : Token} :
    '\n' ∈ t.describe.toList ↔ t.kind.isQuoted ∧ '\n' ∈ t.spelling.toList := by
  have hkind := t.kind.newline_notMem_describe
  rw [describe]
  split
  case isTrue h =>
    rw [and_iff_right h]
    refine mem_toList_between (fun hn => hkind ?_) (by decide)
    exact (mem_toList_append_of_notMem_right (by decide)).1 hn
  case isFalse h => simp [h, hkind]

theorem SyntaxError.newline_mem_message {e : SyntaxError} :
    '\n' ∈ e.message.toList ↔ e.found.kind.isQuoted ∧ '\n' ∈ e.found.spelling.toList := by
  rw [← Token.newline_mem_describe]
  refine mem_toList_append_of_notMem_left fun hn => e.expected.newline_notMem_describe ?_
  exact (mem_toList_between (by decide) (by decide)).1 hn

theorem NamingFault.newline_notMem_message {fault : NamingFault} {xs : List Leaf}
    (h : fault.Names xs) (hxs : ∀ x ∈ xs, x.mention?.isSome → '\n' ∉ x.token.spelling.toList) :
    '\n' ∉ fault.message.toList := by
  cases h with
  | alreadyDeclared hx hm hname | undeclared hx hm hname =>
    refine mt (mem_toList_between (by decide) (by decide)).1 ?_
    exact hname ▸ hxs _ hx hm
  | malformed h =>
    have hfamilies : ∀ family ∈ ["command", "declaration", "expression", "parameter"],
        '\n' ∉ family.toList := by decide
    exact mt (mem_toList_append_of_notMem_left (by decide)).1 (hfamilies _ h)

/-! ## Messages of a run -/

variable {source : String} {o : Options}

/-- Of all tokens only character literals, closed or not, go over newlines. -/
theorem Tokens.kind_of_newline_mem {t : Token} (ht : t ∈ (ofSource source).toList)
    (hn : '\n' ∈ t.spelling.toList) : t.kind = .charLiteral ∨ t.kind = .error := by
  by_cases hk : t.kind.Proper
  · exact .inl (by simpa using (spells_of_proper ht hk).of_newline_mem hn)
  · refine .inr (Decidable.by_contra fun herror => ?_)
    have hend : t.kind = .endOfText := Decidable.by_contra fun hend => hk ⟨hend, herror⟩
    rcases List.mem_append.1 ht with ht | ht
    · obtain ⟨x, hx, rfl⟩ := List.mem_map.1 ht
      exact ((layout_lexemes source).proper x hx).token_kind_ne_endOfText hend
    · obtain rfl := List.mem_singleton.1 ht
      cases hn

theorem Naming.newline_notMem_of_mem_errors {e : NamingError}
    (he : e ∈ (ofProgram (.ofSource source)).errors) : '\n' ∉ e.message.toList := by
  refine NamingFault.newline_notMem_message (names_of_mem_errors he) fun x hx hm hn => ?_
  have hkind := Tokens.kind_of_newline_mem (Program.token_mem_of_mem_leaves hx) hn
  cases x <;> simp [Leaf.mention?, Leaf.token] at hm hkind

theorem NamingError.message_diagnostic (e : NamingError) : e.diagnostic.message = e.message := by
  obtain ⟨⟨name, _ | previous⟩ | name | family, span⟩ := e <;> rfl

/-- A message that goes over a newline quotes a token that does.  No name is such a token. -/
structure Diagnostic.QuotesNewline (d : Diagnostic) (s : Stage) (ts : List Token) : Prop where
  ne_identifier : s ≠ .identifier
  exists_token : ∃ t ∈ ts, d.place? = some t.span ∧ '\n' ∈ t.spelling.toList ∧
    (t.kind = .charLiteral ∨ t.kind = .error)

theorem Run.quotesNewline {s : Stage} {d : Diagnostic} (hd : d ∈ (ofSource source o).log.ofStage s)
    (hn : '\n' ∈ d.message.toList) : d.QuotesNewline s (ofSource source o).tokens := by
  obtain ⟨xs, ys, zs, hlog, hxs, hys, hzs⟩ := exists_ofErrors source o
  rw [hlog, Log.ofStage_ofErrors] at hd
  rw [tokens_ofSource]
  cases s with
  | tokenizer =>
    obtain ⟨e, he, rfl⟩ := List.mem_map.1 hd
    obtain ⟨t, ht, hk, hspelling, hspan⟩ := Tokens.exists_token_of_mem_errors (hxs.mem he)
    exact ⟨nofun, t, ht, congrArg some hspan, hspelling ▸ LexicalError.newline_mem_message.1 hn,
      .inr hk⟩
  | parser =>
    obtain ⟨e, he, rfl⟩ := List.mem_map.1 hd
    obtain ⟨f, hf, rfl⟩ := List.mem_map.1 (hys.mem he)
    obtain ⟨hquoted, hn⟩ := SyntaxError.newline_mem_message.1 hn
    have hend : f.error.found.kind ≠ .endOfText := by
      intro h
      rw [h] at hquoted
      cases hquoted
    have ht := Program.found_mem (Tokens.endsOnce_ofSource source) hf hend
    exact ⟨nofun, f.error.found, ht, rfl, hn, Tokens.kind_of_newline_mem ht hn⟩
  | identifier =>
    obtain ⟨e, he, rfl⟩ := List.mem_map.1 hd
    rw [NamingError.message_diagnostic] at hn
    exact absurd hn (Naming.newline_notMem_of_mem_errors (hzs.mem he))
  | checker | exporter => cases hd

/-! ## The lines of a summary -/

theorem newline_notMem_toString (n : Nat) : '\n' ∉ (toString n).toList := by
  have hdigits : '\n' ∉ Nat.toDigits 10 n := fun hn =>
    absurd (Nat.isDigit_of_mem_toDigits (by decide) (by decide) hn) (by decide)
  simpa [toString] using hdigits

theorem Stage.newline_notMem_heading (s : Stage) : '\n' ∉ s.heading.toList := by
  cases s <;> decide +kernel

theorem Diagnostic.newline_mem_summaryLine {d : Diagnostic} {p : Option Position} :
    '\n' ∈ (d.summaryLine p).toList ↔ '\n' ∈ d.message.toList := by
  cases p with
  | none => exact mem_toList_append_of_notMem_left (by decide)
  | some p =>
    refine (mem_toList_append_of_notMem_right (newline_notMem_toString _)).trans ?_
    refine (mem_toList_append_of_notMem_right (by decide)).trans ?_
    refine (mem_toList_append_of_notMem_right (newline_notMem_toString _)).trans ?_
    exact mem_toList_between (by decide) (by decide)

theorem toList_writeLines (lines : List String) :
    (writeLines lines).toList = (lines.map String.toList).flatMap (· ++ ['\n']) := by
  rw [writeLines, String.toList_join, List.flatMap_map, List.flatMap_map]
  simp only [String.toList_append]
  rfl

namespace Log

variable {log : Log} {positions : Stage → List (Option Position)}

/-- Only a message can break a line. -/
theorem newline_notMem_summaryLines_iff {ls : Lines} (h : log.ErrorsAt ls positions) :
    (∀ l ∈ log.summaryLines positions, '\n' ∉ l.toList) ↔
      ∀ s, ∀ d ∈ log.errorsOf s, '\n' ∉ d.message.toList := by
  have hlength (s : Stage) : (log.errorsOf s).length = (positions s).length := by
    simpa using congrArg List.length (h s)
  constructor
  · intro hlines s d hd hn
    have hfailed := mem_failedStages_iff.2 (hasFailed_of_mem_errorsOf hd)
    obtain ⟨i, hi, rfl⟩ := List.getElem_of_mem hd
    have hline := List.mem_of_getElem (l := List.zipWith Diagnostic.summaryLine (log.errorsOf s)
      (positions s)) (i := i) (h := by simpa [← hlength] using hi) rfl
    refine hlines _ (List.mem_flatMap.2 ⟨s, hfailed, List.mem_cons_of_mem _ hline⟩) ?_
    rwa [List.getElem_zipWith, Diagnostic.newline_mem_summaryLine]
  · intro hmessages l hl
    obtain ⟨s, -, hl⟩ := List.mem_flatMap.1 hl
    rcases List.mem_cons.1 hl with rfl | hl
    · exact s.newline_notMem_heading
    · obtain ⟨i, hi, rfl⟩ := List.getElem_of_mem hl
      rw [List.getElem_zipWith, Diagnostic.newline_mem_summaryLine]
      exact hmessages s _ (List.getElem_mem _)

end Log

namespace Run

theorem isSome_place? {s : Stage} :
    ∀ d ∈ (ofSource source o).log.ofStage s, d.place?.isSome := by
  obtain ⟨ss, hss⟩ := exists_atPlaces source o s
  intro d hd
  have hplace : d.place? ∈ ss.map some := by
    rw [← hss.places]
    exact List.mem_map_of_mem hd
  obtain ⟨x, -, hx⟩ := List.mem_map.1 hplace
  rw [← hx]
  rfl

/-- The lines of a summary of errors are one for each stage that has failed and one for each error,
at its position, just if no message goes over a newline.  One that does quotes a token that does. -/
theorem ofSource_summary_lines (h : (ofSource source o).isOk = false) :
    let r := ofSource source o
    (∀ s, ∀ d ∈ r.log.ofStage s, d.isError ∧ d.place?.isSome) ∧
      (source.utf8ByteSize < 2 ^ 32 - 1 → ∃ text, r.summary? = some text) ∧
      (∀ text, r.summary? = some text → ∃ positions : Stage → List Position,
        r.log.ErrorsAt r.lines (fun s => (positions s).map some) ∧
        (text.toList.splitOn '\n' =
            (r.log.summaryLines fun s => (positions s).map some).map String.toList ++ [[]] ↔
          ∀ s, ∀ d ∈ r.log.ofStage s, '\n' ∉ d.message.toList)) ∧
      ∀ s, ∀ d ∈ r.log.ofStage s, '\n' ∈ d.message.toList → d.QuotesNewline s r.tokens := by
  intro r
  have hreported : ∀ s, ∀ d ∈ r.log.ofStage s, d.isError ∧ d.place?.isSome := fun s d hd =>
    ⟨isError_of_mem_ofStage d hd, isSome_place? d hd⟩
  choose places hplaces using exists_atPlaces source o
  refine ⟨hreported, fun hsize => ?_, fun text htext => ?_, fun s d hd hn => quotesNewline hd hn⟩
  · obtain ⟨positions, hpositions, -⟩ := exists_showsAt_of_lt hplaces hsize
    exact ⟨_, hpositions.summary_eq h⟩
  · obtain ⟨positions, hpositions⟩ := exists_showsAt hplaces htext
    have herrors := errorsAt hplaces hpositions.positions_eq
    obtain rfl := Option.some_inj.1 (htext.symm.trans (hpositions.summary_eq h))
    refine ⟨positions, herrors, ?_⟩
    rw [toList_writeLines, splitOn_flatMap_iff, List.forall_mem_map,
      Log.newline_notMem_summaryLines_iff herrors]
    exact forall_congr' fun s => by rw [errorsOf_eq]

/-- A name that is never declared, and a second command where the program should end. -/
theorem ofSource_summary_lines_undeclared :
    let r := ofSource "putint(n) m" {}
    let lines := ["Errors found in the parser stage:",
      "Error: expected end of text, found a name 'm' at 1:11",
      "Errors found in the identifier stage:",
      "Error: 'n' is not declared at 1:8"]
    r.isOk = false ∧ r.summary? = some (writeLines lines) ∧
      (writeLines lines).toList.splitOn '\n' = lines.map String.toList ++ [[]] ∧
      ∃ positions : Stage → List Position,
        r.log.ErrorsAt r.lines (fun s => (positions s).map some) ∧
        (writeLines lines).toList.splitOn '\n' =
          (r.log.summaryLines fun s => (positions s).map some).map String.toList ++ [[]] := by
  intro r lines
  have hok : r.isOk = false := by decide +kernel
  have htext : r.summary? = some (writeLines lines) := by decide +kernel
  have hsplit : (writeLines lines).toList.splitOn '\n' = lines.map String.toList ++ [[]] := by
    rw [toList_writeLines, splitOn_flatMap_iff]
    decide
  obtain ⟨-, -, hlines, -⟩ := ofSource_summary_lines hok
  obtain ⟨positions, herrors, hiff⟩ := hlines _ htext
  refine ⟨hok, htext, hsplit, positions, herrors, hiff.2 fun s => ?_⟩
  cases s <;> decide +kernel

/-- A quote at the end of a line, and nothing else: its one error takes two lines. -/
theorem ofSource_summary_lines_openQuote :
    let r := ofSource "\x27\n" { keepGoing := false }
    let text := "Errors found in the tokenizer stage:\n" ++
      "Error: malformed character literal \x27\n at 1:1\n"
    r.isOk = false ∧ r.log.failedStages = [.tokenizer] ∧
      (r.log.errorsOf .tokenizer).length = 1 ∧ r.summary? = some text ∧
      ∀ positions, text.toList.splitOn '\n' ≠
        (r.log.summaryLines positions).map String.toList ++ [[]] := by
  intro r text
  have hfailed : r.log.failedStages = [.tokenizer] := by decide +kernel
  have hone : (r.log.errorsOf .tokenizer).length = 1 := by decide +kernel
  refine ⟨by decide +kernel, hfailed, hone, by decide +kernel, fun positions h => ?_⟩
  have hpieces : (text.toList.splitOn '\n').length = 4 := by decide +kernel
  rw [h, Log.summaryLines, hfailed] at hpieces
  simp [hone] at hpieces
  omega

end Run

end TriLang
