import TriLang.Cursor.Command
import TriLang.Naming
import TriLang.Proofs.Traversal
import TriLang.Token.Scan

/-!
# Spacing

Blanks and comments only move tokens.  No reading and no naming looks at where a token stands: with
all places taken away beforehand, it finds what it finds otherwise, without the places.  So what is
found in a source text is a matter of the kinds and the spellings of its tokens.
-/

namespace TriLang

/-! ## Without places -/

/-- Takes away where nodes stand.  They keep their ids. -/
def Relabel.unplaced : Relabel :=
  ⟨fun o => { o with span := .empty 0 }, fun i => i, fun _ => .empty 0⟩

abbrev Expr.unplaced (e : Expr) : Expr := e.relabel .unplaced

abbrev Param.unplaced (q : Param) : Param := q.relabel .unplaced

abbrev Decl.unplaced (d : Decl) : Decl := d.relabel .unplaced

abbrev Command.unplaced (c : Command) : Command := c.relabel .unplaced

def Program.unplaced (p : Program) : Program := ⟨p.command.unplaced, .empty 0⟩

def Occurrence.unplaced (o : Occurrence) : Occurrence := { o with span := .empty 0 }

def Token.unplaced (t : Token) : Token := { t with span := .empty 0 }

def SyntaxError.unplaced (e : SyntaxError) : SyntaxError := { e with found := e.found.unplaced }

def Fault.unplaced (f : Fault) : Fault := { f with error := f.error.unplaced }

namespace Cursor

def unplaced (c : Cursor) : Cursor :=
  ⟨c.pending.map Token.unplaced, .empty 0, c.index, 0, c.issued⟩

variable {c : Cursor}

theorem unplaced_current (c : Cursor) : c.unplaced.current = c.current.unplaced := by
  rw [current, current, unplaced]
  cases c.pending <;> rfl

theorem unplaced_stepOver (c : Cursor) : c.unplaced.stepOver = c.stepOver.unplaced := by
  obtain ⟨pending, closing, index, readTo, issued⟩ := c
  cases pending <;> rfl

/-- What is ahead of two cursors, the second of them without places. -/
inductive AheadUnplaced {c d : Cursor} : c.Ahead → d.Ahead → Prop
  | closing : AheadUnplaced .closing .closing
  | token {kind spelling span} {e : Cursor} {he : e.size < c.size ∧ c.Leads e}
      {he' : e.unplaced.size < d.size ∧ d.Leads e.unplaced} :
      AheadUnplaced (.token ⟨kind, spelling, span⟩ e he)
        (.token ⟨kind, spelling, .empty 0⟩ e.unplaced he')

theorem ahead_unplaced (c : Cursor) : AheadUnplaced c.ahead c.unplaced.ahead := by
  cases hp : c.pending with
  | nil =>
    have hp' : c.unplaced.pending = [] := by rw [unplaced, hp, List.map_nil]
    rw [ahead_of_pending_nil hp, ahead_of_pending_nil hp']
    exact .closing
  | cons t rest =>
    have hp' : c.unplaced.pending = t.unplaced :: rest.map Token.unplaced := by
      rw [unplaced, hp, List.map_cons]
    obtain ⟨_, ha⟩ := ahead_of_pending hp
    obtain ⟨_, ha'⟩ := ahead_of_pending hp'
    rw [ha, ha']
    exact .token

end Cursor

theorem Expr.span_relabel (f : Relabel) (e : Expr) : (e.relabel f).span = f.span e.span := by
  cases e <;> rfl

theorem Decl.span_relabel (f : Relabel) (d : Decl) : (d.relabel f).span = f.span d.span := by
  cases d <;> rfl

theorem Command.span_relabel (f : Relabel) (c : Command) :
    (c.relabel f).span = f.span c.span := by
  cases c <;> rfl

/-! ## Readings without places -/

/-- `r'` is `r` without places, where `g` takes them from a node. -/
def Read.Unplaced {α : Type} {c d : Cursor} (g : α → α) (r : Read α c) (r' : Read α d) : Prop :=
  r'.node = g r.node ∧ r'.next = r.next.unplaced ∧ r'.faults = r.faults.map Fault.unplaced

namespace Read.Unplaced

variable {α β : Type} {c d : Cursor} {g : α → α} {g' : β → β}

theorem done (a : α) : (Read.done a : Read α c).Unplaced g (.done (g a) : Read α c.unplaced) :=
  ⟨rfl, rfl, rfl⟩

theorem done_eq {a b : α} (h : b = g a) :
    (Read.done a : Read α c).Unplaced g (.done b : Read α c.unplaced) := ⟨h, rfl, rfl⟩

theorem fresh {a b : NodeId → α} (h : ∀ i, b i = g (a i)) :
    (Read.fresh a : Read α c).Unplaced g (.fresh b : Read α c.unplaced) := ⟨h _, rfl, rfl⟩

theorem since {e f : Cursor} {he : e.size < c.size ∧ c.Leads e} {hf : f.size < d.size ∧ d.Leads f}
    {r : Read α e} {r' : Read α f} (h : r.Unplaced g r') :
    (Read.since he r).Unplaced g (Read.since hf r') := h

theorem andThen {r : Read α c} {r' : Read α d}
    {k : α → (e : Cursor) → e.size ≤ c.size → Read β e}
    {k' : α → (e : Cursor) → e.size ≤ d.size → Read β e} (h : r.Unplaced g r')
    (hk : ∀ a e he he', (k a e he).Unplaced g' (k' (g a) e.unplaced he')) :
    (r.andThen k).Unplaced g' (r'.andThen k') := by
  obtain ⟨node, next, faults, leads, raised, sorted⟩ := r'
  obtain ⟨rfl, rfl, rfl⟩ := h
  obtain ⟨hn, hd, hf⟩ := hk r.node r.next r.size_le leads.size_le
  refine ⟨hn, hd, ?_⟩
  rw [Read.andThen, Read.andThen, List.map_append]
  exact congrArg _ hf

theorem refuse (c : Cursor) (x : Expectation) :
    (c.refuse x).Unplaced id (c.unplaced.refuse x) := by
  refine ⟨rfl, rfl, ?_⟩
  show [Fault.mk c.index ⟨x, c.unplaced.current⟩] = [⟨c.index, ⟨x, c.current.unplaced⟩⟩]
  rw [Cursor.unplaced_current]

theorem refused {a b : α} {x : Expectation} (h : b = g a) :
    ((c.refuse x).andThen fun _ _ _ => .done a).Unplaced g
      ((c.unplaced.refuse x).andThen fun _ _ _ => .done b) :=
  (refuse c x).andThen fun _ _ _ _ => .done_eq h

theorem expect (c : Cursor) (kind : TokenKind) :
    (c.expect kind).Unplaced id (c.unplaced.expect kind) := by
  have hkind : c.unplaced.current.kind = c.current.kind := by rw [Cursor.unplaced_current]; rfl
  rw [Cursor.expect, Cursor.expect, hkind]
  by_cases h : c.current.kind = kind
  · rw [if_pos h, if_pos h]
    exact ⟨rfl, c.unplaced_stepOver, rfl⟩
  · rw [if_neg h, if_neg h]
    exact refuse c _

theorem occurrence (kind : TokenKind) (spelling : String) (span : Span) :
    (Cursor.occurrence ⟨kind, spelling, span⟩ : Read Occurrence c).Unplaced Occurrence.unplaced
      (Cursor.occurrence ⟨kind, spelling, .empty 0⟩ : Read Occurrence c.unplaced) :=
  fresh fun _ => rfl

end Read.Unplaced

namespace Cursor

open Read (Unplaced)

/-- A name that is read or refused, and what comes then. -/
theorem named_unplaced {α : Type} {g : α → α} {k k' : Occurrence → (e : Cursor) → Read α e}
    {z z' : (e : Cursor) → Read α e} {c d : Cursor} (hd : d = c.unplaced)
    (hk : ∀ name e, (k name e).Unplaced g (k' name.unplaced e.unplaced))
    (hz : ∀ e, (z e).Unplaced g (z' e.unplaced)) :
    Read.Unplaced g
      (match c.ahead with
      | .token ⟨.identifier, spelling, span⟩ _ h =>
        .since h <| (Cursor.occurrence ⟨.identifier, spelling, span⟩).andThen fun name e _ =>
          k name e
      | _ => (c.refuse (.token .identifier)).andThen fun _ e _ => z e)
      (match d.ahead with
      | .token ⟨.identifier, spelling, span⟩ _ h =>
        .since h <| (Cursor.occurrence ⟨.identifier, spelling, span⟩).andThen fun name e _ =>
          k' name e
      | _ => (d.refuse (.token .identifier)).andThen fun _ e _ => z' e) := by
  subst hd
  have hs := ahead_unplaced c
  have hr : Read.Unplaced g ((c.refuse (.token .identifier)).andThen fun _ e _ => z e)
      ((c.unplaced.refuse (.token .identifier)).andThen fun _ e _ => z' e) :=
    (Unplaced.refuse c _).andThen fun _ e _ _ => hz e
  generalize c.ahead = x, c.unplaced.ahead = y at hs
  cases hs with
  | closing => exact hr
  | @token kind spelling span e =>
    cases kind
    case identifier => exact .since ((Unplaced.occurrence ..).andThen fun name e _ _ => hk name e)
    all_goals exact hr

mutual

theorem expression_unplaced (c : Cursor) :
    (expression c).Unplaced Expr.unplaced (expression c.unplaced) := by
  rw [expression, expression]
  exact (primary_unplaced c).andThen fun left e he _ => operands_unplaced left e
  termination_by 3 * c.size + 1
  decreasing_by all_goals omega

theorem operands_unplaced (left : Expr) (c : Cursor) :
    (operands left c).Unplaced Expr.unplaced (operands left.unplaced c.unplaced) := by
  have hs := ahead_unplaced c
  rw [operands, operands]
  generalize c.ahead = x, c.unplaced.ahead = y at hs
  cases hs with
  | closing => exact .done left
  | @token kind spelling span e he =>
    cases kind
    case operator =>
      refine .since ((Unplaced.occurrence ..).andThen fun op e _ _ => ?_)
      refine (primary_unplaced e).andThen fun right e _ _ => ?_
      have hjoin : left.unplaced.span.join right.unplaced.span = .empty 0 := by
        rw [Expr.span_relabel, Expr.span_relabel]
        rfl
      rw [hjoin]
      exact operands_unplaced (.binary (left.span.join right.span) left op right) e
    all_goals exact .done left
  termination_by 3 * c.size
  decreasing_by all_goals omega

theorem primary_unplaced (c : Cursor) :
    (primary c).Unplaced Expr.unplaced (primary c.unplaced) := by
  have hs := ahead_unplaced c
  have hr : Read.Unplaced Expr.unplaced
      ((c.refuse .expression).andThen fun _ e _ => .done (Expr.error e.current.span))
      ((c.unplaced.refuse .expression).andThen fun _ e _ => .done (.error e.current.span)) :=
    (Unplaced.refuse c _).andThen fun _ e _ _ => .done_eq (by rw [unplaced_current]; rfl)
  rw [primary, primary]
  generalize c.ahead = x, c.unplaced.ahead = y at hs
  cases hs with
  | closing => exact hr
  | @token kind spelling span e he =>
    cases kind
    case intLiteral => exact .since (.done _)
    case charLiteral => exact .since (.done _)
    case operator =>
      refine .since ((Unplaced.occurrence ..).andThen fun op e _ _ => ?_)
      exact (primary_unplaced e).andThen fun operand e _ _ => .done _
    case leftBracket =>
      refine .since ((expression_unplaced e).andThen fun inner e _ _ => ?_)
      exact (Unplaced.expect e _).andThen fun _ _ _ _ => .done inner
    case identifier =>
      refine .since ((Unplaced.occurrence ..).andThen fun name e _ _ => ?_)
      have hs := ahead_unplaced e
      generalize e.ahead = x, e.unplaced.ahead = y at hs
      cases hs with
      | closing => exact .done _
      | @token kind _ _ e he =>
        cases kind
        case leftBracket =>
          refine .since ((parameter_unplaced e).andThen fun arg e _ _ => ?_)
          exact (Unplaced.expect e _).andThen fun _ _ _ _ => .done _
        all_goals exact .done _
    all_goals exact hr
  termination_by 3 * c.size
  decreasing_by all_goals omega

theorem parameter_unplaced (c : Cursor) :
    (parameter c).Unplaced Param.unplaced (parameter c.unplaced) := by
  have hs := ahead_unplaced c
  -- Unless a variable is passed or nothing at all, the parameter is an expression or is refused.
  have hv : Read.Unplaced Param.unplaced
      (if c.current.kind.startsExpression then
        (expression c).andThen fun expr _ _ => .done (Param.value expr.span expr)
      else (c.refuse .parameter).andThen fun _ e _ => .done (.error e.current.span))
      (if c.unplaced.current.kind.startsExpression then
        (expression c.unplaced).andThen fun expr _ _ => .done (.value expr.span expr)
      else (c.unplaced.refuse .parameter).andThen fun _ e _ => .done (.error e.current.span)) := by
    rw [unplaced_current]
    by_cases h : c.current.kind.startsExpression
    · rw [if_pos h, if_pos (show c.current.unplaced.kind.startsExpression = true from h)]
      refine (expression_unplaced c).andThen fun expr e _ _ => .done_eq ?_
      rw [Expr.span_relabel]
      rfl
    · rw [if_neg h, if_neg (show ¬c.current.unplaced.kind.startsExpression = true from h)]
      exact (Unplaced.refuse c _).andThen fun _ e _ _ => .done_eq (by rw [unplaced_current]; rfl)
  rw [parameter, parameter]
  generalize c.ahead = x, c.unplaced.ahead = y at hs
  cases hs with
  | closing => exact hv
  | @token kind spelling span e he =>
    cases kind
    case rightBracket => exact .done _
    case kwVar =>
      exact .since (named_unplaced rfl (fun name e => .done _) fun e => .done _)
    all_goals exact hv
  termination_by 3 * c.size + 2
  decreasing_by all_goals omega

end

theorem singleDeclaration_unplaced (c : Cursor) :
    (singleDeclaration c).Unplaced Decl.unplaced (singleDeclaration c.unplaced) := by
  have hs := ahead_unplaced c
  have hr : Read.Unplaced Decl.unplaced
      ((c.refuse .declaration).andThen fun _ e _ => .fresh fun id => Decl.error id e.current.span)
      ((c.unplaced.refuse .declaration).andThen fun _ e _ =>
        .fresh fun id => .error id e.current.span) :=
    (Unplaced.refuse c _).andThen fun _ e _ _ => .fresh fun _ => by rw [unplaced_current]; rfl
  rw [singleDeclaration, singleDeclaration]
  generalize c.ahead = x, c.unplaced.ahead = y at hs
  cases hs with
  | closing => exact hr
  | @token kind spelling span e =>
    cases kind
    case kwConst =>
      refine .since (named_unplaced rfl (fun name e => ?_) fun e => .fresh fun _ => rfl)
      refine (Unplaced.expect e _).andThen fun _ e _ _ => ?_
      exact (expression_unplaced e).andThen fun value e _ _ => .fresh fun _ => rfl
    case identifier =>
      refine .since ((Unplaced.occurrence ..).andThen fun type e _ _ => ?_)
      exact named_unplaced rfl (fun name e => .fresh fun _ => rfl) fun e => .fresh fun _ => rfl
    all_goals exact hr

theorem moreDeclarations_unplaced (c : Cursor) :
    (moreDeclarations c).Unplaced (Decl.relabelList .unplaced) (moreDeclarations c.unplaced) := by
  have hs := ahead_unplaced c
  rw [moreDeclarations, moreDeclarations]
  generalize c.ahead = x, c.unplaced.ahead = y at hs
  cases hs with
  | closing => exact .done []
  | @token kind spelling span e he =>
    cases kind
    case semicolon =>
      have hkind : e.unplaced.current.kind = e.current.kind := by rw [unplaced_current]; rfl
      dsimp only
      rw [hkind]
      split
      case isTrue =>
        refine .since ((singleDeclaration_unplaced e).andThen fun decl e _ _ => ?_)
        exact (moreDeclarations_unplaced e).andThen fun decls e _ _ => .done (decl :: decls)
      case isFalse => exact .done []
    all_goals exact .done []
  termination_by c.size
  decreasing_by all_goals omega

theorem declaration_unplaced (c : Cursor) :
    (declaration c).Unplaced Decl.unplaced (declaration c.unplaced) := by
  rw [declaration, declaration]
  refine (singleDeclaration_unplaced c).andThen fun first d _ _ => ?_
  refine (moreDeclarations_unplaced d).andThen fun rest e _ _ => ?_
  rw [Decl.relabelList_eq_map, List.getLast?_map]
  split
  case h_1 h =>
    rw [h]
    exact .done first
  case h_2 last h =>
    rw [h]
    refine .fresh fun i => ?_
    have hjoin : first.unplaced.span.join last.unplaced.span = .empty 0 := by
      rw [Decl.span_relabel, Decl.span_relabel]
      rfl
    show Decl.sequence i (first.unplaced.span.join last.unplaced.span) (first.unplaced :: _) =
      .sequence i (.empty 0) (first.unplaced :: Decl.relabelList .unplaced rest)
    rw [hjoin, Decl.relabelList_eq_map]

mutual

theorem singleCommand_unplaced (c : Cursor) :
    (singleCommand c).Unplaced Command.unplaced (singleCommand c.unplaced) := by
  have hs := ahead_unplaced c
  have hr : Read.Unplaced Command.unplaced
      ((c.refuse .command).andThen fun _ e _ => .done (Command.error e.current.span))
      ((c.unplaced.refuse .command).andThen fun _ e _ => .done (.error e.current.span)) :=
    (Unplaced.refuse c _).andThen fun _ e _ _ => .done_eq (by rw [unplaced_current]; rfl)
  rw [singleCommand, singleCommand]
  generalize c.ahead = x, c.unplaced.ahead = y at hs
  cases hs with
  | closing => exact hr
  | @token kind spelling start e he =>
    cases kind
    case identifier =>
      refine .since ((Unplaced.occurrence ..).andThen fun name e _ _ => ?_)
      have hs := ahead_unplaced e
      have hr : Read.Unplaced Command.unplaced
          ((e.refuse .assignmentOrCall).andThen fun _ _ _ => .done (Command.error start))
          ((e.unplaced.refuse .assignmentOrCall).andThen fun _ _ _ => .done (.error (.empty 0))) :=
        .refused rfl
      generalize e.ahead = x, e.unplaced.ahead = y at hs
      cases hs with
      | closing => exact hr
      | @token kind _ _ e he =>
        cases kind
        case becomes => exact .since ((expression_unplaced e).andThen fun value e _ _ => .done _)
        case leftBracket =>
          refine .since ((parameter_unplaced e).andThen fun arg e _ _ => ?_)
          exact (Unplaced.expect e _).andThen fun _ _ _ _ => .done _
        all_goals exact hr
    case kwBegin =>
      refine .since ((command_unplaced e).andThen fun inner e _ _ => ?_)
      exact (Unplaced.expect e _).andThen fun _ _ _ _ => .done inner
    case kwLet =>
      refine .since ((declaration_unplaced e).andThen fun decl e _ _ => ?_)
      refine (Unplaced.expect e _).andThen fun _ e _ _ => ?_
      exact (singleCommand_unplaced e).andThen fun body e _ _ => .done _
    case kwIf =>
      refine .since ((expression_unplaced e).andThen fun cond e _ _ => ?_)
      refine (Unplaced.expect e _).andThen fun _ e _ _ => ?_
      refine (singleCommand_unplaced e).andThen fun thenBranch e _ _ => ?_
      have hs := ahead_unplaced e
      have hr : Read.Unplaced Command.unplaced
          ((e.refuse .elseBranch).andThen fun _ _ _ => .done (Command.error start))
          ((e.unplaced.refuse .elseBranch).andThen fun _ _ _ => .done (.error (.empty 0))) :=
        .refused rfl
      generalize e.ahead = x, e.unplaced.ahead = y at hs
      cases hs with
      | closing => exact hr
      | @token kind _ _ e he =>
        cases kind
        case kwElse =>
          exact .since ((singleCommand_unplaced e).andThen fun elseBranch e _ _ => .done _)
        case kwNoElse => exact .since (.done _)
        all_goals exact hr
    case kwWhile =>
      refine .since ((expression_unplaced e).andThen fun cond e _ _ => ?_)
      refine (Unplaced.expect e _).andThen fun _ e _ _ => ?_
      exact (singleCommand_unplaced e).andThen fun body e _ _ => .done _
    case kwRepeat =>
      refine .since ((singleCommand_unplaced e).andThen fun body e _ _ => ?_)
      refine (Unplaced.expect e _).andThen fun _ e _ _ => ?_
      exact (expression_unplaced e).andThen fun cond e _ _ => .done _
    case kwNothing => exact .since (.done _)
    all_goals exact hr
  termination_by 2 * c.size
  decreasing_by all_goals omega

theorem moreCommands_unplaced (c : Cursor) :
    (moreCommands c).Unplaced (Command.relabelList .unplaced) (moreCommands c.unplaced) := by
  have hs := ahead_unplaced c
  rw [moreCommands, moreCommands]
  generalize c.ahead = x, c.unplaced.ahead = y at hs
  cases hs with
  | closing => exact .done []
  | @token kind spelling span e he =>
    cases kind
    case semicolon =>
      have hkind : e.unplaced.current.kind = e.current.kind := by rw [unplaced_current]; rfl
      dsimp only
      rw [hkind]
      split
      case isTrue =>
        refine .since ((singleCommand_unplaced e).andThen fun first e _ _ => ?_)
        exact (moreCommands_unplaced e).andThen fun rest e _ _ => .done (first :: rest)
      case isFalse => exact .done []
    all_goals exact .done []
  termination_by 2 * c.size
  decreasing_by all_goals omega

theorem command_unplaced (c : Cursor) :
    (command c).Unplaced Command.unplaced (command c.unplaced) := by
  rw [command, command]
  refine (singleCommand_unplaced c).andThen fun first d _ _ => ?_
  refine (moreCommands_unplaced d).andThen fun rest e _ _ => ?_
  rw [Command.relabelList_eq_map, List.getLast?_map]
  split
  case h_1 h =>
    rw [h]
    exact .done first
  case h_2 last h =>
    rw [h]
    refine .done_eq ?_
    have hjoin : first.unplaced.span.join last.unplaced.span = .empty 0 := by
      rw [Command.span_relabel, Command.span_relabel]
      rfl
    show Command.sequence (first.unplaced.span.join last.unplaced.span) (first.unplaced :: _) =
      .sequence (.empty 0) (first.unplaced :: Command.relabelList .unplaced rest)
    rw [hjoin, Command.relabelList_eq_map]
  termination_by 2 * c.size + 1
  decreasing_by all_goals omega

end

theorem program_unplaced (c : Cursor) :
    (program c).Unplaced Program.unplaced (program c.unplaced) := by
  rw [program, program]
  refine (singleCommand_unplaced c).andThen fun command d _ _ => ?_
  refine (Unplaced.expect d _).andThen fun _ _ _ _ => .done_eq ?_
  rw [unplaced_current]
  rfl

theorem unplaced_ofTokens (ts : List Token) :
    (ofTokens ts).unplaced = ofTokens (ts.map Token.unplaced) := by
  rw [ofTokens, ofTokens, List.getLast?_map]
  cases hl : ts.getLast? with
  | none => rfl
  | some last =>
    dsimp only [Option.map_some]
    have hkind : last.unplaced.kind = last.kind := rfl
    rw [hkind]
    by_cases h : last.kind = .endOfText
    · rw [if_pos h, if_pos h, unplaced, List.map_dropLast]
      rfl
    · rw [if_neg h, if_neg h]
      rfl

end Cursor

/-- Tokens without places have the program without places, with the same faults. -/
theorem Program.ofTokens_unplaced (ts : List Token) :
    (ofTokens ts).Unplaced Program.unplaced (ofTokens (ts.map Token.unplaced)) := by
  have h := (Cursor.ofTokens ts).program_unplaced
  rwa [Cursor.unplaced_ofTokens] at h

/-! ## Names without places -/

namespace NamingFault

def unplaced : NamingFault → NamingFault
  | alreadyDeclared name previous => .alreadyDeclared name (previous.map fun _ => .empty 0)
  | undeclared name => .undeclared name
  | malformed what => .malformed what

end NamingFault

def NamingError.unplaced (e : NamingError) : NamingError := ⟨e.fault.unplaced, .empty 0⟩

def DeclEntry.unplaced (e : DeclEntry) : DeclEntry := { e with span := .empty 0 }

/-- `n` and `n'` differ only in where declarations and errors are. -/
structure Naming.SameUpToPlaces (n n' : Naming) : Prop where
  bindings : n.bindings = n'.bindings
  declarations : ∀ i : NodeId,
    n.declarations[i]?.map DeclEntry.unplaced = n'.declarations[i]?.map DeclEntry.unplaced
  errors : n.errors.map NamingError.unplaced = n'.errors.map NamingError.unplaced

namespace Naming.SameUpToPlaces

variable {n n' n'' : Naming}

theorem refl (n : Naming) : n.SameUpToPlaces n := ⟨rfl, fun _ => rfl, rfl⟩

theorem symm (h : n.SameUpToPlaces n') : n'.SameUpToPlaces n :=
  ⟨h.bindings.symm, fun i => (h.declarations i).symm, h.errors.symm⟩

theorem trans (h : n.SameUpToPlaces n') (h' : n'.SameUpToPlaces n'') : n.SameUpToPlaces n'' :=
  ⟨h.bindings.trans h'.bindings, fun i => (h.declarations i).trans (h'.declarations i),
    h.errors.trans h'.errors⟩

end Naming.SameUpToPlaces

namespace NamingState

/-- The same scopes are open, and the same is found up to places. -/
structure SameUpToPlaces (s s' : NamingState) : Prop where
  scopes : s.scopes = s'.scopes
  found : s.found.SameUpToPlaces s'.found

namespace SameUpToPlaces

variable {s s' : NamingState}

theorem fail {fault fault' : NamingFault} {span span' : Span} (h : s.SameUpToPlaces s')
    (hf : fault.unplaced = fault'.unplaced) :
    (s.fail fault span).SameUpToPlaces (s'.fail fault' span') := by
  have he : NamingError.unplaced ⟨fault, span⟩ = NamingError.unplaced ⟨fault', span'⟩ := by
    rw [NamingError.unplaced, NamingError.unplaced, hf]
  refine ⟨h.scopes, h.found.bindings, h.found.declarations, ?_⟩
  show (s.found.errors ++ [_]).map _ = (s'.found.errors ++ [_]).map _
  rw [List.map_append, List.map_append, h.found.errors, List.map_singleton, List.map_singleton, he]

theorem lookUp (h : s.SameUpToPlaces s') (o : Occurrence) :
    (s.lookUp o).SameUpToPlaces (s'.lookUp o.unplaced) := by
  have hspelling : o.unplaced.spelling = o.spelling := rfl
  rw [NamingState.lookUp, NamingState.lookUp, hspelling, ← h.scopes]
  cases s.scopes.find? o.spelling with
  | none => exact h.fail rfl
  | some b =>
    dsimp only
    refine ⟨rfl, ?_, h.found.declarations, h.found.errors⟩
    exact congrArg (Std.ExtTreeMap.insert · o.id b) h.found.bindings

/-- An earlier binding is declared in both or in neither. -/
theorem spanOf?_eq (h : s.SameUpToPlaces s') (b : Binding) :
    (s.spanOf? b).map (fun _ => Span.empty 0) = (s'.spanOf? b).map fun _ => Span.empty 0 := by
  cases b with
  | builtin entry => rfl
  | declared i =>
    have hi := congrArg (Option.map DeclEntry.span) (h.found.declarations i)
    simpa [spanOf?, DeclEntry.unplaced, Function.comp_def] using hi

theorem declare {id : NodeId} {span span' : Span} {name : Occurrence} {type : Option String}
    {rightSide rightSide' : NamingState → NamingState} (h : s.SameUpToPlaces s')
    (hr : ∀ s s' : NamingState, s.SameUpToPlaces s' →
      (rightSide s).SameUpToPlaces (rightSide' s')) :
    (s.declare id span name type rightSide).SameUpToPlaces
      (s'.declare id span' name.unplaced type rightSide') := by
  have hspelling : name.unplaced.spelling = name.spelling := rfl
  rw [NamingState.declare, NamingState.declare, hspelling, ← h.scopes]
  cases s.scopes.insertNew name.spelling (.declared id) with
  | error existing =>
    exact h.fail (congrArg (NamingFault.alreadyDeclared _) (h.spanOf?_eq existing))
  | ok scopes =>
    refine hr _ _ ⟨rfl, h.found.bindings, fun i => ?_, h.found.errors⟩
    dsimp only
    rw [Std.ExtTreeMap.getElem?_insert, Std.ExtTreeMap.getElem?_insert]
    by_cases hi : compare id i = .eq
    · rw [if_pos hi, if_pos hi]
      rfl
    · rw [if_neg hi, if_neg hi]
      exact h.found.declarations i

theorem inScope {part part' : NamingState → NamingState} (h : s.SameUpToPlaces s')
    (hp : ∀ s s' : NamingState, s.SameUpToPlaces s' → (part s).SameUpToPlaces (part' s')) :
    (s.inScope part).SameUpToPlaces (s'.inScope part') := by
  have hinside := hp { s with scopes := s.scopes.push } { s' with scopes := s'.scopes.push }
    ⟨congrArg Scopes.push h.scopes, h.found⟩
  exact ⟨congrArg Scopes.pop hinside.scopes, hinside.found⟩

theorem relabels : Relabels .unplaced SameUpToPlaces where
  lookUp o h := h.lookUp o
  malformed _ _ h := h.fail rfl
  inScope h hp := h.inScope hp
  declare _ _ _ type h hr := by
    have htype : (type.map Occurrence.unplaced).map Occurrence.spelling =
        type.map Occurrence.spelling := by cases type <;> rfl
    exact htype ▸ h.declare hr

end SameUpToPlaces

end NamingState

open NamingState

/-- The names of a program are found without its places. -/
theorem Naming.ofProgram_unplaced (p : Program) :
    (ofProgram p).SameUpToPlaces (ofProgram p.unplaced) :=
  (p.command.findNames_relabel SameUpToPlaces.relabels ⟨rfl, .refl _⟩).found

/-! ## Texts with the same tokens -/

/-- What is written in a token, wherever it stands. -/
def Token.written (t : Token) : TokenKind × String := (t.kind, t.spelling)

theorem Token.map_unplaced_eq {ts us : List Token} (h : ts.map written = us.map written) :
    ts.map unplaced = us.map unplaced := by
  have hmap := congrArg (List.map fun w : TokenKind × String => Token.mk w.1 w.2 (.empty 0)) h
  rw [List.map_map, List.map_map] at hmap
  exact hmap

namespace Program

variable {ts us : List Token}

theorem node_unplaced_eq (h : ts.map Token.unplaced = us.map Token.unplaced) :
    (ofTokens ts).node.unplaced = (ofTokens us).node.unplaced := by
  rw [← (ofTokens_unplaced ts).1, ← (ofTokens_unplaced us).1, h]

theorem errors_unplaced_eq (h : ts.map Token.unplaced = us.map Token.unplaced) :
    (ofTokens ts).errors.map SyntaxError.unplaced =
      (ofTokens us).errors.map SyntaxError.unplaced := by
  have hmap (vs : List Token) : (ofTokens vs).errors.map SyntaxError.unplaced =
      (ofTokens (vs.map Token.unplaced)).errors := by
    rw [Read.errors, Read.errors, (ofTokens_unplaced vs).2.2, List.map_map, List.map_map]
    rfl
  rw [hmap, hmap, h]

end Program

/-- What a syntax error says is a matter of what is expected and what is written instead. -/
theorem SyntaxError.map_said_eq {xs ys : List SyntaxError}
    (h : xs.map SyntaxError.unplaced = ys.map SyntaxError.unplaced) :
    xs.map (fun e => (e.fault, e.message, e.hint)) =
      ys.map fun e => (e.fault, e.message, e.hint) := by
  have hsaid := congrArg (List.map fun e : SyntaxError => (e.fault, e.message, e.hint)) h
  rw [List.map_map, List.map_map] at hsaid
  exact hsaid

/-- From two texts with the same tokens, however these are spaced, the same program is read with the
same errors, and the same is found about its names, up to places. -/
theorem Program.ofTokens_respaced {source source' : String}
    (h : (Tokens.ofSource source).toList.map Token.written =
      (Tokens.ofSource source').toList.map Token.written) :
    let read := ofTokens (Tokens.ofSource source).toList
    let read' := ofTokens (Tokens.ofSource source').toList
    read.node.unplaced = read'.node.unplaced ∧
      read.errors.map SyntaxError.unplaced = read'.errors.map SyntaxError.unplaced ∧
      (read.errors.map fun e => (e.fault, e.message, e.hint)) =
        read'.errors.map (fun e => (e.fault, e.message, e.hint)) ∧
      (Naming.ofProgram read.node).SameUpToPlaces (Naming.ofProgram read'.node) := by
  intro read read'
  have htokens := Token.map_unplaced_eq h
  have hnode : read.node.unplaced = read'.node.unplaced := node_unplaced_eq htokens
  have herrors : read.errors.map SyntaxError.unplaced = read'.errors.map SyntaxError.unplaced :=
    errors_unplaced_eq htokens
  have hnaming := Naming.ofProgram_unplaced read.node
  rw [hnode] at hnaming
  exact ⟨hnode, herrors, SyntaxError.map_said_eq herrors,
    hnaming.trans (Naming.ofProgram_unplaced read'.node).symm⟩

/-- A comment and a newline move the capital letter that is no name and the second `n`. -/
theorem Program.ofTokens_respaced_comment :
    let source := "let integer n; char n in n := Y"
    let source' := "let integer n; ! twice\n  char n\nin n:=Y"
    let read := ofTokens (Tokens.ofSource source).toList
    let read' := ofTokens (Tokens.ofSource source').toList
    (Tokens.ofSource source).toList.map Token.written =
        (Tokens.ofSource source').toList.map Token.written ∧
      read.errors ≠ [] ∧ read.errors ≠ read'.errors ∧
      read.errors.map SyntaxError.unplaced = read'.errors.map SyntaxError.unplaced ∧
      (Naming.ofProgram read.node).errors ≠ (Naming.ofProgram read'.node).errors ∧
      (Naming.ofProgram read.node).SameUpToPlaces (Naming.ofProgram read'.node) := by
  intro source source' read read'
  have h : (Tokens.ofSource source).toList.map Token.written =
      (Tokens.ofSource source').toList.map Token.written := by decide +kernel
  obtain ⟨-, herrors, -, hnaming⟩ := ofTokens_respaced h
  exact ⟨h, by decide +kernel, by decide +kernel, herrors, by decide +kernel, hnaming⟩

end TriLang
