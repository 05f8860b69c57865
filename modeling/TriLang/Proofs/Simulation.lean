import TriLang.Proofs.Following

/-!
# Two readings side by side

One thing is read at two cursors.  As long as the same tokens are ahead, the readings take the same
branches.  Where they do not, the second cursor stands at a connective, which begins nothing: a
reading that has to begin there either passes the token under the first cursor or refuses it.  A
`Simulation` says what becomes of cursors and readings at each step; what it says of steps it says
of all that is read.
-/

namespace TriLang

/-! ## Connectives -/

/-- Whether a token of this kind only joins or closes the parts of a form. -/
def TokenKind.isConnective : TokenKind → Bool
  | kwThen | kwDo | kwIn | kwUntil | kwEnd | rightBracket | kwIs => true
  | _ => false

theorem TokenKind.startsDeclaration_of_isConnective {kind : TokenKind} (h : kind.isConnective) :
    kind.startsDeclaration = false := by
  cases kind <;> first | rfl | cases h

theorem TokenKind.startsCommand_of_isConnective {kind : TokenKind} (h : kind.isConnective) :
    kind.startsCommand = false := by
  cases kind <;> first | rfl | cases h

/-- Whether a connective is wanted. -/
def Expectation.isConnective : Expectation → Bool
  | token kind => kind.isConnective
  | _ => false

theorem Cursor.index_lt_of_shorter {c d : Cursor} (h : d.size < c.size ∧ c.Leads d) :
    c.index < d.index := by
  obtain ⟨hs, us, hp, hi, -⟩ := h
  have : 0 < us.length := by simpa [size, hp] using hs
  omega

theorem Cursor.isConnective_of_ahead {c d : Cursor} {t : Token} {h : d.size < c.size ∧ c.Leads d}
    (ha : c.ahead = .token t d h) (hk : c.current.kind.isConnective) : t.kind.isConnective := by
  rwa [current_of_pending (ahead_eq_token ha).1] at hk

/-! ## Commitment -/

namespace Read

variable {α β : Type} {c d : Cursor}

/-- `r` passes the token under the cursor, or refuses it for want of something that is no
connective. -/
structure Commits (r : Read α c) : Prop where
  passes : r.faults = [] → c.index < r.next.index
  refuses : ∀ f ∈ r.faults.head?, f.index = c.index → f.error.expected.isConnective = false

namespace Commits

theorem since {h : d.size < c.size ∧ c.Leads d} (r : Read α d) : (Read.since h r).Commits where
  passes _ := Nat.lt_of_lt_of_le (Cursor.index_lt_of_shorter h) r.leads.index_le
  refuses f hf hi := by
    have hd := r.passes_index.faults f (List.mem_of_mem_head? hf)
    have := Cursor.index_lt_of_shorter h
    omega

theorem refuse {x : Expectation} (hx : x.isConnective = false) : (c.refuse x).Commits where
  passes hf := by simp [Cursor.refuse] at hf
  refuses f hf _ := by
    obtain rfl : _ = f := by simpa [Cursor.refuse] using hf
    exact hx

theorem andThen {r : Read α c} (h : r.Commits)
    (k : α → (d : Cursor) → d.size ≤ c.size → Read β d) : (r.andThen k).Commits where
  passes hf := by
    obtain ⟨hf, -⟩ := List.append_eq_nil_iff.1 hf
    exact Nat.lt_of_lt_of_le (h.passes hf) (k r.node r.next r.size_le).leads.index_le
  refuses f hf hi := by
    rcases hr : r.faults with _ | ⟨g, gs⟩
    · have hf : f ∈ (k r.node r.next r.size_le).faults.head? := by
        simpa [Read.andThen, hr] using hf
      have hd := (k r.node r.next r.size_le).passes_index.faults f (List.mem_of_mem_head? hf)
      have := h.passes hr
      omega
    · obtain rfl : g = f := by simpa [Read.andThen, hr] using hf
      exact h.refuses g (by simp [hr]) hi

theorem done_andThen {a : α} {k : α → (d : Cursor) → d.size ≤ c.size → Read β d}
    (h : (k a c (Nat.le_refl _)).Commits) : ((Read.done a).andThen k).Commits where
  passes hf := h.passes (by simpa [Read.andThen, Read.done] using hf)
  refuses f hf := h.refuses f (by simpa [Read.andThen, Read.done] using hf)

theorem expect {t : Token} {rest : List Token} {kind : TokenKind} (hp : c.pending = t :: rest)
    (ht : t.kind = kind) : (c.expect kind).Commits := by
  have hc : c.current.kind = kind := by rw [Cursor.current_of_pending hp, ht]
  rw [Cursor.expect, if_pos hc]
  refine ⟨fun _ => ?_, by simp⟩
  show c.index < c.stepOver.index
  rw [Cursor.stepOver_of_pending hp]
  exact Nat.lt_succ_self _

end Commits

end Read

namespace Cursor

theorem moreDeclarations_of_current_ne {c : Cursor} (h : c.current.kind ≠ .semicolon) :
    moreDeclarations c = .done [] := by
  rw [moreDeclarations]
  split
  case h_1 ha =>
    rw [current_of_pending (ahead_eq_token ha).1] at h
    exact absurd rfl h
  case h_2 => rfl

theorem moreCommands_of_current_ne {c : Cursor} (h : c.current.kind ≠ .semicolon) :
    moreCommands c = .done [] := by
  rw [moreCommands]
  split
  case h_1 ha =>
    rw [current_of_pending (ahead_eq_token ha).1] at h
    exact absurd rfl h
  case h_2 => rfl

theorem primary_commits (c : Cursor) : (primary c).Commits := by
  rw [primary]
  split
  case h_6 => exact (Read.Commits.refuse rfl).andThen _
  all_goals exact .since _

theorem expression_commits (c : Cursor) : (expression c).Commits := by
  rw [expression]
  exact (primary_commits c).andThen _

theorem singleDeclaration_commits (c : Cursor) : (singleDeclaration c).Commits := by
  rw [singleDeclaration]
  split
  case h_3 => exact (Read.Commits.refuse rfl).andThen _
  all_goals exact .since _

theorem singleCommand_commits (c : Cursor) : (singleCommand c).Commits := by
  rw [singleCommand]
  split
  case h_8 => exact (Read.Commits.refuse rfl).andThen _
  all_goals exact .since _

/-- A parameter alone may pass nothing, but not together with the bracket behind it. -/
theorem argument_commits {α : Type} (c : Cursor) (k : Param → (d : Cursor) → Read α d) :
    ((parameter c).andThen fun arg d _ =>
      (d.expect .rightBracket).andThen fun _ d _ => k arg d).Commits := by
  rw [parameter]
  split
  case h_1 => exact (Read.Commits.since _).andThen _
  case h_2 ha =>
    exact .done_andThen ((Read.Commits.expect (ahead_eq_token ha).1 rfl).andThen _)
  case h_3 =>
    split
    case isTrue => exact ((expression_commits c).andThen _).andThen _
    case isFalse => exact ((Read.Commits.refuse rfl).andThen _).andThen _

end Cursor

/-! ## Simulations -/

/-- The same is ahead of two cursors.  Behind a token the cursors are `Near` again, if it is not an
invalid one, and readings that are `Alike` behind it are so from here. -/
inductive SameAhead (Near : Cursor → Cursor → Prop)
    (Alike : {α : Type} → {c d : Cursor} → Read α c → Read α d → Prop) {c d : Cursor} :
    c.Ahead → d.Ahead → Prop
  | closing : SameAhead Near Alike .closing .closing
  | token {t : Token} {e f : Cursor} {he : e.size < c.size ∧ c.Leads e}
      {hf : f.size < d.size ∧ d.Leads f} (near : t.kind ≠ .error → Near e f)
      (since : ∀ {α : Type} {r : Read α e} {r' : Read α f}, Alike r r' →
        Alike (.since he r) (.since hf r'))
      (parts : t.kind ≠ .error → e.current ≠ f.current →
        ∀ {α : Type} {r : Read α e} (r' : Read α d), r.Commits → Alike (.since he r) r') :
      SameAhead Near Alike (.token t e he) (.token t f hf)

/-- Cursors and readings that go side by side. -/
structure Simulation where
  Near : Cursor → Cursor → Prop
  Alike : {α : Type} → {c d : Cursor} → Read α c → Read α d → Prop
  readTo_eq : ∀ {c d : Cursor}, Near c d → c.readTo = d.readTo
  done : ∀ {α : Type} {c d : Cursor} (a : α), Near c d →
    Alike (.done a : Read α c) (.done a : Read α d)
  fresh : ∀ {α : Type} {c d : Cursor} (a : NodeId → α), Near c d →
    Alike (.fresh a : Read α c) (.fresh a : Read α d)
  andThen : ∀ {α β : Type} {c d : Cursor} {r : Read α c} {r' : Read α d}
    {k : α → (e : Cursor) → e.size ≤ c.size → Read β e}
    {k' : α → (f : Cursor) → f.size ≤ d.size → Read β f},
    Alike r r' →
      (∀ a, Near r.next r'.next → Alike (k a r.next r.size_le) (k' a r'.next r'.size_le)) →
      Alike (r.andThen k) (r'.andThen k')
  refuse : ∀ {c d : Cursor} {x : Expectation}, Near c d → c.current = d.current →
    x.isConnective = false → Alike (c.refuse x) (d.refuse x)
  expect : ∀ {c d : Cursor} {kind : TokenKind}, Near c d → kind.isConnective →
    Alike (c.expect kind) (d.expect kind)
  /-- Either the same is ahead of both, or the second stands at a connective and the first is past
  comparison once a reading commits itself. -/
  look : ∀ {c d : Cursor}, Near c d →
    (c.current = d.current ∧ SameAhead Near Alike c.ahead d.ahead) ∨
      (d.current.kind.isConnective ∧
        ∀ {α : Type} {r : Read α c} (r' : Read α d), r.Commits → Alike r r')

namespace Simulation

variable (S : Simulation) {c d : Cursor}

/-- The second cursor is not at a connective of its own. -/
def InStep (c d : Cursor) : Prop :=
  c.current = d.current ∧ SameAhead S.Near S.Alike c.ahead d.ahead

theorem bind {α β : Type} {r : Read α c} {r' : Read α d}
    {k : α → (e : Cursor) → e.size ≤ c.size → Read β e}
    {k' : α → (f : Cursor) → f.size ≤ d.size → Read β f} (hr : S.Alike r r')
    (hk : ∀ a e f he hf, S.Near e f → S.Alike (k a e he) (k' a f hf)) :
    S.Alike (r.andThen k) (r'.andThen k') :=
  S.andThen hr fun _ hn => hk _ _ _ _ _ hn

theorem refused {α : Type} (x : Expectation) (z : (e : Cursor) → Read α e) (hn : S.Near c d)
    (hc : c.current = d.current) (hx : x.isConnective = false) (hz : S.Alike (z c) (z d)) :
    S.Alike ((c.refuse x).andThen fun _ e _ => z e) ((d.refuse x).andThen fun _ f _ => z f) :=
  S.andThen (S.refuse hn hc hx) fun _ _ => hz

theorem done_eq {α : Type} {a b : α} (hn : S.Near c d) (h : a = b) :
    S.Alike (.done a : Read α c) (.done b : Read α d) :=
  h ▸ S.done a hn

theorem spanSince_eq (hn : S.Near c d) (s : Span) : c.spanSince s = d.spanSince s := by
  rw [Cursor.spanSince, Cursor.spanSince, S.readTo_eq hn]

/-! ## Expressions and parameters -/

open Cursor

/-- A parameter in brackets goes side by side if a parameter does. -/
theorem argument_alike {α : Type} {k : Param → (e : Cursor) → Read α e} (hn : S.Near c d)
    (hp : S.InStep c d → S.Alike (parameter c) (parameter d))
    (hk : ∀ arg e f, S.Near e f → S.Alike (k arg e) (k arg f)) :
    S.Alike
      ((parameter c).andThen fun arg e _ => (e.expect .rightBracket).andThen fun _ e _ => k arg e)
      ((parameter d).andThen fun arg f _ =>
        (f.expect .rightBracket).andThen fun _ f _ => k arg f) := by
  rcases S.look hn with hs | ⟨-, ho⟩
  · refine S.bind (hp hs) fun arg e f _ _ hn => ?_
    exact S.bind (S.expect hn rfl) fun _ e f _ _ hn => hk arg e f hn
  · exact ho _ (argument_commits c k)

/-- A name that is read or refused goes side by side with itself if what comes then does. -/
theorem named_alike {α : Type} {k : Occurrence → (e : Cursor) → Read α e}
    {z : (e : Cursor) → Read α e} (hn : S.Near c d)
    (hk : ∀ name e f, S.Near e f → S.Alike (k name e) (k name f)) (hz : S.Alike (z c) (z d)) :
    S.Alike
      (match c.ahead with
      | .token ⟨.identifier, spelling, span⟩ _ h =>
        .since h <| (occurrence ⟨.identifier, spelling, span⟩).andThen fun name e _ => k name e
      | _ => (c.refuse (.token .identifier)).andThen fun _ e _ => z e)
      (match d.ahead with
      | .token ⟨.identifier, spelling, span⟩ _ h =>
        .since h <| (occurrence ⟨.identifier, spelling, span⟩).andThen fun name f _ => k name f
      | _ => (d.refuse (.token .identifier)).andThen fun _ f _ => z f) := by
  rcases S.look hn with ⟨hc, hs⟩ | ⟨-, ho⟩
  · have hr := S.refused (.token .identifier) z hn hc rfl hz
    generalize c.ahead = x, d.ahead = y at hs
    cases hs with
    | closing => exact hr
    | @token t e f he hf near since =>
      obtain ⟨kind, spelling, span⟩ := t
      cases kind
      case identifier =>
        exact since (S.bind (S.fresh _ (near (by simp))) fun name e f _ _ hn => hk name e f hn)
      all_goals exact hr
  · split
    · exact ho _ (.since _)
    · exact ho _ ((Read.Commits.refuse rfl).andThen _)

mutual

theorem expression_alike {c d : Cursor} (hn : S.Near c d) :
    S.Alike (expression c) (expression d) := by
  rw [expression, expression]
  exact S.bind (primary_alike hn) fun left e f he hf hn => operands_alike left hn
  termination_by 3 * c.size + 1
  decreasing_by all_goals omega

theorem operands_alike {c d : Cursor} (left : Expr) (hn : S.Near c d) :
    S.Alike (operands left c) (operands left d) := by
  rcases S.look hn with ⟨-, hs⟩ | ⟨hk, ho⟩
  · rw [operands, operands]
    generalize c.ahead = x, d.ahead = y at hs
    cases hs with
    | closing => exact S.done left hn
    | @token t e f he hf near since =>
      obtain ⟨kind, spelling, span⟩ := t
      cases kind
      case operator =>
        refine since (S.bind (S.fresh _ (near (by simp))) fun op e f _ _ hn => ?_)
        refine S.bind (primary_alike hn) fun right e f _ _ hn => ?_
        exact operands_alike _ hn
      all_goals exact S.done left hn
  · have hd : d.current.kind ≠ .operator := fun h => by rw [h] at hk; cases hk
    rw [operands, operands_of_current_ne hd]
    split
    · exact ho _ (.since _)
    · exact S.done left hn
  termination_by 3 * c.size
  decreasing_by all_goals omega

theorem primary_alike {c d : Cursor} (hn : S.Near c d) : S.Alike (primary c) (primary d) := by
  rcases S.look hn with ⟨hc, hs⟩ | ⟨-, ho⟩
  · have hr := S.refused .expression (fun e => .done (Expr.error e.current.span)) hn hc rfl
      (S.done_eq hn (by rw [hc]))
    rw [primary, primary]
    generalize c.ahead = x, d.ahead = y at hs
    cases hs with
    | closing => exact hr
    | @token t e f he hf near since =>
      obtain ⟨kind, spelling, span⟩ := t
      cases kind
      case intLiteral => exact since (S.done _ (near (by simp)))
      case charLiteral => exact since (S.done _ (near (by simp)))
      case operator =>
        refine since (S.bind (S.fresh _ (near (by simp))) fun op e f _ _ hn => ?_)
        refine S.bind (primary_alike hn) fun operand e f _ _ hn => ?_
        exact S.done_eq hn (by rw [S.spanSince_eq hn])
      case leftBracket =>
        refine since (S.bind (expression_alike (near (by simp))) fun inner e f _ _ hn => ?_)
        exact S.bind (S.expect hn rfl) fun _ e f _ _ hn => S.done inner hn
      case identifier =>
        refine since (S.bind (S.fresh _ (near (by simp))) fun name e f _ _ hn => ?_)
        rcases S.look hn with ⟨-, hs⟩ | ⟨hk, ho⟩
        · generalize e.ahead = x, f.ahead = y at hs
          cases hs with
          | closing => exact S.done_eq hn (by rw [S.spanSince_eq hn])
          | @token t e' f' he' hf' near since =>
            obtain ⟨kind, _, _⟩ := t
            cases kind
            case leftBracket =>
              refine since (S.argument_alike (near (by simp)) (parameter_alike (near (by simp))) ?_)
              exact fun arg e f hn => S.done_eq hn (by rw [S.spanSince_eq hn])
            all_goals exact S.done_eq hn (by rw [S.spanSince_eq hn])
        · split
          · exact ho _ (.since _)
          · split
            case h_1 ha => cases isConnective_of_ahead ha hk
            case h_2 => exact S.done_eq hn (by rw [S.spanSince_eq hn])
      all_goals exact hr
  · exact ho _ (primary_commits c)
  termination_by 3 * c.size
  decreasing_by all_goals omega

theorem parameter_alike {c d : Cursor} (hn : S.Near c d) (hs : S.InStep c d) :
    S.Alike (parameter c) (parameter d) := by
  obtain ⟨hc, hs⟩ := hs
  -- Unless a variable is passed or nothing at all, the parameter is an expression or is refused.
  have hv : S.Alike
      (if c.current.kind.startsExpression then
        (expression c).andThen fun expr _ _ => .done (Param.value expr.span expr)
      else (c.refuse .parameter).andThen fun _ e _ => .done (.error e.current.span))
      (if d.current.kind.startsExpression then
        (expression d).andThen fun expr _ _ => .done (.value expr.span expr)
      else (d.refuse .parameter).andThen fun _ f _ => .done (.error f.current.span)) := by
    rw [← hc]
    split
    · exact S.bind (expression_alike hn) fun expr e f _ _ hn => S.done _ hn
    · exact S.refused .parameter (fun e => .done (Param.error e.current.span)) hn hc rfl
        (S.done_eq hn (by rw [hc]))
  rw [parameter, parameter]
  generalize c.ahead = x, d.ahead = y at hs
  cases hs with
  | closing => exact hv
  | @token t e f he hf near since =>
    obtain ⟨kind, spelling, span⟩ := t
    cases kind
    case rightBracket => exact S.done _ hn
    case kwVar =>
      refine since (S.named_alike (near (by simp)) (fun name e f hn => ?_) ?_)
      · exact S.done_eq hn (by rw [S.spanSince_eq hn])
      · exact S.done_eq (near (by simp)) (by rw [S.spanSince_eq (near (by simp))])
    all_goals exact hv
  termination_by 3 * c.size + 2
  decreasing_by all_goals omega

end

/-! ## Declarations -/

theorem singleDeclaration_alike (hn : S.Near c d) :
    S.Alike (singleDeclaration c) (singleDeclaration d) := by
  rcases S.look hn with ⟨hc, hs⟩ | ⟨-, ho⟩
  · have hr := S.refused .declaration (fun e => .fresh fun id => Decl.error id e.current.span)
      hn hc rfl (by rw [hc]; exact S.fresh _ hn)
    rw [singleDeclaration, singleDeclaration]
    generalize c.ahead = x, d.ahead = y at hs
    cases hs with
    | closing => exact hr
    | @token t e f he hf near since =>
      obtain ⟨kind, spelling, start⟩ := t
      cases kind
      case kwConst =>
        refine since (S.named_alike (near (by simp)) (fun name e f hn => ?_) (S.fresh _ (near (by simp))))
        refine S.bind (S.expect hn rfl) fun _ e f _ _ hn => ?_
        refine S.bind (S.expression_alike hn) fun value e f _ _ hn => ?_
        rw [S.spanSince_eq hn]
        exact S.fresh _ hn
      case identifier =>
        refine since (S.bind (S.fresh _ (near (by simp))) fun type e f _ _ hn => ?_)
        refine S.named_alike hn (fun name e f hn => ?_) ?_
        · rw [S.spanSince_eq hn]
          exact S.fresh _ hn
        · rw [S.spanSince_eq hn]
          exact S.fresh _ hn
      all_goals exact hr
  · exact ho _ (singleDeclaration_commits c)

theorem moreDeclarations_alike {c d : Cursor} (hn : S.Near c d) :
    S.Alike (moreDeclarations c) (moreDeclarations d) := by
  rcases S.look hn with ⟨-, hs⟩ | ⟨hk, ho⟩
  · rw [moreDeclarations, moreDeclarations]
    generalize c.ahead = x, d.ahead = y at hs
    cases hs with
    | closing => exact S.done _ hn
    | @token t e f he hf near since parts =>
      obtain ⟨kind, _, _⟩ := t
      cases kind
      case semicolon =>
        by_cases hc : e.current = f.current
        · dsimp only
          rw [← hc]
          split
          · refine since (S.bind (S.singleDeclaration_alike (near (by simp)))
              fun decl e f _ _ hn => ?_)
            exact S.bind (moreDeclarations_alike hn) fun decls e f _ _ hn => S.done _ hn
          · exact S.done _ hn
        · -- The cursors part behind the semicolon, so only the first reading may go on there.
          have hk := ((S.look (near (by simp))).resolve_left fun h => hc h.1).1
          dsimp only
          rw [if_neg (c := f.current.kind.startsDeclaration)
            (by simp [TokenKind.startsDeclaration_of_isConnective hk])]
          split
          · exact parts (by simp) hc _ ((singleDeclaration_commits e).andThen _)
          · exact S.done _ hn
      all_goals exact S.done _ hn
  · have hd : d.current.kind ≠ .semicolon := fun h => by rw [h] at hk; cases hk
    rw [moreDeclarations, moreDeclarations_of_current_ne hd]
    split
    · split
      · exact ho _ (.since _)
      · exact S.done _ hn
    · exact S.done _ hn
  termination_by c.size
  decreasing_by all_goals omega

theorem declaration_alike (hn : S.Near c d) : S.Alike (declaration c) (declaration d) := by
  rw [declaration, declaration]
  refine S.bind (S.singleDeclaration_alike hn) fun first e f _ _ hn => ?_
  refine S.bind (S.moreDeclarations_alike hn) fun rest e f _ _ hn => ?_
  split
  · exact S.done _ hn
  · exact S.fresh _ hn

/-! ## Commands -/

mutual

theorem singleCommand_alike {c d : Cursor} (hn : S.Near c d) :
    S.Alike (singleCommand c) (singleCommand d) := by
  rcases S.look hn with ⟨hc, hs⟩ | ⟨-, ho⟩
  · have hr := S.refused .command (fun e => .done (Command.error e.current.span)) hn hc rfl
      (S.done_eq hn (by rw [hc]))
    rw [singleCommand, singleCommand]
    generalize c.ahead = x, d.ahead = y at hs
    cases hs with
    | closing => exact hr
    | @token t e f he hf near since =>
      obtain ⟨kind, spelling, start⟩ := t
      cases kind
      case identifier =>
        refine since (S.bind (S.fresh _ (near (by simp))) fun name e f _ _ hn => ?_)
        rcases S.look hn with ⟨hc, hs⟩ | ⟨-, ho⟩
        · have hr := S.refused .assignmentOrCall (fun _ => .done (Command.error start)) hn hc rfl
            (S.done _ hn)
          generalize e.ahead = x, f.ahead = y at hs
          cases hs with
          | closing => exact hr
          | @token t e' f' he' hf' near since =>
            obtain ⟨kind, _, _⟩ := t
            cases kind
            case becomes =>
              refine since (S.bind (S.expression_alike (near (by simp))) fun value e f _ _ hn => ?_)
              exact S.done_eq hn (by rw [S.spanSince_eq hn])
            case leftBracket =>
              refine since (S.argument_alike (near (by simp)) (S.parameter_alike (near (by simp))) ?_)
              exact fun arg e f hn => S.done_eq hn (by rw [S.spanSince_eq hn])
            all_goals exact hr
        · split
          case h_3 => exact ho _ ((Read.Commits.refuse rfl).andThen _)
          all_goals exact ho _ (.since _)
      case kwBegin =>
        refine since (S.bind (command_alike (near (by simp))) fun inner e f _ _ hn => ?_)
        exact S.bind (S.expect hn rfl) fun _ e f _ _ hn => S.done inner hn
      case kwLet =>
        refine since (S.bind (S.declaration_alike (near (by simp))) fun decl e f _ _ hn => ?_)
        refine S.bind (S.expect hn rfl) fun _ e f _ _ hn => ?_
        refine S.bind (singleCommand_alike hn) fun body e f _ _ hn => ?_
        exact S.done_eq hn (by rw [S.spanSince_eq hn])
      case kwIf =>
        refine since (S.bind (S.expression_alike (near (by simp))) fun cond e f _ _ hn => ?_)
        refine S.bind (S.expect hn rfl) fun _ e f _ _ hn => ?_
        refine S.bind (singleCommand_alike hn) fun thenBranch e f _ _ hn => ?_
        rcases S.look hn with ⟨hc, hs⟩ | ⟨-, ho⟩
        · have hr := S.refused .elseBranch (fun _ => .done (Command.error start)) hn hc rfl
            (S.done _ hn)
          generalize e.ahead = x, f.ahead = y at hs
          cases hs with
          | closing => exact hr
          | @token t e' f' he' hf' near since =>
            obtain ⟨kind, _, _⟩ := t
            cases kind
            case kwElse =>
              refine since (S.bind (singleCommand_alike (near (by simp)))
                fun elseBranch e f _ _ hn => ?_)
              exact S.done_eq hn (by rw [S.spanSince_eq hn])
            case kwNoElse =>
              refine since (S.done_eq (near (by simp)) ?_)
              rw [S.spanSince_eq (near (by simp))]
            all_goals exact hr
        · split
          case h_3 => exact ho _ ((Read.Commits.refuse rfl).andThen _)
          all_goals exact ho _ (.since _)
      case kwWhile =>
        refine since (S.bind (S.expression_alike (near (by simp))) fun cond e f _ _ hn => ?_)
        refine S.bind (S.expect hn rfl) fun _ e f _ _ hn => ?_
        refine S.bind (singleCommand_alike hn) fun body e f _ _ hn => ?_
        exact S.done_eq hn (by rw [S.spanSince_eq hn])
      case kwRepeat =>
        refine since (S.bind (singleCommand_alike (near (by simp))) fun body e f _ _ hn => ?_)
        refine S.bind (S.expect hn rfl) fun _ e f _ _ hn => ?_
        refine S.bind (S.expression_alike hn) fun cond e f _ _ hn => ?_
        exact S.done_eq hn (by rw [S.spanSince_eq hn])
      case kwNothing => exact since (S.done _ (near (by simp)))
      all_goals exact hr
  · exact ho _ (singleCommand_commits c)
  termination_by 2 * c.size
  decreasing_by all_goals omega

theorem moreCommands_alike {c d : Cursor} (hn : S.Near c d) :
    S.Alike (moreCommands c) (moreCommands d) := by
  rcases S.look hn with ⟨-, hs⟩ | ⟨hk, ho⟩
  · rw [moreCommands, moreCommands]
    generalize c.ahead = x, d.ahead = y at hs
    cases hs with
    | closing => exact S.done _ hn
    | @token t e f he hf near since parts =>
      obtain ⟨kind, _, _⟩ := t
      cases kind
      case semicolon =>
        by_cases hc : e.current = f.current
        · dsimp only
          rw [← hc]
          split
          · refine since (S.bind (singleCommand_alike (near (by simp))) fun first e f _ _ hn => ?_)
            exact S.bind (moreCommands_alike hn) fun rest e f _ _ hn => S.done _ hn
          · exact S.done _ hn
        · have hk := ((S.look (near (by simp))).resolve_left fun h => hc h.1).1
          dsimp only
          rw [if_neg (c := f.current.kind.startsCommand)
            (by simp [TokenKind.startsCommand_of_isConnective hk])]
          split
          · exact parts (by simp) hc _ ((singleCommand_commits e).andThen _)
          · exact S.done _ hn
      all_goals exact S.done _ hn
  · have hd : d.current.kind ≠ .semicolon := fun h => by rw [h] at hk; cases hk
    rw [moreCommands, moreCommands_of_current_ne hd]
    split
    · split
      · exact ho _ (.since _)
      · exact S.done _ hn
    · exact S.done _ hn
  termination_by 2 * c.size
  decreasing_by all_goals omega

theorem command_alike {c d : Cursor} (hn : S.Near c d) : S.Alike (command c) (command d) := by
  rw [command, command]
  refine S.bind (singleCommand_alike hn) fun first e f he hf hn => ?_
  refine S.bind (moreCommands_alike hn) fun rest e f _ _ hn => ?_
  split
  · exact S.done _ hn
  · exact S.done _ hn
  termination_by 2 * c.size + 1
  decreasing_by all_goals omega

end

end Simulation

end TriLang
