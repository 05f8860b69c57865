import TriLang.Cursor.Command
import TriLang.Proofs.Grammar

/-!
# Outcomes of readings

`p.Outcome c t d fs` says that a phrase `p` is read at the cursor `c` as the tree `t`, up to the
cursor `d`, and that the faults `fs` are met on the way.  There is one rule for each way that a
reading can go, also for those that recover from a fault.  Every reading has an outcome of this
kind, so what all rules keep is kept by every reading.
-/

namespace TriLang

/-! ## Steps of a cursor -/

namespace Cursor

/-- `d` is `c` behind the token `t`, which is of the given kind. -/
structure Steps (c : Cursor) (kind : TokenKind) (t : Token) (d : Cursor) : Prop where
  kind_eq : t.kind = kind
  pending_eq : c.pending = t :: d.pending
  eq_past : d = c.past t d.pending

/-- The cursor once it has handed out an id. -/
def handOut (c : Cursor) : Cursor := { c with issued := c.issued + 1 }

/-- The token under `c` is passed as the occurrence `o`, and `d` is the cursor behind it. -/
inductive Occurs (c : Cursor) (kind : TokenKind) : Occurrence → Cursor → Prop
  | intro {t d} (step : c.Steps kind t d) : Occurs c kind ⟨d.nextId, t.spelling, t.span⟩ d.handOut

/-- That `x` is missing at `c`. -/
def fault (c : Cursor) (x : Expectation) : Fault := ⟨c.index, x, c.current⟩

/-- A token of the given kind is passed, or missed and reported. -/
inductive Expects (c : Cursor) (kind : TokenKind) : Cursor → List Fault → Prop
  | met (h : c.current.kind = kind) : Expects c kind c.stepOver []
  | missed (h : c.current.kind ≠ kind) : Expects c kind c [c.fault (.token kind)]

theorem Steps.of_ahead {c d : Cursor} {t : Token} {h : d.size < c.size ∧ c.Leads d}
    (ha : c.ahead = .token t d h) : c.Steps t.kind t d :=
  ⟨rfl, (ahead_eq_token ha).1, (ahead_eq_token ha).2⟩

theorem Steps.current_eq {c d : Cursor} {kind : TokenKind} {t : Token} (h : c.Steps kind t d) :
    c.current = t := current_of_pending h.pending_eq

end Cursor

/-! ## Outcomes -/

namespace Phrase

open Cursor

inductive Outcome : (p : Phrase) → Cursor → p.Tree → Cursor → List Fault → Prop
  | lone {c d e x fs gs} (first : Outcome singleCommand c x d fs)
      (more : Outcome moreCommands d [] e gs) : Outcome command c x e (fs ++ gs)
  | sequence {c d e x xs y fs gs} (first : Outcome singleCommand c x d fs)
      (more : Outcome moreCommands d xs e gs) (last : xs.getLast? = some y) :
      Outcome command c (.sequence (x.span.join y.span) (x :: xs)) e (fs ++ gs)
  | noMore {c} : Outcome moreCommands c [] c []
  | more {c d e f t x xs fs gs} (semicolon : c.Steps .semicolon t d)
      (first : Outcome singleCommand d x e fs) (rest : Outcome moreCommands e xs f gs) :
      Outcome moreCommands c (x :: xs) f (fs ++ gs)
  | assign {c d e f o t x fs} (name : c.Occurs .identifier o d) (becomes : d.Steps .becomes t e)
      (value : Outcome expression e x f fs) :
      Outcome singleCommand c (.assign (f.spanSince o.span) o x) f fs
  | call {c d e f g o t q fs gs} (name : c.Occurs .identifier o d)
      (left : d.Steps .leftBracket t e) (arg : Outcome parameter e q f fs)
      (right : f.Expects .rightBracket g gs) :
      Outcome singleCommand c (.call (g.spanSince o.span) o q) g (fs ++ gs)
  /-- A name that is neither assigned nor called. -/
  | bareName {c d o} (name : c.Occurs .identifier o d) :
      Outcome singleCommand c (.error o.span) d [d.fault .assignmentOrCall]
  | block {c d e f t x fs gs} (left : c.Steps .kwBegin t d) (inner : Outcome command d x e fs)
      (right : e.Expects .kwEnd f gs) : Outcome singleCommand c x f (fs ++ gs)
  | letIn {c d e f g t x y fs gs hs} (kwLet : c.Steps .kwLet t d)
      (decl : Outcome declaration d x e fs) (kwIn : e.Expects .kwIn f gs)
      (body : Outcome singleCommand f y g hs) :
      Outcome singleCommand c (.letIn (g.spanSince t.span) x y) g (fs ++ (gs ++ hs))
  | ifElse {c d e f g h i t u x y z fs gs hs is} (kwIf : c.Steps .kwIf t d)
      (cond : Outcome expression d x e fs) (kwThen : e.Expects .kwThen f gs)
      (thenBranch : Outcome singleCommand f y g hs) (kwElse : g.Steps .kwElse u h)
      (elseBranch : Outcome singleCommand h z i is) :
      Outcome singleCommand c (.ifElse (i.spanSince t.span) x y z) i (fs ++ (gs ++ (hs ++ is)))
  | ifNoElse {c d e f g h t u x y fs gs hs} (kwIf : c.Steps .kwIf t d)
      (cond : Outcome expression d x e fs) (kwThen : e.Expects .kwThen f gs)
      (thenBranch : Outcome singleCommand f y g hs) (kwNoElse : g.Steps .kwNoElse u h) :
      Outcome singleCommand c (.ifNoElse (h.spanSince t.span) x y) h (fs ++ (gs ++ hs))
  /-- A first branch that nothing ends. -/
  | openIf {c d e f g t x y fs gs hs} (kwIf : c.Steps .kwIf t d)
      (cond : Outcome expression d x e fs) (kwThen : e.Expects .kwThen f gs)
      (thenBranch : Outcome singleCommand f y g hs) :
      Outcome singleCommand c (.error t.span) g (fs ++ (gs ++ (hs ++ [g.fault .elseBranch])))
  | whileDo {c d e f g t x y fs gs hs} (kwWhile : c.Steps .kwWhile t d)
      (cond : Outcome expression d x e fs) (kwDo : e.Expects .kwDo f gs)
      (body : Outcome singleCommand f y g hs) :
      Outcome singleCommand c (.whileDo (g.spanSince t.span) x y) g (fs ++ (gs ++ hs))
  | repeatUntil {c d e f g t x y fs gs hs} (kwRepeat : c.Steps .kwRepeat t d)
      (body : Outcome singleCommand d x e fs) (kwUntil : e.Expects .kwUntil f gs)
      (cond : Outcome expression f y g hs) :
      Outcome singleCommand c (.repeatUntil (g.spanSince t.span) x y) g (fs ++ (gs ++ hs))
  | blank {c d t} (kwNothing : c.Steps .kwNothing t d) :
      Outcome singleCommand c (.blank t.span) d []
  | noCommand {c} : Outcome singleCommand c (.error c.current.span) c [c.fault .command]
  | loneDeclaration {c d e x fs gs} (first : Outcome singleDeclaration c x d fs)
      (more : Outcome moreDeclarations d [] e gs) : Outcome declaration c x e (fs ++ gs)
  | declarationSequence {c d e x xs y fs gs} (first : Outcome singleDeclaration c x d fs)
      (more : Outcome moreDeclarations d xs e gs) (last : xs.getLast? = some y) :
      Outcome declaration c (.sequence e.nextId (x.span.join y.span) (x :: xs)) e.handOut
        (fs ++ gs)
  | noMoreDeclarations {c} : Outcome moreDeclarations c [] c []
  | moreDeclarations {c d e f t x xs fs gs} (semicolon : c.Steps .semicolon t d)
      (first : Outcome singleDeclaration d x e fs) (rest : Outcome moreDeclarations e xs f gs) :
      Outcome moreDeclarations c (x :: xs) f (fs ++ gs)
  | const {c d e f g t o x fs gs} (kwConst : c.Steps .kwConst t d)
      (name : d.Occurs .identifier o e) (kwIs : e.Expects .kwIs f fs)
      (value : Outcome expression f x g gs) :
      Outcome singleDeclaration c (.const g.nextId (g.spanSince t.span) o x) g.handOut (fs ++ gs)
  | unnamedConst {c d t} (kwConst : c.Steps .kwConst t d) :
      Outcome singleDeclaration c (.error d.nextId t.span) d.handOut
        [d.fault (.token .identifier)]
  | var {c d e o n} (type : c.Occurs .identifier o d) (name : d.Occurs .identifier n e) :
      Outcome singleDeclaration c (.var e.nextId (e.spanSince o.span) o n) e.handOut []
  | unnamedVar {c d o} (type : c.Occurs .identifier o d) :
      Outcome singleDeclaration c (.error d.nextId (d.spanSince o.span)) d.handOut
        [d.fault (.token .identifier)]
  | noDeclaration {c} :
      Outcome singleDeclaration c (.error c.nextId c.current.span) c.handOut [c.fault .declaration]
  | operand {c d x fs} (only : Outcome primary c x d fs) : Outcome expression c x d fs
  | binary {c d e f x o y fs gs} (left : Outcome expression c x d fs)
      (op : d.Occurs .operator o e) (right : Outcome primary e y f gs) :
      Outcome expression c (.binary (x.span.join y.span) x o y) f (fs ++ gs)
  | integer {c d t} (literal : c.Steps .intLiteral t d) :
      Outcome primary c (.integer t.span t.spelling) d []
  | character {c d t} (literal : c.Steps .charLiteral t d) :
      Outcome primary c (.character t.span t.spelling) d []
  | name {c d o} (name : c.Occurs .identifier o d) :
      Outcome primary c (.name (d.spanSince o.span) o) d []
  | apply {c d e f g o t q fs gs} (name : c.Occurs .identifier o d)
      (left : d.Steps .leftBracket t e) (arg : Outcome parameter e q f fs)
      (right : f.Expects .rightBracket g gs) :
      Outcome primary c (.apply (g.spanSince o.span) o q) g (fs ++ gs)
  | unary {c d e o x fs} (op : c.Occurs .operator o d) (operand : Outcome primary d x e fs) :
      Outcome primary c (.unary (e.spanSince o.span) o x) e fs
  | bracketed {c d e f t x fs gs} (left : c.Steps .leftBracket t d)
      (inner : Outcome expression d x e fs) (right : e.Expects .rightBracket f gs) :
      Outcome primary c x f (fs ++ gs)
  | noExpression {c} : Outcome primary c (.error c.current.span) c [c.fault .expression]
  | varParameter {c d e t o} (kwVar : c.Steps .kwVar t d) (name : d.Occurs .identifier o e) :
      Outcome parameter c (.var (e.spanSince t.span) o) e []
  | unnamedVarParameter {c d t} (kwVar : c.Steps .kwVar t d) :
      Outcome parameter c (.error (d.spanSince t.span)) d [d.fault (.token .identifier)]
  | noParameter {c} (right : c.current.kind = .rightBracket) :
      Outcome parameter c (.blank (.empty c.current.span.start)) c []
  | value {c d x fs} (expr : Outcome expression c x d fs) :
      Outcome parameter c (.value x.span x) d fs
  | refusedParameter {c} : Outcome parameter c (.error c.current.span) c [c.fault .parameter]

end Phrase

/-! ## Rules for readings -/

namespace Read

variable {α β : Type} {c d : Cursor} {P : α → Cursor → List Fault → Prop}
  {Q : β → Cursor → List Fault → Prop}

/-- The node of `r`, the cursor behind it and the faults met are related by `P`. -/
def Yields (r : Read α c) (P : α → Cursor → List Fault → Prop) : Prop := P r.node r.next r.faults

namespace Yields

theorem andThen {r : Read α c} {k : α → (d : Cursor) → d.size ≤ c.size → Read β d}
    (h : r.Yields P)
    (hk : ∀ a d hd fs, P a d fs → (k a d hd).Yields fun b e gs => Q b e (fs ++ gs)) :
    (r.andThen k).Yields Q := hk r.node r.next r.size_le r.faults h

/-- What is only put together adds no fault. -/
theorem andThen_done {r : Read α c} {g : α → Cursor → β} (h : r.Yields P)
    (hg : ∀ a d fs, P a d fs → Q (g a d) d fs) :
    (r.andThen fun a d _ => .done (g a d)).Yields Q :=
  h.andThen fun a d _ fs ha => by simpa [Yields, Read.done] using hg a d fs ha

theorem andThen_fresh {r : Read α c} {g : α → Cursor → NodeId → β} (h : r.Yields P)
    (hg : ∀ a d fs, P a d fs → Q (g a d d.nextId) d.handOut fs) :
    (r.andThen fun a d _ => .fresh (g a d)).Yields Q :=
  h.andThen fun a d _ fs ha => by simpa [Yields, Read.fresh, Cursor.handOut] using hg a d fs ha

theorem since {h : d.size < c.size ∧ c.Leads d} {r : Read α d} (hr : r.Yields P) :
    (Read.since h r).Yields P := hr

theorem refuse (x : Expectation) :
    (c.refuse x).Yields fun _ d fs => d = c ∧ fs = [c.fault x] := ⟨rfl, rfl⟩

theorem expect (kind : TokenKind) : (c.expect kind).Yields fun _ d fs => c.Expects kind d fs := by
  unfold Cursor.expect
  split
  case isTrue h => exact .met h
  case isFalse h => exact .missed h

/-- A token ahead is passed as an occurrence. -/
theorem occurrence {kind : TokenKind} {spelling : String} {span : Span}
    {h : d.size < c.size ∧ c.Leads d} {k : Occurrence → (e : Cursor) → e.size ≤ d.size → Read β e}
    (ha : c.ahead = .token ⟨kind, spelling, span⟩ d h)
    (hk : ∀ o e he, c.Occurs kind o e → o.span = span → (k o e he).Yields Q) :
    (Read.since h ((Cursor.occurrence ⟨kind, spelling, span⟩).andThen k)).Yields Q :=
  hk ⟨d.nextId, spelling, span⟩ d.handOut (Nat.le_refl _) (.intro (.of_ahead ha)) rfl

end Yields

end Read

/-! ## Every reading has an outcome -/

namespace Cursor

open Phrase

mutual

theorem expression_outcome (c : Cursor) : (expression c).Yields (Outcome .expression c) := by
  rw [expression]
  exact (primary_outcome c).andThen fun left d _ fs h => operands_outcome (.operand h)
  termination_by 3 * c.size + 1
  decreasing_by all_goals omega

/-- Operands go on with the expression read before them. -/
theorem operands_outcome {c d : Cursor} {left : Expr} {fs : List Fault}
    (hl : Outcome .expression c left d fs) :
    (operands left d).Yields fun x e gs => Outcome .expression c x e (fs ++ gs) := by
  rw [operands]
  split
  case h_1 spelling span e h ha =>
    refine .occurrence ha fun op e he ho _ => ?_
    refine (primary_outcome e).andThen fun right f hf gs hr => ?_
    simpa using operands_outcome (.binary hl ho hr)
  case h_2 => simpa [Read.Yields, Read.done] using hl
  termination_by 3 * d.size
  decreasing_by all_goals omega

theorem primary_outcome (c : Cursor) : (primary c).Yields (Outcome .primary c) := by
  rw [primary]
  split
  case h_1 ha => exact .integer (.of_ahead ha)
  case h_2 ha => exact .character (.of_ahead ha)
  case h_3 spelling span d h ha =>
    refine .occurrence ha fun name e he hn hs => ?_
    subst hs
    split
    case h_1 f h' ha =>
      refine .since ((parameter_outcome f).andThen fun arg g hg fs hq => ?_)
      exact (Read.Yields.expect _).andThen_done fun _ _ _ hr => .apply hn (.of_ahead ha) hq hr
    case h_2 => exact .name hn
  case h_4 spelling span d h ha =>
    refine .occurrence ha fun op e he ho hs => ?_
    subst hs
    exact (primary_outcome e).andThen_done fun _ _ _ hx => .unary ho hx
  case h_5 d h ha =>
    refine .since ((expression_outcome d).andThen fun inner e he fs hx => ?_)
    exact (Read.Yields.expect _).andThen_done fun _ _ _ hr => .bracketed (.of_ahead ha) hx hr
  case h_6 =>
    refine (Read.Yields.refuse _).andThen_done ?_
    rintro _ _ _ ⟨rfl, rfl⟩
    exact .noExpression
  termination_by 3 * c.size
  decreasing_by all_goals omega

theorem parameter_outcome (c : Cursor) : (parameter c).Yields (Outcome .parameter c) := by
  rw [parameter]
  split
  case h_1 spelling start d h ha =>
    refine .since ?_
    split
    case h_1 spelling span e h' ha' =>
      refine .occurrence ha' fun name f hf hn _ => ?_
      exact .varParameter (.of_ahead ha) hn
    case h_2 =>
      refine (Read.Yields.refuse _).andThen_done ?_
      rintro _ _ _ ⟨rfl, rfl⟩
      exact .unnamedVarParameter (.of_ahead ha)
  case h_2 d h ha =>
    have hc := (Steps.of_ahead ha).current_eq
    show Outcome .parameter c _ c []
    have := Outcome.noParameter (c := c) (by rw [hc])
    rwa [hc] at this
  case h_3 =>
    split
    case isTrue => exact (expression_outcome c).andThen_done fun _ _ _ hx => .value hx
    case isFalse =>
      refine (Read.Yields.refuse _).andThen_done ?_
      rintro _ _ _ ⟨rfl, rfl⟩
      exact .refusedParameter
  termination_by 3 * c.size + 2
  decreasing_by all_goals omega

end

theorem singleDeclaration_outcome (c : Cursor) :
    (singleDeclaration c).Yields (Outcome .singleDeclaration c) := by
  rw [singleDeclaration]
  split
  case h_1 constSpelling start d h ha =>
    refine .since ?_
    split
    case h_1 spelling span e h' ha' =>
      refine .occurrence ha' fun name f hf hn _ => ?_
      refine (Read.Yields.expect _).andThen fun _ g hg fs hi => ?_
      exact (expression_outcome g).andThen_fresh fun _ _ _ hx => .const (.of_ahead ha) hn hi hx
    case h_2 =>
      refine (Read.Yields.refuse _).andThen_fresh ?_
      rintro _ _ _ ⟨rfl, rfl⟩
      exact .unnamedConst (.of_ahead ha)
  case h_2 typeSpelling start d h ha =>
    refine .occurrence ha fun type d hd ht hs => ?_
    subst hs
    split
    case h_1 spelling span e h' ha' =>
      refine .occurrence ha' fun name f hf hn _ => ?_
      exact .var ht hn
    case h_2 =>
      refine (Read.Yields.refuse _).andThen_fresh ?_
      rintro _ _ _ ⟨rfl, rfl⟩
      exact .unnamedVar ht
  case h_3 =>
    refine (Read.Yields.refuse _).andThen_fresh ?_
    rintro _ _ _ ⟨rfl, rfl⟩
    exact .noDeclaration

theorem moreDeclarations_outcome (c : Cursor) :
    (moreDeclarations c).Yields (Outcome .moreDeclarations c) := by
  rw [moreDeclarations]
  split
  case h_1 spelling span d h ha =>
    split
    case isTrue =>
      refine .since ((singleDeclaration_outcome d).andThen fun first e he fs hf => ?_)
      exact (moreDeclarations_outcome e).andThen_done fun _ _ _ hr =>
        .moreDeclarations (.of_ahead ha) hf hr
    case isFalse => exact .noMoreDeclarations
  case h_2 => exact .noMoreDeclarations
  termination_by c.size
  decreasing_by all_goals omega

theorem declaration_outcome (c : Cursor) : (declaration c).Yields (Outcome .declaration c) := by
  rw [declaration]
  refine (singleDeclaration_outcome c).andThen fun first d hd fs hf => ?_
  refine (moreDeclarations_outcome d).andThen fun rest e he gs hr => ?_
  split
  case h_1 hl =>
    obtain rfl := List.getLast?_eq_none_iff.1 hl
    simpa [Read.Yields, Read.done] using Outcome.loneDeclaration hf hr
  case h_2 last hl =>
    simpa [Read.Yields, Read.fresh, handOut] using Outcome.declarationSequence hf hr hl

mutual

theorem singleCommand_outcome (c : Cursor) :
    (singleCommand c).Yields (Outcome .singleCommand c) := by
  rw [singleCommand]
  split
  case h_1 spelling start d h ha =>
    refine .occurrence ha fun name d hd hn hs => ?_
    subst hs
    split
    case h_1 e h' ha =>
      exact .since ((expression_outcome e).andThen_done fun _ _ _ hx =>
        .assign hn (.of_ahead ha) hx)
    case h_2 e h' ha =>
      refine .since ((parameter_outcome e).andThen fun arg f hf fs hq => ?_)
      exact (Read.Yields.expect _).andThen_done fun _ _ _ hr => .call hn (.of_ahead ha) hq hr
    case h_3 =>
      refine (Read.Yields.refuse _).andThen_done ?_
      rintro _ _ _ ⟨rfl, rfl⟩
      exact .bareName hn
  case h_2 d h ha =>
    refine .since ((command_outcome d).andThen fun inner e he fs hx => ?_)
    exact (Read.Yields.expect _).andThen_done fun _ _ _ hr => .block (.of_ahead ha) hx hr
  case h_3 start d h ha =>
    refine .since ((declaration_outcome d).andThen fun decl e he fs hx => ?_)
    refine (Read.Yields.expect _).andThen fun _ f hf gs hi => ?_
    exact (singleCommand_outcome f).andThen_done fun _ _ _ hb => .letIn (.of_ahead ha) hx hi hb
  case h_4 start d h ha =>
    refine .since ((expression_outcome d).andThen fun cond e he fs hx => ?_)
    refine (Read.Yields.expect _).andThen fun _ f hf gs ht => ?_
    refine (singleCommand_outcome f).andThen fun thenBranch g hg hs hy => ?_
    split
    case h_1 g' h' ha' =>
      exact .since ((singleCommand_outcome g').andThen_done fun _ _ _ hz =>
        .ifElse (.of_ahead ha) hx ht hy (.of_ahead ha') hz)
    case h_2 g' h' ha' =>
      refine .since ?_
      simpa [Read.Yields, Read.done] using
        Outcome.ifNoElse (.of_ahead ha) hx ht hy (.of_ahead ha')
    case h_3 =>
      refine (Read.Yields.refuse _).andThen_done ?_
      rintro _ _ _ ⟨rfl, rfl⟩
      exact .openIf (.of_ahead ha) hx ht hy
  case h_5 start d h ha =>
    refine .since ((expression_outcome d).andThen fun cond e he fs hx => ?_)
    refine (Read.Yields.expect _).andThen fun _ f hf gs hd => ?_
    exact (singleCommand_outcome f).andThen_done fun _ _ _ hb => .whileDo (.of_ahead ha) hx hd hb
  case h_6 start d h ha =>
    refine .since ((singleCommand_outcome d).andThen fun body e he fs hx => ?_)
    refine (Read.Yields.expect _).andThen fun _ f hf gs hu => ?_
    exact (expression_outcome f).andThen_done fun _ _ _ hc => .repeatUntil (.of_ahead ha) hx hu hc
  case h_7 ha => exact .blank (.of_ahead ha)
  case h_8 =>
    refine (Read.Yields.refuse _).andThen_done ?_
    rintro _ _ _ ⟨rfl, rfl⟩
    exact .noCommand
  termination_by 2 * c.size
  decreasing_by all_goals omega

theorem moreCommands_outcome (c : Cursor) :
    (moreCommands c).Yields (Outcome .moreCommands c) := by
  rw [moreCommands]
  split
  case h_1 spelling span d h ha =>
    split
    case isTrue =>
      refine .since ((singleCommand_outcome d).andThen fun first e he fs hf => ?_)
      exact (moreCommands_outcome e).andThen_done fun _ _ _ hr => .more (.of_ahead ha) hf hr
    case isFalse => exact .noMore
  case h_2 => exact .noMore
  termination_by 2 * c.size
  decreasing_by all_goals omega

theorem command_outcome (c : Cursor) : (command c).Yields (Outcome .command c) := by
  rw [command]
  refine (singleCommand_outcome c).andThen fun first d hd fs hf => ?_
  refine (moreCommands_outcome d).andThen fun rest e he gs hr => ?_
  split
  case h_1 hl =>
    obtain rfl := List.getLast?_eq_none_iff.1 hl
    simpa [Read.Yields, Read.done] using Outcome.lone hf hr
  case h_2 last hl =>
    simpa [Read.Yields, Read.done] using Outcome.sequence hf hr hl
  termination_by 2 * c.size + 1
  decreasing_by all_goals omega

end

end Cursor

end TriLang
