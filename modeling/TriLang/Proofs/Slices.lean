import TriLang.Proofs.Acceptance
import TriLang.Proofs.Outcome
import TriLang.Proofs.Stages

/-!
# Spans are slices

Every span that a run hands out marks a slice of the source text, also where the text is no
program.  A cursor keeps to the spans of tokens and to the ends of those that it has read, and all
spans of a tree are put together from these.
-/

namespace TriLang

/-! ## Slices -/

/-- `s` marks a slice of `source`. -/
structure Span.IsSliceOf (s : Span) (source : String) : Prop where
  start_le_stop : s.start ≤ s.stop
  stop_le : s.stop ≤ source.utf8ByteSize
  onBoundaries : s.OnBoundaries source

namespace Span

variable {source : String} {s t : Span} {n : Nat}

theorem OnBoundaries.isSliceOf (h : s.OnBoundaries source) (hle : s.start ≤ s.stop) :
    s.IsSliceOf source := ⟨hle, h.2.le_rawEndPos, h⟩

theorem isSliceOf_empty (h : String.Pos.Raw.IsValid source ⟨n⟩) : (empty n).IsSliceOf source :=
  OnBoundaries.isSliceOf ⟨h, h⟩ (Nat.le_refl n)

theorem IsSliceOf.join (hs : s.IsSliceOf source) (ht : t.IsSliceOf source) :
    (s.join t).IsSliceOf source := by
  -- The earlier of two boundaries is one of them, and so is the later.
  have hstart := min_rec' (String.Pos.Raw.IsValid source ⟨·⟩) hs.onBoundaries.1 ht.onBoundaries.1
  have hstop := max_rec' (String.Pos.Raw.IsValid source ⟨·⟩) hs.onBoundaries.2 ht.onBoundaries.2
  have hle := hs.start_le_stop
  exact OnBoundaries.isSliceOf ⟨hstart, hstop⟩ (by simp only [Span.join]; omega)

end Span

theorem Span.IsSliceOf.start_le {s : Span} {source : String} (h : s.IsSliceOf source) :
    s.start ≤ source.utf8ByteSize := Nat.le_trans h.start_le_stop h.stop_le

/-- All of `ss` mark slices of `source`. -/
def Slices (source : String) (ss : List Span) : Prop := ∀ s ∈ ss, s.IsSliceOf source

namespace Slices

variable {source : String} {s : Span} {ss ts : List Span}

theorem cons_iff : Slices source (s :: ss) ↔ s.IsSliceOf source ∧ Slices source ss :=
  List.forall_mem_cons

theorem append_iff : Slices source (ss ++ ts) ↔ Slices source ss ∧ Slices source ts :=
  List.forall_mem_append

theorem nil : Slices source [] := List.forall_mem_nil _

theorem cons (h : s.IsSliceOf source) (hs : Slices source ss) : Slices source (s :: ss) :=
  cons_iff.2 ⟨h, hs⟩

theorem append (hs : Slices source ss) (ht : Slices source ts) : Slices source (ss ++ ts) :=
  append_iff.2 ⟨hs, ht⟩

theorem singleton (h : s.IsSliceOf source) : Slices source [s] := cons h nil

end Slices

theorem Token.StandsIn.isSliceOf {source : String} {t : Token} (h : t.StandsIn source) :
    t.span.IsSliceOf source := h.2.1.isSliceOf (Nat.le_of_lt h.1)

/-! ## Spans of a tree -/

mutual

/-- The spans of all parts of an expression, of names and operators too. -/
def Expr.spans : Expr → List Span
  | .binary s left op right => s :: (left.spans ++ op.span :: right.spans)
  | .character s _ | .integer s _ | .error s => [s]
  | .name s name => [s, name.span]
  | .apply s name arg => s :: name.span :: arg.spans
  | .unary s op operand => s :: op.span :: operand.spans

def Param.spans : Param → List Span
  | .blank s | .error s => [s]
  | .value s expr => s :: expr.spans
  | .var s name => [s, name.span]

end

mutual

/-- The spans of all parts of a declaration, of names and types too. -/
def Decl.spans : Decl → List Span
  | .const _ s name value => s :: name.span :: value.spans
  | .var _ s type name => [s, type.span, name.span]
  | .sequence _ s items => s :: Decl.spansOfList items
  | .error _ s => [s]

def Decl.spansOfList : List Decl → List Span
  | [] => []
  | d :: ds => d.spans ++ Decl.spansOfList ds

end

mutual

/-- The spans of all parts of a command. -/
def Command.spans : Command → List Span
  | .assign s target value => s :: target.span :: value.spans
  | .blank s | .error s => [s]
  | .call s callee arg => s :: callee.span :: arg.spans
  | .ifElse s cond thenBranch elseBranch =>
    s :: (cond.spans ++ (thenBranch.spans ++ elseBranch.spans))
  | .ifNoElse s cond thenBranch => s :: (cond.spans ++ thenBranch.spans)
  | .letIn s decl body => s :: (decl.spans ++ body.spans)
  | .sequence s items => s :: Command.spansOfList items
  | .whileDo s cond body => s :: (cond.spans ++ body.spans)
  | .repeatUntil s body cond => s :: (body.spans ++ cond.spans)

def Command.spansOfList : List Command → List Span
  | [] => []
  | c :: cs => c.spans ++ Command.spansOfList cs

end

/-- The spans of all parts of a program. -/
def Program.spans (p : Program) : List Span := p.span :: p.command.spans

def Phrase.spans : (p : Phrase) → p.Tree → List Span
  | .command, t | .singleCommand, t => Command.spans t
  | .moreCommands, ts => Command.spansOfList ts
  | .declaration, t | .singleDeclaration, t => Decl.spans t
  | .moreDeclarations, ts => Decl.spansOfList ts
  | .expression, t | .primary, t => Expr.spans t
  | .parameter, t => Param.spans t

theorem Expr.span_mem_spans (e : Expr) : e.span ∈ e.spans := by
  cases e <;> simp [Expr.span, Expr.spans]

theorem Decl.span_mem_spans (d : Decl) : d.span ∈ d.spans := by
  cases d <;> simp [Decl.span, Decl.spans]

theorem Command.span_mem_spans (c : Command) : c.span ∈ c.spans := by
  cases c <;> simp [Command.span, Command.spans]

theorem Decl.span_mem_spansOfList {d : Decl} {ds : List Decl} (h : d ∈ ds) :
    d.span ∈ Decl.spansOfList ds := by
  induction h with
  | head ds => exact List.mem_append_left _ d.span_mem_spans
  | tail e _ ih => exact List.mem_append_right _ ih

theorem Command.span_mem_spansOfList {c : Command} {cs : List Command} (h : c ∈ cs) :
    c.span ∈ Command.spansOfList cs := by
  induction h with
  | head cs => exact List.mem_append_left _ c.span_mem_spans
  | tail d _ ih => exact List.mem_append_right _ ih

/-! ## Cursors -/

namespace Cursor

/-- All places that `c` keeps lie in `source`. -/
structure IsIn (c : Cursor) (source : String) : Prop where
  pending : ∀ t ∈ c.pending, t.span.IsSliceOf source
  closing : c.closing.IsSliceOf source
  readTo : String.Pos.Raw.IsValid source ⟨c.readTo⟩

namespace IsIn

variable {source : String} {c d : Cursor} {kind : TokenKind} {t : Token} {o : Occurrence}
  {fs : List Fault} {s : Span}

theorem handOut (h : c.IsIn source) : c.handOut.IsIn source := ⟨h.pending, h.closing, h.readTo⟩

theorem current (h : c.IsIn source) : c.current.span.IsSliceOf source := by
  rw [Cursor.current]
  rcases hp : c.pending with _ | ⟨t, ts⟩
  · exact h.closing
  · exact h.pending t (by simp [hp])

theorem spanSince (h : c.IsIn source) (hs : s.IsSliceOf source) :
    (c.spanSince s).IsSliceOf source := by
  have hstop := max_rec' (String.Pos.Raw.IsValid source ⟨·⟩) h.readTo hs.onBoundaries.2
  exact Span.OnBoundaries.isSliceOf ⟨hs.onBoundaries.1, hstop⟩
    (Nat.le_trans hs.start_le_stop (Nat.le_max_right ..))

theorem past {rest : List Token} (h : c.IsIn source) (hp : c.pending = t :: rest) :
    (c.past t rest).IsIn source where
  pending u hu := h.pending u (hp ▸ List.mem_cons_of_mem t hu)
  closing := h.closing
  readTo := (h.pending t (by simp [hp])).onBoundaries.2

theorem steps (h : c.IsIn source) (hs : c.Steps kind t d) :
    t.span.IsSliceOf source ∧ d.IsIn source := by
  rw [hs.eq_past]
  exact ⟨h.pending t (by simp [hs.pending_eq]), h.past hs.pending_eq⟩

theorem occurs (h : c.IsIn source) (ho : c.Occurs kind o d) :
    o.span.IsSliceOf source ∧ d.IsIn source := by
  obtain ⟨hs⟩ := ho
  exact ⟨(h.steps hs).1, (h.steps hs).2.handOut⟩

theorem stepOver (h : c.IsIn source) : c.stepOver.IsIn source := by
  unfold Cursor.stepOver
  split
  case h_1 hp => exact ⟨h.pending, h.closing, h.closing.onBoundaries.2⟩
  case h_2 t rest hp => exact h.past hp

theorem expects (h : c.IsIn source) (he : c.Expects kind d fs) : d.IsIn source := by
  cases he with
  | met => exact h.stepOver
  | missed => exact h

end IsIn

end Cursor

/-- A reading keeps to the source, and so do the spans of its tree. -/
theorem Phrase.Outcome.isIn {source : String} {p : Phrase} {c d : Cursor} {t : p.Tree}
    {fs : List Fault} (h : p.Outcome c t d fs) (hc : c.IsIn source) :
    Slices source (p.spans t) ∧ d.IsIn source := by
  induction h with
  | lone _ _ ih ih' =>
    obtain ⟨hx, hd⟩ := ih hc
    exact ⟨hx, (ih' hd).2⟩
  | @sequence c d e x xs y fs gs _ _ last ih ih' =>
    obtain ⟨hx, hd⟩ := ih hc
    obtain ⟨hxs, he⟩ := ih' hd
    have hy := hxs _ (Command.span_mem_spansOfList (List.mem_of_getLast? last))
    have hs := (hx _ x.span_mem_spans).join hy
    exact ⟨.cons hs (hx.append hxs), he⟩
  | noMore => exact ⟨.nil, hc⟩
  | more semicolon _ _ ih ih' =>
    obtain ⟨-, hd⟩ := hc.steps semicolon
    obtain ⟨hx, he⟩ := ih hd
    obtain ⟨hxs, hf⟩ := ih' he
    exact ⟨hx.append hxs, hf⟩
  | assign name becomes _ ih =>
    obtain ⟨ho, hd⟩ := hc.occurs name
    obtain ⟨-, he⟩ := hd.steps becomes
    obtain ⟨hx, hf⟩ := ih he
    exact ⟨.cons (hf.spanSince ho) (.cons ho hx), hf⟩
  | call name left _ right ih =>
    obtain ⟨ho, hd⟩ := hc.occurs name
    obtain ⟨-, he⟩ := hd.steps left
    obtain ⟨hq, hf⟩ := ih he
    have hg := hf.expects right
    exact ⟨.cons (hg.spanSince ho) (.cons ho hq), hg⟩
  | bareName name =>
    obtain ⟨ho, hd⟩ := hc.occurs name
    exact ⟨.singleton ho, hd⟩
  | block left _ right ih =>
    obtain ⟨-, hd⟩ := hc.steps left
    obtain ⟨hx, he⟩ := ih hd
    exact ⟨hx, he.expects right⟩
  | letIn kwLet _ kwIn _ ih ih' =>
    obtain ⟨ht, hd⟩ := hc.steps kwLet
    obtain ⟨hx, he⟩ := ih hd
    obtain ⟨hy, hg⟩ := ih' (he.expects kwIn)
    exact ⟨.cons (hg.spanSince ht) (hx.append hy), hg⟩
  | ifElse kwIf _ kwThen _ kwElse _ ih ih' ih'' =>
    obtain ⟨ht, hd⟩ := hc.steps kwIf
    obtain ⟨hx, he⟩ := ih hd
    obtain ⟨hy, hg⟩ := ih' (he.expects kwThen)
    obtain ⟨-, hh⟩ := hg.steps kwElse
    obtain ⟨hz, hi⟩ := ih'' hh
    exact ⟨.cons (hi.spanSince ht) (hx.append (hy.append hz)), hi⟩
  | ifNoElse kwIf _ kwThen _ kwNoElse ih ih' =>
    obtain ⟨ht, hd⟩ := hc.steps kwIf
    obtain ⟨hx, he⟩ := ih hd
    obtain ⟨hy, hg⟩ := ih' (he.expects kwThen)
    obtain ⟨-, hh⟩ := hg.steps kwNoElse
    exact ⟨.cons (hh.spanSince ht) (hx.append hy), hh⟩
  | openIf kwIf _ kwThen _ ih ih' =>
    obtain ⟨ht, hd⟩ := hc.steps kwIf
    obtain ⟨-, he⟩ := ih hd
    obtain ⟨-, hg⟩ := ih' (he.expects kwThen)
    exact ⟨.singleton ht, hg⟩
  | whileDo kwWhile _ kwDo _ ih ih' =>
    obtain ⟨ht, hd⟩ := hc.steps kwWhile
    obtain ⟨hx, he⟩ := ih hd
    obtain ⟨hy, hg⟩ := ih' (he.expects kwDo)
    exact ⟨.cons (hg.spanSince ht) (hx.append hy), hg⟩
  | repeatUntil kwRepeat _ kwUntil _ ih ih' =>
    obtain ⟨ht, hd⟩ := hc.steps kwRepeat
    obtain ⟨hx, he⟩ := ih hd
    obtain ⟨hy, hg⟩ := ih' (he.expects kwUntil)
    exact ⟨.cons (hg.spanSince ht) (hx.append hy), hg⟩
  | blank kwNothing =>
    obtain ⟨ht, hd⟩ := hc.steps kwNothing
    exact ⟨.singleton ht, hd⟩
  | noCommand => exact ⟨.singleton hc.current, hc⟩
  | loneDeclaration _ _ ih ih' =>
    obtain ⟨hx, hd⟩ := ih hc
    exact ⟨hx, (ih' hd).2⟩
  | @declarationSequence c d e x xs y fs gs _ _ last ih ih' =>
    obtain ⟨hx, hd⟩ := ih hc
    obtain ⟨hxs, he⟩ := ih' hd
    have hy := hxs _ (Decl.span_mem_spansOfList (List.mem_of_getLast? last))
    have hs := (hx _ x.span_mem_spans).join hy
    exact ⟨.cons hs (hx.append hxs), he.handOut⟩
  | noMoreDeclarations => exact ⟨.nil, hc⟩
  | moreDeclarations semicolon _ _ ih ih' =>
    obtain ⟨-, hd⟩ := hc.steps semicolon
    obtain ⟨hx, he⟩ := ih hd
    obtain ⟨hxs, hf⟩ := ih' he
    exact ⟨hx.append hxs, hf⟩
  | const kwConst name kwIs _ ih =>
    obtain ⟨ht, hd⟩ := hc.steps kwConst
    obtain ⟨ho, he⟩ := hd.occurs name
    obtain ⟨hx, hg⟩ := ih (he.expects kwIs)
    exact ⟨.cons (hg.spanSince ht) (.cons ho hx), hg.handOut⟩
  | unnamedConst kwConst =>
    obtain ⟨ht, hd⟩ := hc.steps kwConst
    exact ⟨.singleton ht, hd.handOut⟩
  | var type name =>
    obtain ⟨ho, hd⟩ := hc.occurs type
    obtain ⟨hn, he⟩ := hd.occurs name
    exact ⟨.cons (he.spanSince ho) (.cons ho (.singleton hn)), he.handOut⟩
  | unnamedVar type =>
    obtain ⟨ho, hd⟩ := hc.occurs type
    exact ⟨.singleton (hd.spanSince ho), hd.handOut⟩
  | noDeclaration => exact ⟨.singleton hc.current, hc.handOut⟩
  | operand _ ih => exact ih hc
  | @binary c d e f x o y fs gs _ op _ ih ih' =>
    obtain ⟨hx, hd⟩ := ih hc
    obtain ⟨ho, he⟩ := hd.occurs op
    obtain ⟨hy, hf⟩ := ih' he
    have hs := (hx _ x.span_mem_spans).join (hy _ y.span_mem_spans)
    exact ⟨.cons hs (hx.append (.cons ho hy)), hf⟩
  | integer literal =>
    obtain ⟨ht, hd⟩ := hc.steps literal
    exact ⟨.singleton ht, hd⟩
  | character literal =>
    obtain ⟨ht, hd⟩ := hc.steps literal
    exact ⟨.singleton ht, hd⟩
  | name name =>
    obtain ⟨ho, hd⟩ := hc.occurs name
    exact ⟨.cons (hd.spanSince ho) (.singleton ho), hd⟩
  | apply name left _ right ih =>
    obtain ⟨ho, hd⟩ := hc.occurs name
    obtain ⟨-, he⟩ := hd.steps left
    obtain ⟨hq, hf⟩ := ih he
    have hg := hf.expects right
    exact ⟨.cons (hg.spanSince ho) (.cons ho hq), hg⟩
  | unary op _ ih =>
    obtain ⟨ho, hd⟩ := hc.occurs op
    obtain ⟨hx, he⟩ := ih hd
    exact ⟨.cons (he.spanSince ho) (.cons ho hx), he⟩
  | bracketed left _ right ih =>
    obtain ⟨-, hd⟩ := hc.steps left
    obtain ⟨hx, he⟩ := ih hd
    exact ⟨hx, he.expects right⟩
  | noExpression => exact ⟨.singleton hc.current, hc⟩
  | varParameter kwVar name =>
    obtain ⟨ht, hd⟩ := hc.steps kwVar
    obtain ⟨ho, he⟩ := hd.occurs name
    exact ⟨.cons (he.spanSince ht) (.singleton ho), he⟩
  | unnamedVarParameter kwVar =>
    obtain ⟨ht, hd⟩ := hc.steps kwVar
    exact ⟨.singleton (hd.spanSince ht), hd⟩
  | noParameter => exact ⟨.singleton (Span.isSliceOf_empty hc.current.onBoundaries.1), hc⟩
  | @value c d x fs _ ih =>
    obtain ⟨hx, hd⟩ := ih hc
    exact ⟨.cons (hx _ x.span_mem_spans) hx, hd⟩
  | refusedParameter => exact ⟨.singleton hc.current, hc⟩

/-! ## Programs -/

namespace Tokens

variable {source : String}

theorem isSliceOf_closing (source : String) : (Span.empty source.utf8ByteSize).IsSliceOf source :=
  Span.isSliceOf_empty String.Pos.Raw.isValid_rawEndPos

theorem isSliceOf_ofSource (source : String) :
    ∀ t ∈ (ofSource source).toList, t.span.IsSliceOf source := by
  intro t ht
  rcases List.mem_append.1 ht with ht | ht
  · obtain ⟨x, hx, rfl⟩ := List.mem_map.1 ht
    exact ((layout_lexemes source).standsIn x hx).isSliceOf
  · obtain rfl := List.mem_singleton.1 ht
    exact isSliceOf_closing source

theorem isSliceOf_errors (source : String) :
    ∀ e ∈ (ofSource source).errors, e.span.IsSliceOf source := by
  intro e he
  obtain ⟨t, ht, -, -, hs⟩ := exists_token_of_mem_errors he
  rw [hs]
  exact isSliceOf_ofSource source t ht

end Tokens

namespace Program

variable {source : String}

/-- The cursor at the first token of a source. -/
theorem isIn_ofTokens (source : String) :
    (Cursor.ofTokens (Tokens.ofSource source).toList).IsIn source := by
  have h := Tokens.isSliceOf_ofSource source
  rw [Tokens.ofSource] at h ⊢
  rw [Cursor.ofTokens_concat _ rfl]
  exact
    { pending := fun t ht => h t (List.mem_append_left _ ht)
      closing := Tokens.isSliceOf_closing source
      readTo := String.Pos.Raw.isValid_zero }

theorem slices_ofTokens (source : String) :
    Slices source (ofTokens (Tokens.ofSource source).toList).node.spans := by
  have hc := isIn_ofTokens source
  obtain ⟨hx, hd⟩ := (Cursor.singleCommand_outcome _).isIn hc
  exact .cons (hd.spanSince hc.current) hx

theorem isSliceOf_errors (source : String) :
    ∀ e ∈ (ofTokens (Tokens.ofSource source).toList).errors, e.span.IsSliceOf source := by
  intro e he
  obtain ⟨f, hf, rfl⟩ := List.mem_map.1 he
  obtain ⟨t, ht, -, hs⟩ := exists_token_at_index (Tokens.endsOnce_ofSource source) hf
  rw [hs]
  exact Tokens.isSliceOf_ofSource source t (List.mem_of_getElem? ht)

end Program

/-! ## Names -/

/-- The spans that a fault speaks of. -/
def NamingFault.spans : NamingFault → List Span
  | alreadyDeclared _ previous => previous.toList
  | undeclared _ | malformed _ => []

/-- All places that `n` keeps lie in `source`. -/
structure Naming.IsIn (n : Naming) (source : String) : Prop where
  declarations : ∀ (i : NodeId) (e : DeclEntry), n.declarations[i]? = some e →
    e.span.IsSliceOf source
  errors : ∀ e ∈ n.errors, Slices source (e.span :: e.fault.spans)

theorem Naming.isIn_empty (source : String) : empty.IsIn source where
  declarations i e h := by simp [empty] at h
  errors := List.forall_mem_nil _

namespace NamingState

variable {source : String} {s : NamingState}

theorem isIn_fail {fault : NamingFault} {span : Span} (h : s.found.IsIn source)
    (hs : Slices source (span :: fault.spans)) : (s.fail fault span).found.IsIn source where
  declarations := h.declarations
  errors := List.forall_mem_append.2 ⟨h.errors, List.forall_mem_singleton.2 hs⟩

theorem isIn_lookUp {o : Occurrence} (h : s.found.IsIn source) (ho : o.span.IsSliceOf source) :
    (s.lookUp o).found.IsIn source := by
  unfold lookUp
  split
  case h_1 b _ => exact ⟨h.declarations, h.errors⟩
  case h_2 => exact isIn_fail h (.singleton ho)

theorem slices_spanOf? (h : s.found.IsIn source) (b : Binding) :
    Slices source (s.spanOf? b).toList := by
  cases b with
  | builtin entry => exact .nil
  | declared i =>
    rw [spanOf?]
    rcases he : s.found.declarations[i]? with _ | e
    · exact .nil
    · exact .singleton (h.declarations i e he)

theorem isIn_declare {id : NodeId} {span : Span} {name : Occurrence} {type : Option String}
    {rightSide : NamingState → NamingState} (h : s.found.IsIn source)
    (hs : span.IsSliceOf source) (hn : name.span.IsSliceOf source)
    (hr : ∀ s, s.found.IsIn source → (rightSide s).found.IsIn source) :
    (s.declare id span name type rightSide).found.IsIn source := by
  unfold declare
  split
  case h_1 existing _ => exact isIn_fail h (.cons hn (slices_spanOf? h existing))
  case h_2 scopes _ =>
    refine hr _ ⟨fun i e he => ?_, h.errors⟩
    rw [Std.ExtTreeMap.getElem?_insert] at he
    split at he
    case isTrue =>
      cases he
      exact hs
    case isFalse => exact h.declarations i e he

theorem isIn_inScope {part : NamingState → NamingState} (h : s.found.IsIn source)
    (hp : ∀ s, s.found.IsIn source → (part s).found.IsIn source) :
    (s.inScope part).found.IsIn source := hp _ h

end NamingState

open NamingState

variable {source : String}

mutual

theorem Expr.isIn_findNames : ∀ (e : Expr) {s : NamingState}, Slices source e.spans →
    s.found.IsIn source → (e.findNames s).found.IsIn source
  | .binary _ left op right, s, he, hs => by
    simp only [Expr.spans, Slices.cons_iff, Slices.append_iff] at he
    obtain ⟨-, hl, ho, hr⟩ := he
    exact right.isIn_findNames hr (isIn_lookUp (left.isIn_findNames hl hs) ho)
  | .character .., s, _, hs | .integer .., s, _, hs => hs
  | .name _ name, s, he, hs => by
    simp only [Expr.spans, Slices.cons_iff] at he
    exact isIn_lookUp hs he.2.1
  | .apply _ name arg, s, he, hs => by
    simp only [Expr.spans, Slices.cons_iff] at he
    exact arg.isIn_findNames he.2.2 (isIn_lookUp hs he.2.1)
  | .unary _ op operand, s, he, hs => by
    simp only [Expr.spans, Slices.cons_iff] at he
    exact operand.isIn_findNames he.2.2 (isIn_lookUp hs he.2.1)
  | .error _, s, he, hs => isIn_fail hs he

theorem Param.isIn_findNames : ∀ (q : Param) {s : NamingState}, Slices source q.spans →
    s.found.IsIn source → (q.findNames s).found.IsIn source
  | .blank _, s, _, hs => hs
  | .value _ expr, s, hq, hs => expr.isIn_findNames (Slices.cons_iff.1 hq).2 hs
  | .var _ name, s, hq, hs => by
    simp only [Param.spans, Slices.cons_iff] at hq
    exact isIn_lookUp hs hq.2.1
  | .error _, s, hq, hs => isIn_fail hs hq

end

mutual

theorem Decl.isIn_findNames : ∀ (d : Decl) {s : NamingState}, Slices source d.spans →
    s.found.IsIn source → (d.findNames s).found.IsIn source
  | .const _ _ name value, s, hd, hs => by
    simp only [Decl.spans, Slices.cons_iff] at hd
    obtain ⟨hspan, hn, hv⟩ := hd
    exact isIn_declare hs hspan hn fun s hs => value.isIn_findNames hv hs
  | .var _ _ type name, s, hd, hs => by
    simp only [Decl.spans, Slices.cons_iff] at hd
    obtain ⟨hspan, ht, hn, -⟩ := hd
    exact isIn_declare hs hspan hn fun s hs => isIn_lookUp hs ht
  | .sequence _ _ items, s, hd, hs => Decl.isIn_findNamesOfList items (Slices.cons_iff.1 hd).2 hs
  | .error _ _, s, hd, hs => isIn_fail hs hd

theorem Decl.isIn_findNamesOfList : ∀ (ds : List Decl) {s : NamingState},
    Slices source (Decl.spansOfList ds) → s.found.IsIn source →
      (Decl.findNamesOfList ds s).found.IsIn source
  | [], s, _, hs => hs
  | d :: ds, s, hd, hs => by
    obtain ⟨hd, hds⟩ := Slices.append_iff.1 hd
    exact Decl.isIn_findNamesOfList ds hds (d.isIn_findNames hd hs)

end

mutual

theorem Command.isIn_findNames : ∀ (c : Command) {s : NamingState}, Slices source c.spans →
    s.found.IsIn source → (c.findNames s).found.IsIn source
  | .assign _ target value, s, hc, hs => by
    simp only [Command.spans, Slices.cons_iff] at hc
    exact value.isIn_findNames hc.2.2 (isIn_lookUp hs hc.2.1)
  | .blank _, s, _, hs => hs
  | .call _ callee arg, s, hc, hs => by
    simp only [Command.spans, Slices.cons_iff] at hc
    exact arg.isIn_findNames hc.2.2 (isIn_lookUp hs hc.2.1)
  | .ifElse _ cond thenBranch elseBranch, s, hc, hs => by
    simp only [Command.spans, Slices.cons_iff, Slices.append_iff] at hc
    obtain ⟨-, hx, hy, hz⟩ := hc
    exact elseBranch.isIn_findNames hz
      (thenBranch.isIn_findNames hy (cond.isIn_findNames hx hs))
  | .ifNoElse _ cond thenBranch, s, hc, hs => by
    simp only [Command.spans, Slices.cons_iff, Slices.append_iff] at hc
    obtain ⟨-, hx, hy⟩ := hc
    exact thenBranch.isIn_findNames hy (cond.isIn_findNames hx hs)
  | .letIn _ decl body, s, hc, hs => by
    simp only [Command.spans, Slices.cons_iff, Slices.append_iff] at hc
    obtain ⟨-, hd, hb⟩ := hc
    exact isIn_inScope hs fun s hs => body.isIn_findNames hb (decl.isIn_findNames hd hs)
  | .sequence _ items, s, hc, hs => Command.isIn_findNamesOfList items (Slices.cons_iff.1 hc).2 hs
  | .whileDo _ cond body, s, hc, hs => by
    simp only [Command.spans, Slices.cons_iff, Slices.append_iff] at hc
    obtain ⟨-, hx, hb⟩ := hc
    exact body.isIn_findNames hb (cond.isIn_findNames hx hs)
  | .repeatUntil _ body cond, s, hc, hs => by
    simp only [Command.spans, Slices.cons_iff, Slices.append_iff] at hc
    obtain ⟨-, hb, hx⟩ := hc
    exact cond.isIn_findNames hx (body.isIn_findNames hb hs)
  | .error _, s, hc, hs => isIn_fail hs hc

theorem Command.isIn_findNamesOfList : ∀ (cs : List Command) {s : NamingState},
    Slices source (Command.spansOfList cs) → s.found.IsIn source →
      (Command.findNamesOfList cs s).found.IsIn source
  | [], s, _, hs => hs
  | c :: cs, s, hc, hs => by
    obtain ⟨hc, hcs⟩ := Slices.append_iff.1 hc
    exact Command.isIn_findNamesOfList cs hcs (c.isIn_findNames hc hs)

end

/-- The names of a program are found where its spans are. -/
theorem Naming.isIn_ofProgram {p : Program} (h : Slices source p.spans) :
    (ofProgram p).IsIn source :=
  p.command.isIn_findNames (Slices.cons_iff.1 h).2 (isIn_empty source)

/-! ## Runs -/

theorem LexicalError.spans_labels (e : LexicalError) :
    e.diagnostic.labels.map Label.span = [e.span] := rfl

theorem SyntaxError.spans_labels (e : SyntaxError) :
    e.diagnostic.labels.map Label.span = [e.span] := rfl

/-- The labels of an error stand at its place and at those that its fault speaks of. -/
theorem NamingError.spans_labels (e : NamingError) :
    e.diagnostic.labels.map Label.span = e.span :: e.fault.spans := by
  obtain ⟨fault, span⟩ := e
  cases fault with
  | alreadyDeclared name previous => cases previous <;> rfl
  | undeclared name => rfl
  | malformed what => rfl

/-- All labels of a log are on `source`. -/
def Log.IsIn (log : Log) (source : String) : Prop :=
  ∀ e ∈ log.entries, Slices source (e.2.labels.map Label.span)

theorem Log.isIn_ofErrors {xs : List LexicalError} {ys : List SyntaxError} {zs : List NamingError}
    (hx : ∀ e ∈ xs, e.span.IsSliceOf source) (hy : ∀ e ∈ ys, e.span.IsSliceOf source)
    (hz : ∀ e ∈ zs, Slices source (e.span :: e.fault.spans)) : (ofErrors xs ys zs).IsIn source := by
  intro e he
  rw [entries_ofErrors, List.append_assoc] at he
  rcases List.mem_append.1 he with he | he
  · obtain ⟨x, hm, rfl⟩ := List.mem_map.1 he
    exact .singleton (hx x hm)
  rcases List.mem_append.1 he with he | he
  · obtain ⟨y, hm, rfl⟩ := List.mem_map.1 he
    exact .singleton (hy y hm)
  · obtain ⟨z, hm, rfl⟩ := List.mem_map.1 he
    rw [z.spans_labels]
    exact hz z hm

namespace Run

theorem isIn_log (source : String) (o : Options) : (ofSource source o).log.IsIn source := by
  have hx := Tokens.isSliceOf_errors source
  have hy := Program.isSliceOf_errors source
  have hz := (Naming.isIn_ofProgram (Program.slices_ofTokens source)).errors
  obtain ⟨xs, ys, zs, hlog, hxs, hys, hzs⟩ := exists_ofErrors source o
  rw [hlog]
  exact Log.isIn_ofErrors (fun e he => hx e (hxs.mem he)) (fun e he => hy e (hys.mem he))
    fun e he => hz e (hzs.mem he)

theorem slices_program (source : String) (o : Options) :
    ∀ p ∈ (ofSource source o).program, Slices source p.spans := by
  have hp := Program.slices_ofTokens source
  rcases ofSource_cases source o with ⟨-, -, h⟩ | ⟨-, -, -, h⟩ | ⟨-, h⟩
  · simp [h]
  · simpa [h] using hp
  · simpa [h] using hp

theorem isIn_naming (source : String) (o : Options) :
    ∀ n ∈ (ofSource source o).naming, n.IsIn source := by
  have hn := Naming.isIn_ofProgram (Program.slices_ofTokens source)
  rcases ofSource_cases source o with ⟨-, -, h⟩ | ⟨-, -, -, h⟩ | ⟨-, h⟩
  · simp [h]
  · simp [h]
  · simpa [h] using hn

/-- All spans in `r`, and those of the errors that its stages find, mark slices of `source`. -/
structure IsIn (r : Run) (source : String) : Prop where
  tokens : ∀ t ∈ r.tokens, t.span.IsSliceOf source
  lexicalErrors : ∀ e ∈ (Tokens.ofSource source).errors, e.span.IsSliceOf source
  program : ∀ p ∈ r.program, Slices source p.spans
  syntaxErrors : ∀ e ∈ (Program.ofTokens r.tokens).errors, e.span.IsSliceOf source
  naming : ∀ n ∈ r.naming, n.IsIn source
  log : r.log.IsIn source

theorem ofSource_isIn (source : String) (o : Options) : (ofSource source o).IsIn source where
  tokens := tokens_ofSource source o ▸ Tokens.isSliceOf_ofSource source
  lexicalErrors := Tokens.isSliceOf_errors source
  program := slices_program source o
  syntaxErrors := tokens_ofSource source o ▸ Program.isSliceOf_errors source
  naming := isIn_naming source o
  log := isIn_log source o

end Run

end TriLang
