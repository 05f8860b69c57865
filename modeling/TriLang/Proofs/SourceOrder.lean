import TriLang.Proofs.Places
import TriLang.Proofs.Slices

/-!
# Diagnostics in source order

Each stage goes through the text from its beginning to its end, and reports what it finds wrong as
it comes by.  Where a text is no program, a node may start at a token that is read again, but never
in front of what was reported before.
-/

namespace TriLang

/-! ## Spans in order -/

namespace Span

/-- The starts of `ss` do not decrease from `m` on and do not go beyond `n`. -/
def Ascend (m : Nat) : List Span → Nat → Prop
  | [], n => m ≤ n
  | s :: ss, n => m ≤ s.start ∧ Ascend s.start ss n

namespace Ascend

variable {l m n : Nat} {ss ts : List Span}

theorem le (h : Ascend m ss n) : m ≤ n := by
  induction ss generalizing m with
  | nil => exact h
  | cons s ss ih => exact Nat.le_trans h.1 (ih h.2)

theorem of_le (h : Ascend m ss n) (hl : l ≤ m) : Ascend l ss n := by
  cases ss with
  | nil => exact Nat.le_trans hl h
  | cons s ss => exact ⟨Nat.le_trans hl h.1, h.2⟩

theorem append (hs : Ascend l ss m) (ht : Ascend m ts n) : Ascend l (ss ++ ts) n := by
  induction ss generalizing l with
  | nil => exact ht.of_le hs
  | cons s ss ih => exact ⟨hs.1, ih hs.2⟩

theorem upTo (h : Ascend l ss m) (hn : m ≤ n) : Ascend l ss n := by
  induction ss generalizing l with
  | nil => exact Nat.le_trans h hn
  | cons s ss ih => exact ⟨h.1, ih h.2⟩

theorem le_start (h : Ascend m ss n) : ∀ s ∈ ss, m ≤ s.start := by
  induction ss generalizing m with
  | nil => exact List.forall_mem_nil _
  | cons s ss ih =>
    have hs : ∀ t ∈ ss, m ≤ t.start := fun t ht => Nat.le_trans h.1 (ih h.2 t ht)
    exact List.forall_mem_cons.2 ⟨h.1, hs⟩

theorem pairwise (h : Ascend m ss n) : ss.Pairwise (·.start ≤ ·.start) := by
  induction ss generalizing m with
  | nil => exact .nil
  | cons s ss ih => exact .cons (le_start h.2) (ih h.2)

/-- Spans in order start at or after the first of them, up to any place behind the last. -/
theorem of_pairwise (h : ss.Pairwise (·.start ≤ ·.start)) (hm : ∀ s ∈ ss, m ≤ s.start)
    (hn : ∀ s ∈ ss, s.start ≤ n) (hmn : m ≤ n) : Ascend m ss n := by
  induction ss generalizing m with
  | nil => exact hmn
  | cons s ss ih =>
    obtain ⟨hs, h⟩ := List.pairwise_cons.1 h
    obtain ⟨hsm, -⟩ := List.forall_mem_cons.1 hm
    obtain ⟨hsn, hn⟩ := List.forall_mem_cons.1 hn
    exact ⟨hsm, ih h hs hn hsn⟩

end Ascend

end Span

/-! ## Places of a tree -/

mutual

/-- Where names are looked up and where nothing could be read, in source order. -/
def Expr.places : Expr → List Span
  | .binary _ left op right => left.places ++ op.span :: right.places
  | .character .. | .integer .. => []
  | .name _ name => [name.span]
  | .apply _ name arg => name.span :: arg.places
  | .unary _ op operand => op.span :: operand.places
  | .error s => [s]

def Param.places : Param → List Span
  | .blank _ => []
  | .value _ expr => expr.places
  | .var _ name => [name.span]
  | .error s => [s]

end

mutual

/-- Where names are declared or looked up and where nothing could be read, in source order. -/
def Decl.places : Decl → List Span
  | .const _ _ name value => name.span :: value.places
  | .var _ _ type name => [type.span, name.span]
  | .sequence _ _ items => Decl.placesOfList items
  | .error _ s => [s]

def Decl.placesOfList : List Decl → List Span
  | [] => []
  | d :: ds => d.places ++ Decl.placesOfList ds

end

mutual

/-- Where names are declared or looked up and where nothing could be read, in source order. -/
def Command.places : Command → List Span
  | .assign _ target value => target.span :: value.places
  | .blank _ => []
  | .call _ callee arg => callee.span :: arg.places
  | .ifElse _ cond thenBranch elseBranch =>
    cond.places ++ (thenBranch.places ++ elseBranch.places)
  | .ifNoElse _ cond thenBranch => cond.places ++ thenBranch.places
  | .letIn _ decl body => decl.places ++ body.places
  | .sequence _ items => Command.placesOfList items
  | .whileDo _ cond body => cond.places ++ body.places
  | .repeatUntil _ body cond => body.places ++ cond.places
  | .error s => [s]

def Command.placesOfList : List Command → List Span
  | [] => []
  | c :: cs => c.places ++ Command.placesOfList cs

end

def Phrase.places : (p : Phrase) → p.Tree → List Span
  | .command, t | .singleCommand, t => Command.places t
  | .moreCommands, ts => Command.placesOfList ts
  | .declaration, t | .singleDeclaration, t => Decl.places t
  | .moreDeclarations, ts => Decl.placesOfList ts
  | .expression, t | .primary, t => Expr.places t
  | .parameter, t => Param.places t

/-! ## Cursors -/

namespace Cursor

/-- Where the token under `c` starts. -/
def start (c : Cursor) : Nat := c.current.span.start

/-- The tokens ahead of `c` are in source order. -/
def Sorted (c : Cursor) : Prop :=
  Span.Ascend c.start (c.pending.map Token.span) c.closing.start

namespace Sorted

variable {c d : Cursor} {kind : TokenKind} {t : Token} {o : Occurrence} {fs : List Fault}

theorem past {rest : List Token} (h : c.Sorted) (hp : c.pending = t :: rest) :
    Span.Ascend c.start [t.span] (c.past t rest).start ∧ (c.past t rest).Sorted := by
  have hstart : c.start = t.span.start := by rw [start, current_of_pending hp]
  have hrest : Span.Ascend t.span.start (rest.map Token.span) c.closing.start := by
    rw [Sorted, hp] at h
    exact h.2
  cases rest with
  | nil => exact ⟨⟨Nat.le_of_eq hstart, hrest⟩, Nat.le_refl _⟩
  | cons u us => exact ⟨⟨Nat.le_of_eq hstart, hrest.1⟩, Nat.le_refl _, hrest.2⟩

theorem steps (h : c.Sorted) (hs : c.Steps kind t d) :
    Span.Ascend c.start [t.span] d.start ∧ d.Sorted := by
  rw [hs.eq_past]
  exact h.past hs.pending_eq

theorem occurs (h : c.Sorted) (ho : c.Occurs kind o d) :
    Span.Ascend c.start [o.span] d.start ∧ d.Sorted := by
  obtain ⟨hs⟩ := ho
  obtain ⟨ht, hd⟩ := h.steps hs
  exact ⟨ht, hd⟩

theorem expects (h : c.Sorted) (he : c.Expects kind d fs) : c.start ≤ d.start ∧ d.Sorted := by
  cases he with
  | missed => exact ⟨Nat.le_refl _, h⟩
  | met =>
    unfold stepOver
    split
    case h_1 hp => exact ⟨Nat.le_refl _, h⟩
    case h_2 t rest hp =>
      obtain ⟨ht, hd⟩ := h.past hp
      exact ⟨ht.le, hd⟩

/-- What cannot be read starts at the current token. -/
theorem refuse (h : c.Sorted) : Span.Ascend c.start [c.current.span] c.start ∧ c.Sorted :=
  ⟨⟨Nat.le_refl _, Nat.le_refl _⟩, h⟩

end Sorted

end Cursor

/-- The places of what is read lie between the cursors, in source order. -/
theorem Phrase.Outcome.ascend {p : Phrase} {c d : Cursor} {t : p.Tree} {fs : List Fault}
    (h : p.Outcome c t d fs) (hc : c.Sorted) :
    Span.Ascend c.start (p.places t) d.start ∧ d.Sorted := by
  induction h with
  | lone _ _ ih ih' =>
    obtain ⟨hx, hd⟩ := ih hc
    obtain ⟨hxs, he⟩ := ih' hd
    exact ⟨hx.upTo hxs.le, he⟩
  | sequence _ _ _ ih ih' =>
    obtain ⟨hx, hd⟩ := ih hc
    obtain ⟨hxs, he⟩ := ih' hd
    exact ⟨hx.append hxs, he⟩
  | noMore => exact ⟨Nat.le_refl _, hc⟩
  | more semicolon _ _ ih ih' =>
    obtain ⟨ht, hd⟩ := hc.steps semicolon
    obtain ⟨hx, he⟩ := ih hd
    obtain ⟨hxs, hf⟩ := ih' he
    exact ⟨(hx.append hxs).of_le ht.le, hf⟩
  | assign name becomes _ ih =>
    obtain ⟨ho, hd⟩ := hc.occurs name
    obtain ⟨ht, he⟩ := hd.steps becomes
    obtain ⟨hx, hf⟩ := ih he
    exact ⟨ho.append (hx.of_le ht.le), hf⟩
  | call name left _ right ih =>
    obtain ⟨ho, hd⟩ := hc.occurs name
    obtain ⟨ht, he⟩ := hd.steps left
    obtain ⟨hq, hf⟩ := ih he
    obtain ⟨hr, hg⟩ := hf.expects right
    exact ⟨ho.append ((hq.upTo hr).of_le ht.le), hg⟩
  | bareName name => exact hc.occurs name
  | block left _ right ih =>
    obtain ⟨ht, hd⟩ := hc.steps left
    obtain ⟨hx, he⟩ := ih hd
    obtain ⟨hr, hf⟩ := he.expects right
    exact ⟨(hx.upTo hr).of_le ht.le, hf⟩
  | letIn kwLet _ kwIn _ ih ih' =>
    obtain ⟨ht, hd⟩ := hc.steps kwLet
    obtain ⟨hx, he⟩ := ih hd
    obtain ⟨hi, hf⟩ := he.expects kwIn
    obtain ⟨hy, hg⟩ := ih' hf
    exact ⟨(hx.append (hy.of_le hi)).of_le ht.le, hg⟩
  | ifElse kwIf _ kwThen _ kwElse _ ih ih' ih'' =>
    obtain ⟨ht, hd⟩ := hc.steps kwIf
    obtain ⟨hx, he⟩ := ih hd
    obtain ⟨hth, hf⟩ := he.expects kwThen
    obtain ⟨hy, hg⟩ := ih' hf
    obtain ⟨hel, hh⟩ := hg.steps kwElse
    obtain ⟨hz, hi⟩ := ih'' hh
    exact ⟨(hx.append ((hy.append (hz.of_le hel.le)).of_le hth)).of_le ht.le, hi⟩
  | ifNoElse kwIf _ kwThen _ kwNoElse ih ih' =>
    obtain ⟨ht, hd⟩ := hc.steps kwIf
    obtain ⟨hx, he⟩ := ih hd
    obtain ⟨hth, hf⟩ := he.expects kwThen
    obtain ⟨hy, hg⟩ := ih' hf
    obtain ⟨hel, hh⟩ := hg.steps kwNoElse
    exact ⟨(hx.append ((hy.upTo hel.le).of_le hth)).of_le ht.le, hh⟩
  | openIf kwIf _ kwThen _ ih ih' =>
    -- What has been read of the construct is given up for the place where it begins.
    obtain ⟨ht, hd⟩ := hc.steps kwIf
    obtain ⟨hx, he⟩ := ih hd
    obtain ⟨hth, hf⟩ := he.expects kwThen
    obtain ⟨hy, hg⟩ := ih' hf
    exact ⟨((ht.upTo hx.le).upTo hth).upTo hy.le, hg⟩
  | whileDo kwWhile _ kwDo _ ih ih' =>
    obtain ⟨ht, hd⟩ := hc.steps kwWhile
    obtain ⟨hx, he⟩ := ih hd
    obtain ⟨hdo, hf⟩ := he.expects kwDo
    obtain ⟨hy, hg⟩ := ih' hf
    exact ⟨(hx.append (hy.of_le hdo)).of_le ht.le, hg⟩
  | repeatUntil kwRepeat _ kwUntil _ ih ih' =>
    obtain ⟨ht, hd⟩ := hc.steps kwRepeat
    obtain ⟨hx, he⟩ := ih hd
    obtain ⟨hu, hf⟩ := he.expects kwUntil
    obtain ⟨hy, hg⟩ := ih' hf
    exact ⟨(hx.append (hy.of_le hu)).of_le ht.le, hg⟩
  | blank kwNothing =>
    obtain ⟨ht, hd⟩ := hc.steps kwNothing
    exact ⟨ht.le, hd⟩
  | noCommand => exact hc.refuse
  | loneDeclaration _ _ ih ih' =>
    obtain ⟨hx, hd⟩ := ih hc
    obtain ⟨hxs, he⟩ := ih' hd
    exact ⟨hx.upTo hxs.le, he⟩
  | declarationSequence _ _ _ ih ih' =>
    obtain ⟨hx, hd⟩ := ih hc
    obtain ⟨hxs, he⟩ := ih' hd
    exact ⟨hx.append hxs, he⟩
  | noMoreDeclarations => exact ⟨Nat.le_refl _, hc⟩
  | moreDeclarations semicolon _ _ ih ih' =>
    obtain ⟨ht, hd⟩ := hc.steps semicolon
    obtain ⟨hx, he⟩ := ih hd
    obtain ⟨hxs, hf⟩ := ih' he
    exact ⟨(hx.append hxs).of_le ht.le, hf⟩
  | const kwConst name kwIs _ ih =>
    obtain ⟨ht, hd⟩ := hc.steps kwConst
    obtain ⟨ho, he⟩ := hd.occurs name
    obtain ⟨hi, hf⟩ := he.expects kwIs
    obtain ⟨hx, hg⟩ := ih hf
    exact ⟨(ho.append (hx.of_le hi)).of_le ht.le, hg⟩
  | unnamedConst kwConst =>
    obtain ⟨ht, hd⟩ := hc.steps kwConst
    exact ⟨ht, hd⟩
  | var type name =>
    obtain ⟨ho, hd⟩ := hc.occurs type
    obtain ⟨hn, he⟩ := hd.occurs name
    exact ⟨ho.append hn, he⟩
  | unnamedVar type =>
    obtain ⟨ho, hd⟩ := hc.occurs type
    exact ⟨ho, hd⟩
  | noDeclaration => exact hc.refuse
  | operand _ ih => exact ih hc
  | binary _ op _ ih ih' =>
    obtain ⟨hx, hd⟩ := ih hc
    obtain ⟨ho, he⟩ := hd.occurs op
    obtain ⟨hy, hf⟩ := ih' he
    exact ⟨hx.append (ho.append hy), hf⟩
  | integer literal =>
    obtain ⟨ht, hd⟩ := hc.steps literal
    exact ⟨ht.le, hd⟩
  | character literal =>
    obtain ⟨ht, hd⟩ := hc.steps literal
    exact ⟨ht.le, hd⟩
  | name name => exact hc.occurs name
  | apply name left _ right ih =>
    obtain ⟨ho, hd⟩ := hc.occurs name
    obtain ⟨ht, he⟩ := hd.steps left
    obtain ⟨hq, hf⟩ := ih he
    obtain ⟨hr, hg⟩ := hf.expects right
    exact ⟨ho.append ((hq.upTo hr).of_le ht.le), hg⟩
  | unary op _ ih =>
    obtain ⟨ho, hd⟩ := hc.occurs op
    obtain ⟨hx, he⟩ := ih hd
    exact ⟨ho.append hx, he⟩
  | bracketed left _ right ih =>
    obtain ⟨ht, hd⟩ := hc.steps left
    obtain ⟨hx, he⟩ := ih hd
    obtain ⟨hr, hf⟩ := he.expects right
    exact ⟨(hx.upTo hr).of_le ht.le, hf⟩
  | noExpression => exact hc.refuse
  | varParameter kwVar name =>
    obtain ⟨ht, hd⟩ := hc.steps kwVar
    obtain ⟨ho, he⟩ := hd.occurs name
    exact ⟨ho.of_le ht.le, he⟩
  | unnamedVarParameter kwVar => exact hc.steps kwVar
  | noParameter => exact ⟨Nat.le_refl _, hc⟩
  | value _ ih => exact ih hc
  | refusedParameter => exact hc.refuse

/-! ## Names -/

namespace NamingState

/-- From `s` to `s'` errors are reported at some of the places `ss`, in their order. -/
def Reports (s s' : NamingState) (ss : List Span) : Prop :=
  ∃ new, s'.found.errors = s.found.errors ++ new ∧ (new.map NamingError.span).Sublist ss

namespace Reports

variable {s s' s'' : NamingState} {ss ts : List Span}

theorem nothing (h : s'.found.errors = s.found.errors) (ss : List Span) : s.Reports s' ss :=
  ⟨[], by rw [h, List.append_nil], List.nil_sublist ss⟩

theorem append (h : s.Reports s' ss) (h' : s'.Reports s'' ts) : s.Reports s'' (ss ++ ts) := by
  obtain ⟨es, he, hs⟩ := h
  obtain ⟨fs, hf, ht⟩ := h'
  refine ⟨es ++ fs, by rw [hf, he, List.append_assoc], ?_⟩
  rw [List.map_append]
  exact hs.append ht

theorem mono (h : s.Reports s' ss) (hst : ss.Sublist ts) : s.Reports s' ts := by
  obtain ⟨es, he, hs⟩ := h
  exact ⟨es, he, hs.trans hst⟩

theorem fail (fault : NamingFault) (span : Span) (s : NamingState) :
    s.Reports (s.fail fault span) [span] := ⟨[⟨fault, span⟩], rfl, .refl _⟩

theorem lookUp (o : Occurrence) (s : NamingState) : s.Reports (s.lookUp o) [o.span] := by
  unfold NamingState.lookUp
  split
  case h_1 => exact nothing rfl _
  case h_2 => exact fail _ _ s

/-- A rejected declaration is reported at its name; its right-hand side reports nothing then. -/
theorem declare {id : NodeId} {span : Span} {name : Occurrence} {type : Option String}
    {rightSide : NamingState → NamingState} (hn : [name.span].Sublist ss)
    (hr : ∀ s : NamingState, s.Reports (rightSide s) ss) :
    s.Reports (s.declare id span name type rightSide) ss := by
  unfold NamingState.declare
  split
  case h_1 => exact (fail _ _ s).mono hn
  case h_2 => exact hr _

theorem inScope {part : NamingState → NamingState} (hp : ∀ s : NamingState, s.Reports (part s) ss) :
    s.Reports (s.inScope part) ss := hp _

end Reports

end NamingState

open NamingState

variable {source : String}

mutual

theorem Expr.reports_findNames : ∀ (e : Expr) (s : NamingState), s.Reports (e.findNames s) e.places
  | .binary _ left op right, s =>
    (left.reports_findNames s).append ((Reports.lookUp op _).append (right.reports_findNames _))
  | .character .., _ | .integer .., _ => .nothing rfl _
  | .name _ name, s => .lookUp name s
  | .apply _ name arg, s => (Reports.lookUp name s).append (arg.reports_findNames _)
  | .unary _ op operand, s => (Reports.lookUp op s).append (operand.reports_findNames _)
  | .error span, s => .fail _ span s

theorem Param.reports_findNames : ∀ (q : Param) (s : NamingState),
    s.Reports (q.findNames s) q.places
  | .blank _, _ => .nothing rfl _
  | .value _ expr, s => expr.reports_findNames s
  | .var _ name, s => .lookUp name s
  | .error span, s => .fail _ span s

end

mutual

theorem Decl.reports_findNames : ∀ (d : Decl) (s : NamingState), s.Reports (d.findNames s) d.places
  | .const _ _ name value, _ =>
    .declare (List.sublist_append_left [name.span] value.places) fun s =>
      (value.reports_findNames s).mono (List.sublist_cons_self ..)
  | .var _ _ type name, _ =>
    -- The name stands behind the type, which is only looked up where the name is new.
    .declare (List.sublist_append_right [type.span] [name.span]) fun s =>
      (Reports.lookUp type s).mono (List.sublist_append_left [type.span] [name.span])
  | .sequence _ _ items, s => Decl.reports_findNamesOfList items s
  | .error _ span, s => .fail _ span s

theorem Decl.reports_findNamesOfList : ∀ (ds : List Decl) (s : NamingState),
    s.Reports (Decl.findNamesOfList ds s) (Decl.placesOfList ds)
  | [], _ => .nothing rfl _
  | d :: ds, s => (d.reports_findNames s).append (Decl.reports_findNamesOfList ds _)

end

mutual

theorem Command.reports_findNames : ∀ (c : Command) (s : NamingState),
    s.Reports (c.findNames s) c.places
  | .assign _ target value, s => (Reports.lookUp target s).append (value.reports_findNames _)
  | .blank _, _ => .nothing rfl _
  | .call _ callee arg, s => (Reports.lookUp callee s).append (arg.reports_findNames _)
  | .ifElse _ cond thenBranch elseBranch, s =>
    (cond.reports_findNames s).append
      ((thenBranch.reports_findNames _).append (elseBranch.reports_findNames _))
  | .ifNoElse _ cond thenBranch, s =>
    (cond.reports_findNames s).append (thenBranch.reports_findNames _)
  | .letIn _ decl body, _ =>
    .inScope fun s => (decl.reports_findNames s).append (body.reports_findNames _)
  | .sequence _ items, s => Command.reports_findNamesOfList items s
  | .whileDo _ cond body, s => (cond.reports_findNames s).append (body.reports_findNames _)
  | .repeatUntil _ body cond, s => (body.reports_findNames s).append (cond.reports_findNames _)
  | .error span, s => .fail _ span s

theorem Command.reports_findNamesOfList : ∀ (cs : List Command) (s : NamingState),
    s.Reports (Command.findNamesOfList cs s) (Command.placesOfList cs)
  | [], _ => .nothing rfl _
  | c :: cs, s => (c.reports_findNames s).append (Command.reports_findNamesOfList cs _)

end

/-- The errors of a program are found at some of its places, in their order. -/
theorem Naming.errors_ofProgram_sublist (p : Program) :
    ((ofProgram p).errors.map NamingError.span).Sublist p.command.places := by
  obtain ⟨new, he, hs⟩ := p.command.reports_findNames .initial
  have hnew : (ofProgram p).errors = new := he
  rwa [hnew]

/-! ## Errors -/

theorem Lexeme.span_of_error?_eq_some {x : Lexeme} {e : LexicalError} (h : x.error? = some e) :
    e.span = x.span := by
  unfold error? at h
  split at h <;> cases h
  rfl

namespace Tokens

/-- Each lexeme starts behind the one before it. -/
theorem lexemes_start_lt (source : String) :
    (Scan.lexemes 0 source.toList).Pairwise fun x y => x.span.start < y.span.start := by
  have hl := layout_lexemes source
  refine hl.ordered.imp_of_mem fun {x y} hx _ h => ?_
  have hpos := (hl.standsIn x hx).1
  rw [Lexeme.token_span] at hpos
  omega

theorem errors_start_lt (source : String) :
    ((ofSource source).errors.map LexicalError.span).Pairwise (·.start < ·.start) := by
  rw [List.pairwise_map]
  refine (lexemes_start_lt source).filterMap _ fun x y hxy e he f hf => ?_
  rwa [Lexeme.span_of_error?_eq_some he, Lexeme.span_of_error?_eq_some hf]

theorem start_le (source : String) :
    ((ofSource source).toList.map Token.span).Pairwise (·.start ≤ ·.start) := by
  have hslice := isSliceOf_ofSource source
  rw [ofSource] at hslice ⊢
  rw [List.pairwise_map, List.pairwise_append]
  refine ⟨?_, List.pairwise_singleton _ _, fun t ht u hu => ?_⟩
  · rw [List.pairwise_map]
    refine (lexemes_start_lt source).imp fun {x y} h => ?_
    rw [Lexeme.token_span, Lexeme.token_span]
    exact Nat.le_of_lt h
  · obtain rfl := List.mem_singleton.1 hu
    have ht := hslice t (List.mem_append_left _ ht)
    exact Nat.le_trans ht.start_le_stop ht.stop_le

end Tokens

theorem Cursor.sorted_of_pairwise {c : Cursor}
    (h : (c.pending.map Token.span ++ [c.closing]).Pairwise (·.start ≤ ·.start)) : c.Sorted := by
  obtain ⟨hp, -, hc⟩ := List.pairwise_append.1 h
  have hn : ∀ s ∈ c.pending.map Token.span, s.start ≤ c.closing.start :=
    fun s hs => hc s hs _ (List.mem_singleton_self _)
  rw [Sorted, start, current]
  cases hts : c.pending with
  | nil => exact Nat.le_refl _
  | cons t ts =>
    rw [hts, List.map_cons] at hp hn
    have hm : ∀ s ∈ t.span :: ts.map Token.span, t.span.start ≤ s.start :=
      List.forall_mem_cons.2 ⟨Nat.le_refl _, (List.pairwise_cons.1 hp).1⟩
    exact .of_pairwise hp hm hn (hn t.span (List.mem_cons_self ..))

namespace Program

theorem sorted_ofTokens (source : String) :
    (Cursor.ofTokens (Tokens.ofSource source).toList).Sorted := by
  have h := Tokens.start_le source
  rw [Tokens.ofSource] at h ⊢
  rw [Cursor.ofTokens_concat _ rfl]
  exact Cursor.sorted_of_pairwise (by simpa using h)

/-- Faults are met from token to token. -/
theorem errors_start_le (source : String) :
    ((ofTokens (Tokens.ofSource source).toList).errors.map SyntaxError.span).Pairwise
      (·.start ≤ ·.start) := by
  have hends := Tokens.endsOnce_ofSource source
  have horder := List.pairwise_map.1 (Tokens.start_le source)
  rw [Read.errors, List.map_map, List.pairwise_map]
  refine (ofTokens _).sorted.imp_of_mem fun {f g} hf hg hle => ?_
  obtain ⟨t, ht, -, hs⟩ := exists_token_at_index hends hf
  obtain ⟨u, hu, -, hs'⟩ := exists_token_at_index hends hg
  obtain ⟨hi, rfl⟩ := List.getElem?_eq_some_iff.1 ht
  obtain ⟨hj, rfl⟩ := List.getElem?_eq_some_iff.1 hu
  rw [Function.comp_apply, Function.comp_apply, hs, hs']
  rcases Nat.eq_or_lt_of_le hle with heq | hlt
  · simp only [heq, Nat.le_refl]
  · exact List.pairwise_iff_getElem.1 horder _ _ hi hj hlt

end Program

theorem Naming.errors_start_le (source : String) :
    ((ofProgram (Program.ofTokens (Tokens.ofSource source).toList).node).errors.map
      NamingError.span).Pairwise (·.start ≤ ·.start) := by
  have h := (Cursor.singleCommand_outcome _).ascend (Program.sorted_ofTokens source)
  exact h.1.pairwise.sublist (errors_ofProgram_sublist _)

/-! ## Stages -/

theorem LexicalError.place?_diagnostic (e : LexicalError) :
    e.diagnostic.place? = some e.span := rfl

theorem SyntaxError.place?_diagnostic (e : SyntaxError) : e.diagnostic.place? = some e.span := rfl

theorem NamingError.place?_diagnostic (e : NamingError) : e.diagnostic.place? = some e.span := by
  obtain ⟨fault, span⟩ := e
  cases fault with
  | alreadyDeclared name previous => cases previous <;> rfl
  | undeclared name => rfl
  | malformed what => rfl

namespace Log

/-- The diagnostics of a stage are at the places `ss`, which are in source order. -/
structure AtPlaces (log : Log) (s : Stage) (ss : List Span) : Prop where
  places : (log.ofStage s).map Diagnostic.place? = ss.map some
  ordered : ss.Pairwise (·.start ≤ ·.start)
  /-- No two lexical errors are at one place. -/
  strictly : s = .tokenizer → ss.Pairwise (·.start < ·.start)

variable {xs : List LexicalError} {ys : List SyntaxError} {zs : List NamingError}

theorem exists_atPlaces_ofErrors (hx : (xs.map LexicalError.span).Pairwise (·.start < ·.start))
    (hy : (ys.map SyntaxError.span).Pairwise (·.start ≤ ·.start))
    (hz : (zs.map NamingError.span).Pairwise (·.start ≤ ·.start)) (s : Stage) :
    ∃ ss, (ofErrors xs ys zs).AtPlaces s ss := by
  have hstage := ofStage_ofErrors xs ys zs s
  cases s with
  | tokenizer =>
    refine ⟨xs.map LexicalError.span, ?_, hx.imp Nat.le_of_lt, fun _ => hx⟩
    simp [hstage, LexicalError.place?_diagnostic]
  | parser =>
    refine ⟨ys.map SyntaxError.span, ?_, hy, nofun⟩
    simp [hstage, SyntaxError.place?_diagnostic]
  | identifier =>
    refine ⟨zs.map NamingError.span, ?_, hz, nofun⟩
    simp [hstage, NamingError.place?_diagnostic]
  | checker => exact ⟨[], by rw [hstage]; rfl, .nil, nofun⟩
  | exporter => exact ⟨[], by rw [hstage]; rfl, .nil, nofun⟩

theorem isError_of_mem_ofErrors : ∀ e ∈ (ofErrors xs ys zs).entries, e.2.isError := by
  simp [entries_ofErrors, or_imp, forall_and, LexicalError.isError_diagnostic,
    SyntaxError.isError_diagnostic, NamingError.isError_diagnostic]

/-- Places of diagnostics are those of labels. -/
theorem AtPlaces.slices {log : Log} {s : Stage} {ss : List Span} (h : log.AtPlaces s ss)
    (hlog : log.IsIn source) : Slices source ss := by
  intro x hx
  have hmem : some x ∈ (log.ofStage s).map Diagnostic.place? := by
    rw [h.places]
    exact List.mem_map_of_mem hx
  obtain ⟨d, hd, hplace⟩ := List.mem_map.1 hmem
  obtain ⟨e, he, rfl⟩ := List.mem_map.1 hd
  exact hlog e (List.mem_of_mem_filter he) x (Diagnostic.place?_mem hplace)

end Log

/-! ## Runs -/

namespace Run

/-- The positions of the places of each stage, and the summary that shows its errors at them. -/
structure ShowsAt (r : Run) (places : Stage → List Span) (positions : Stage → List Position) :
    Prop where
  positions_eq : ∀ s,
    (places s).map (fun x => r.lines.position? x.start) = (positions s).map some
  summary_eq : r.isOk = false → r.summary? =
    some (writeLines (r.log.summaryLines fun s => (positions s).map some))

variable {o : Options}

theorem exists_atPlaces (source : String) (o : Options) (s : Stage) :
    ∃ ss, (ofSource source o).log.AtPlaces s ss := by
  have hx := Tokens.errors_start_lt source
  have hy := Program.errors_start_le source
  have hz := Naming.errors_start_le source
  obtain ⟨xs, ys, zs, hlog, hxs, hys, hzs⟩ := exists_ofErrors source o
  rw [hlog]
  exact Log.exists_atPlaces_ofErrors (hx.sublist (hxs.map _)) (hy.sublist (hys.map _))
    (hz.sublist (hzs.map _)) s

theorem isError_of_mem_ofStage {s : Stage} :
    ∀ d ∈ (ofSource source o).log.ofStage s, d.isError := by
  have hentries : ∀ e ∈ (ofSource source o).log.entries, e.2.isError := by
    obtain ⟨xs, ys, zs, hlog, -⟩ := exists_ofErrors source o
    rw [hlog]
    exact Log.isError_of_mem_ofErrors
  intro d hd
  obtain ⟨e, he, rfl⟩ := List.mem_map.1 hd
  exact hentries e (List.mem_of_mem_filter he)

theorem errorsOf_eq (s : Stage) :
    (ofSource source o).log.errorsOf s = (ofSource source o).log.ofStage s :=
  List.filter_eq_self.2 isError_of_mem_ofStage

section ShowsAt

variable {places : Stage → List Span} (h : ∀ s, (ofSource source o).log.AtPlaces s (places s))
include h

theorem map_position?_errorsOf (ls : Lines) (s : Stage) :
    ((ofSource source o).log.errorsOf s).map (Diagnostic.position? ls) =
      (places s).map fun x => (ls.position? x.start).map some := by
  have hplaces := congrArg
    (List.map (Option.mapM fun x : Span => ls.position? x.start)) (h s).places
  rw [List.map_map, List.map_map] at hplaces
  rw [errorsOf_eq]
  refine hplaces.trans (List.map_congr_left fun x _ => ?_)
  cases hp : ls.position? x.start <;> simp [hp]

theorem errorsAt {positions : Stage → List Position} (hp : ∀ s,
    (places s).map (fun x => (ofSource source o).lines.position? x.start) =
      (positions s).map some) :
    (ofSource source o).log.ErrorsAt (ofSource source o).lines fun s => (positions s).map some := by
  intro s
  have hsome := congrArg (List.map (Option.map some)) (hp s)
  rw [List.map_map, List.map_map] at hsome
  rw [map_position?_errorsOf h, List.map_map]
  exact hsome

theorem showsAt {positions : Stage → List Position} (hp : ∀ s,
    (places s).map (fun x => (ofSource source o).lines.position? x.start) =
      (positions s).map some) :
    (ofSource source o).ShowsAt places positions :=
  ⟨hp, fun hok => Log.summary?_eq_some (by simpa [isOk] using hok) (errorsAt h hp)⟩

theorem exists_showsAt {text : String} (htext : (ofSource source o).summary? = some text) :
    ∃ positions, (ofSource source o).ShowsAt places positions := by
  obtain ⟨found, hfound⟩ := Log.exists_errorsAt htext
  have hpositions : ∀ s, ∃ ps : List Position,
      (places s).map (fun x => (ofSource source o).lines.position? x.start) = ps.map some := by
    intro s
    have hmap := hfound s
    rw [map_position?_errorsOf h, ← mapM_eq_some_iff, mapM_map_option] at hmap
    obtain ⟨ps, hps, -⟩ := Option.map_eq_some_iff.1 hmap
    exact ⟨ps, mapM_eq_some_iff.1 hps⟩
  choose positions hpositions using hpositions
  exact ⟨positions, showsAt h hpositions⟩

theorem exists_showsAt_of_lt (hsize : source.utf8ByteSize < 2 ^ 32 - 1) :
    ∃ positions, (ofSource source o).ShowsAt places positions ∧
      ∀ s, (positions s).Pairwise (· ≤ ·) := by
  have hlt : ∀ s, ∀ x ∈ places s, x.start < 2 ^ 32 - 1 := by
    intro s x hx
    have hslice := (h s).slices (isIn_log source o) x hx
    have hle := hslice.start_le_stop
    have hstop := hslice.stop_le
    omega
  refine ⟨fun s => (places s).map fun x => (Lines.ofSource source).position x.start,
    showsAt h fun s => ?_, fun s => ?_⟩
  · rw [lines_ofSource, List.map_map]
    exact List.map_congr_left fun x hx => Lines.position?_eq_some_position (hlt s x hx)
  · have hlength := Lines.length_ofSource_le source
    refine List.pairwise_map.2 ((h s).ordered.imp_of_mem fun {x y} _ hy hle => ?_)
    exact Lines.position_le_position (by omega) hle (hlt s y hy)

end ShowsAt

/-- Each stage reports from the beginning of the source to its end, and the summary shows its errors
at positions in this order as long as lines and columns do not wrap. -/
theorem ofSource_inSourceOrder (source : String) (o : Options) :
    let r := ofSource source o
    ∃ places : Stage → List Span, (∀ s, r.log.AtPlaces s (places s)) ∧
      (∀ text, r.summary? = some text → ∃ positions, r.ShowsAt places positions) ∧
      (source.utf8ByteSize < 2 ^ 32 - 1 →
        ∃ positions, r.ShowsAt places positions ∧ ∀ s, (positions s).Pairwise (· ≤ ·)) := by
  intro r
  choose places hplaces using exists_atPlaces source o
  exact ⟨places, hplaces, fun _ htext => exists_showsAt hplaces htext, exists_showsAt_of_lt hplaces⟩

/-- A name declared again, a name never declared and a value that cannot be read. -/
theorem ofSource_inSourceOrder_declaredAgain :
    let source := "let integer n;\n  char n in\n  m := $"
    let r := ofSource source {}
    source.utf8ByteSize < 2 ^ 32 - 1 ∧
      ∃ places positions, (∀ s, r.log.AtPlaces s (places s)) ∧ r.ShowsAt places positions ∧
        (∀ s, (positions s).Pairwise (· ≤ ·)) ∧ (positions .identifier).length = 3 := by
  intro source r
  have hsize : source.utf8ByteSize < 2 ^ 32 - 1 := by decide +kernel
  have hlength : (r.log.ofStage .identifier).length = 3 := by decide +kernel
  obtain ⟨places, hplaces, -, hpositions⟩ := ofSource_inSourceOrder source {}
  obtain ⟨positions, hshows, hle⟩ := hpositions hsize
  have hreported := congrArg List.length (hplaces .identifier).places
  have hshown := congrArg List.length (hshows.positions_eq .identifier)
  simp only [List.length_map] at hreported hshown
  refine ⟨hsize, places, positions, hplaces, hshows, hle, ?_⟩
  rw [← hshown, ← hreported]
  exact hlength

end Run

end TriLang
