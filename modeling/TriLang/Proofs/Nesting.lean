import TriLang.Proofs.Operators
import TriLang.Proofs.SourceOrder

/-!
# Spans nest

In the tree of a program that is read without errors, each node lies inside the node that it is
part of, behind the parts in front of it.  A node comes to its span in one of four ways: it is a
token, it goes from a token to the end of what is read last, it goes from its first part to its last,
or it is empty and takes the place of the bracket behind it.  Blocks and brackets leave no node, so
the parts of a node may be apart from each other and from its ends.
-/

namespace TriLang

/-! ## Spans in a span -/

namespace Span

/-- `s` is not reversed and lies inside `t`. -/
structure Within (s t : Span) : Prop where
  start_le : t.start ≤ s.start
  upright : s.start ≤ s.stop
  stop_le : s.stop ≤ t.stop

/-- `ss` lie inside `t`, one behind the other. -/
structure Holds (t : Span) (ss : List Span) : Prop where
  within : ∀ s ∈ ss, s.Within t
  apart : ss.Pairwise (·.stop ≤ ·.start)

@[simp] theorem join_self (s : Span) : s.join s = s := by simp [join]

namespace Holds

variable {s t u x y : Span} {ss us : List Span}

theorem nil (t : Span) : t.Holds [] := ⟨List.forall_mem_nil _, .nil⟩

theorem singleton (h : s.Within t) : t.Holds [s] :=
  ⟨List.forall_mem_singleton.2 h, List.pairwise_singleton _ _⟩

theorem widen (h : t.Holds ss) (hstart : u.start ≤ t.start) (hstop : t.stop ≤ u.stop) :
    u.Holds ss where
  within s hs :=
    have hw := h.within s hs
    ⟨Nat.le_trans hstart hw.start_le, hw.upright, Nat.le_trans hw.stop_le hstop⟩
  apart := h.apart

theorem append (hs : t.Holds ss) (hu : t.Holds us) (h : ∀ s ∈ ss, ∀ u ∈ us, s.stop ≤ u.start) :
    t.Holds (ss ++ us) :=
  ⟨List.forall_mem_append.2 ⟨hs.within, hu.within⟩, List.pairwise_append.2 ⟨hs.apart, hu.apart, h⟩⟩

/-- All but the first lie behind the first. -/
theorem tail (h : t.Holds (s :: ss)) : Holds ⟨s.stop, t.stop⟩ ss where
  within x hx :=
    have hw := h.within x (List.mem_cons_of_mem s hx)
    ⟨(List.pairwise_cons.1 h.apart).1 x hx, hw.upright, hw.stop_le⟩
  apart := (List.pairwise_cons.1 h.apart).2

/-- The span from the first to the last holds them all. -/
theorem hull (h : t.Holds (x :: ss)) (hy : (x :: ss).getLast? = some y) :
    (x.join y).Within t ∧ (x.join y).Holds (x :: ss) := by
  have hx := h.within x List.mem_cons_self
  have hyt := h.within y (List.mem_of_getLast? hy)
  have hfirst : ∀ s ∈ x :: ss, x.start ≤ s.start := by
    refine List.forall_mem_cons.2 ⟨Nat.le_refl _, fun s hs => ?_⟩
    exact Nat.le_trans hx.upright ((List.pairwise_cons.1 h.apart).1 s hs)
  have hlast : ∀ s ∈ x :: ss, s.stop ≤ y.stop := by
    obtain ⟨us, hus⟩ := List.getLast?_eq_some_iff.1 hy
    have hapart := h.apart
    rw [hus] at hapart ⊢
    refine List.forall_mem_append.2 ⟨fun s hs => ?_, List.forall_mem_singleton.2 (Nat.le_refl _)⟩
    have hsy := (List.pairwise_append.1 hapart).2.2 s hs y (List.mem_singleton_self y)
    exact Nat.le_trans hsy hyt.upright
  have hstart : (x.join y).start = x.start :=
    Nat.min_eq_left (hfirst y (List.mem_of_getLast? hy))
  have hstop : (x.join y).stop = y.stop := Nat.max_eq_right (hlast x List.mem_cons_self)
  refine ⟨⟨?_, ?_, ?_⟩, fun s hs => ⟨?_, (h.within s hs).upright, ?_⟩, h.apart⟩
  · exact hstart ▸ hx.start_le
  · have hxy := hlast x List.mem_cons_self
    have hup := hx.upright
    omega
  · exact hstop ▸ hyt.stop_le
  · exact hstart ▸ hfirst s hs
  · exact hstop ▸ hlast s hs

end Holds

end Span

/-! ## Nodes -/

/-- A node of a tree, of any of its families. -/
inductive Node
  | occurrence (o : Occurrence)
  | expr (e : Expr)
  | param (q : Param)
  | decl (d : Decl)
  | command (c : Command)
  | program (p : Program)

namespace Node

def span : Node → Span
  | occurrence o => o.span
  | expr e => e.span
  | param q => q.span
  | decl d => d.span
  | command c => c.span
  | program p => p.span

/-- The parts of a node in source order. -/
def children : Node → List Node
  | occurrence _ => []
  | expr (.binary _ left op right) => [expr left, occurrence op, expr right]
  | expr (.name _ name) => [occurrence name]
  | expr (.apply _ name arg) => [occurrence name, param arg]
  | expr (.unary _ op operand) => [occurrence op, expr operand]
  | expr (.character ..) | expr (.integer ..) | expr (.error _) => []
  | param (.value _ e) => [expr e]
  | param (.var _ name) => [occurrence name]
  | param (.blank _) | param (.error _) => []
  | decl (.const _ _ name value) => [occurrence name, expr value]
  | decl (.var _ _ type name) => [occurrence type, occurrence name]
  | decl (.sequence _ _ items) => items.map decl
  | decl (.error ..) => []
  | command (.assign _ target value) => [occurrence target, expr value]
  | command (.call _ callee arg) => [occurrence callee, param arg]
  | command (.ifElse _ cond thenBranch elseBranch) =>
    [expr cond, command thenBranch, command elseBranch]
  | command (.ifNoElse _ cond thenBranch) => [expr cond, command thenBranch]
  | command (.letIn _ d body) => [decl d, command body]
  | command (.sequence _ items) => items.map command
  | command (.whileDo _ cond body) => [expr cond, command body]
  | command (.repeatUntil _ body cond) => [command body, expr cond]
  | command (.blank _) | command (.error _) => []
  | program p => [command p.command]

/-- Each node from `n` down holds its parts, one behind the other. -/
inductive Nested : Node → Prop
  | intro {n} (holds : n.span.Holds (n.children.map span)) (nested : ∀ m ∈ n.children, m.Nested) :
      Nested n

end Node

/-! ## Cursors -/

namespace Cursor

/-- The spans of the tokens ahead, the closing one too. -/
def spansAhead (c : Cursor) : List Span := c.pending.map Token.span ++ [c.closing]

/-- What is ahead of `c` lies behind what is read, one token behind the other. -/
structure LaidOut (c : Cursor) : Prop where
  holds : Span.Holds ⟨c.readTo, c.closing.stop⟩ c.spansAhead
  closing : c.closing.stop = c.closing.start

/-- The nodes `ns` are read between `c` and `d`, one behind the other. -/
structure Nests (c d : Cursor) (ns : List Node) : Prop where
  laidOut : d.LaidOut
  start_le : c.start ≤ d.start
  readTo_le : c.readTo ≤ d.readTo
  holds : Span.Holds ⟨c.start, d.readTo⟩ (ns.map Node.span)
  nested : ∀ n ∈ ns, n.Nested

variable {c d e : Cursor} {kind : TokenKind} {t : Token} {o : Occurrence} {fs : List Fault}
  {n m : Node} {ns ms : List Node}

theorem current_span_mem_spansAhead (c : Cursor) : c.current.span ∈ c.spansAhead := by
  unfold current spansAhead
  cases c.pending <;> simp

theorem Steps.spansAhead_eq (h : c.Steps kind t d) : c.spansAhead = t.span :: d.spansAhead := by
  have hclosing : d.closing = c.closing := by rw [h.eq_past]; rfl
  rw [spansAhead, h.pending_eq, spansAhead, hclosing]
  rfl

theorem LaidOut.readTo_le_start (h : c.LaidOut) : c.readTo ≤ c.start :=
  (h.holds.within _ c.current_span_mem_spansAhead).start_le

namespace Nests

theorem refl (h : c.LaidOut) : c.Nests c [] :=
  ⟨h, Nat.le_refl _, Nat.le_refl _, .nil _, List.forall_mem_nil _⟩

theorem append (h : c.Nests d ns) (h' : d.Nests e ms) : c.Nests e (ns ++ ms) where
  laidOut := h'.laidOut
  start_le := Nat.le_trans h.start_le h'.start_le
  readTo_le := Nat.le_trans h.readTo_le h'.readTo_le
  holds := by
    have hns : Span.Holds ⟨c.start, e.readTo⟩ (ns.map Node.span) :=
      h.holds.widen (Nat.le_refl _) h'.readTo_le
    have hms : Span.Holds ⟨c.start, e.readTo⟩ (ms.map Node.span) :=
      h'.holds.widen h.start_le (Nat.le_refl _)
    rw [List.map_append]
    refine hns.append hms fun s hs u hu => ?_
    calc s.stop ≤ d.readTo := (h.holds.within s hs).stop_le
      _ ≤ d.start := h.laidOut.readTo_le_start
      _ ≤ u.start := (h'.holds.within u hu).start_le
  nested := List.forall_mem_append.2 ⟨h.nested, h'.nested⟩

/-- What is read behind the last node leaves none. -/
theorem upTo (h : c.Nests d ns) (h' : d.Nests e []) : c.Nests e ns := by
  simpa using h.append h'

theorem handOut (h : c.Nests d ns) : c.Nests d.handOut ns :=
  ⟨⟨h.laidOut.holds, h.laidOut.closing⟩, h.start_le, h.readTo_le, h.holds, h.nested⟩

/-- The nodes read are the parts of one. -/
theorem node (h : c.Nests d ns) (within : n.span.Within ⟨c.start, d.readTo⟩)
    (holds : n.span.Holds (ns.map Node.span)) (children : n.children = ns) : c.Nests d [n] where
  laidOut := h.laidOut
  start_le := h.start_le
  readTo_le := h.readTo_le
  holds := .singleton within
  nested := by
    subst children
    exact List.forall_mem_singleton.2 (.intro holds h.nested)

/-- From the current token to the end of the last token read all nodes are held. -/
theorem holds_spanSince (h : c.Nests d ns) :
    (d.spanSince c.current.span).Holds (ns.map Node.span) :=
  h.holds.widen (Nat.le_refl _) (Nat.le_max_left ..)

/-- A node from its first part to its last. -/
theorem hull (h : c.Nests d (n :: ns)) (last : (n :: ns).getLast? = some m) {p : Node}
    (span : p.span = n.span.join m.span) (children : p.children = n :: ns) : c.Nests d [p] := by
  have hlast : ((n :: ns).map Node.span).getLast? = some m.span := by
    rw [List.getLast?_map, last]
    rfl
  obtain ⟨hwithin, hholds⟩ := h.holds.hull hlast
  exact h.node (span ▸ hwithin) (span ▸ hholds) children

end Nests

namespace LaidOut

/-- A token that is passed lies between the cursors. -/
theorem steps (h : c.LaidOut) (hs : c.Steps kind t d) :
    t.span.Within ⟨c.start, d.readTo⟩ ∧ c.Nests d [] := by
  have hholds := h.holds
  rw [hs.spansAhead_eq] at hholds
  have hwithin := hholds.within _ List.mem_cons_self
  have hstart : c.start = t.span.start := by rw [start, hs.current_eq]
  have hreadTo : d.readTo = t.span.stop := by rw [hs.eq_past]; rfl
  have hclosing : d.closing = c.closing := by rw [hs.eq_past]; rfl
  have hd : d.LaidOut := ⟨by simpa only [hreadTo, hclosing] using hholds.tail,
    by rw [hclosing]; exact h.closing⟩
  have hle : t.span.stop ≤ d.start := hreadTo ▸ hd.readTo_le_start
  refine ⟨⟨Nat.le_of_eq hstart, hwithin.upright, Nat.le_of_eq hreadTo.symm⟩, hd, ?_, ?_, .nil _,
    List.forall_mem_nil _⟩
  · exact hstart ▸ Nat.le_trans hwithin.upright hle
  · exact hreadTo ▸ Nat.le_trans hwithin.start_le hwithin.upright

/-- A node that is a token. -/
theorem leaf (h : c.LaidOut) (hs : c.Steps kind t d) (span : n.span = t.span)
    (children : n.children = []) : c.Nests d [n] := by
  obtain ⟨hwithin, hd⟩ := h.steps hs
  exact hd.node (span ▸ hwithin) (.nil _) children

theorem occurs (h : c.LaidOut) (ho : c.Occurs kind o d) : c.Nests d [.occurrence o] := by
  obtain ⟨hs⟩ := ho
  exact (h.leaf hs rfl rfl).handOut

/-- A node from the token under the cursor to the end of the last token read. -/
theorem fromToken (h : c.LaidOut) (hs : c.Steps kind t d) (hd : d.readTo ≤ e.readTo)
    (hns : c.Nests e ns) (span : n.span = e.spanSince t.span) (children : n.children = ns) :
    c.Nests e [n] := by
  obtain ⟨⟨hstart, hupright, hstop⟩, -⟩ := h.steps hs
  have hwithin : (e.spanSince t.span).Within ⟨c.start, e.readTo⟩ :=
    ⟨hstart, Nat.le_trans hupright (Nat.le_max_right ..),
      Nat.max_le.2 ⟨Nat.le_refl _, Nat.le_trans hstop hd⟩⟩
  have hholds := hns.holds_spanSince
  rw [hs.current_eq] at hholds
  exact hns.node (span ▸ hwithin) (span ▸ hholds) children

/-- A node that a keyword opens. -/
theorem opens (h : c.LaidOut) (hs : c.Steps kind t d) (hd : d.Nests e ns)
    (span : n.span = e.spanSince t.span) (children : n.children = ns) : c.Nests e [n] :=
  h.fromToken hs hd.readTo_le ((h.steps hs).2.append hd) span children

/-- A node with a name or an operator as its first part. -/
theorem begins (h : c.LaidOut) (ho : c.Occurs kind o d) (hd : d.Nests e ns)
    (span : n.span = e.spanSince o.span) (children : n.children = .occurrence o :: ns) :
    c.Nests e [n] := by
  have hns := (h.occurs ho).append hd
  obtain ⟨hs⟩ := ho
  exact h.fromToken hs hd.readTo_le hns span children

theorem stepOver (h : c.LaidOut) : c.start ≤ c.stepOver.readTo ∧ c.Nests c.stepOver [] := by
  unfold Cursor.stepOver
  split
  case h_1 hp =>
    have hstart : c.start = c.closing.start := by simp [start, current, hp]
    have hle : c.start ≤ c.closing.stop := by rw [hstart, h.closing]
    have hclosing : c.closing.Within ⟨c.closing.stop, c.closing.stop⟩ :=
      ⟨Nat.le_of_eq h.closing, Nat.le_of_eq h.closing.symm, Nat.le_refl _⟩
    refine ⟨hle, ⟨?_, h.closing⟩, Nat.le_refl _, Nat.le_trans h.readTo_le_start hle, .nil _,
      List.forall_mem_nil _⟩
    simpa [spansAhead, hp] using Span.Holds.singleton hclosing
  case h_2 t rest hp =>
    obtain ⟨⟨hstart, hupright, hstop⟩, hd⟩ := h.steps (d := c.past t rest) ⟨rfl, hp, rfl⟩
    exact ⟨Nat.le_trans hstart (Nat.le_trans hupright hstop), hd⟩

theorem expects (h : c.LaidOut) (he : c.Expects kind d fs) : c.Nests d [] := by
  cases he with
  | missed => exact .refl h
  | met => exact h.stepOver.2

end LaidOut

namespace Nests

theorem steps (h : c.Nests d ns) (hs : d.Steps kind t e) : c.Nests e ns :=
  h.upTo (h.laidOut.steps hs).2

theorem occurs (h : c.Nests d ns) (ho : d.Occurs kind o e) : c.Nests e (ns ++ [.occurrence o]) :=
  h.append (h.laidOut.occurs ho)

theorem expects (h : c.Nests d ns) (he : d.Expects kind e fs) : c.Nests e ns :=
  h.upTo (h.laidOut.expects he)

end Nests

end Cursor

/-- What comes of reading `p` from `c` to `d`.  The span of an empty parameter is at the bracket
behind it, so a parameter is taken together with its bracket. -/
def Phrase.Nesting : (p : Phrase) → Cursor → p.Tree → Cursor → Prop
  | .command, c, t, d | .singleCommand, c, t, d => c.Nests d [.command t]
  | .moreCommands, c, ts, d => c.Nests d (ts.map .command)
  | .declaration, c, t, d | .singleDeclaration, c, t, d => c.Nests d [.decl t]
  | .moreDeclarations, c, ts, d => c.Nests d (ts.map .decl)
  | .expression, c, t, d | .primary, c, t, d => c.Nests d [.expr t]
  | .parameter, c, t, d => ∀ e, d.Expects .rightBracket e [] → c.Nests e [.param t]

/-- What is read without faults nests. -/
theorem Phrase.Outcome.nests {p : Phrase} {c d : Cursor} {t : p.Tree} {fs : List Fault}
    (h : p.Outcome c t d fs) (hc : c.LaidOut) (hfs : fs = []) : p.Nesting c t d := by
  induction h with try simp only [List.append_eq_nil_iff] at hfs
  | lone _ _ ih ih' =>
    have hx := ih hc hfs.1
    exact hx.upTo (ih' hx.laidOut hfs.2)
  | @sequence c d e x xs y fs gs _ _ last ih ih' =>
    have hx := ih hc hfs.1
    have hxs := hx.append (ih' hx.laidOut hfs.2)
    have hy : (Node.command x :: xs.map .command).getLast? = some (.command y) := by
      simp [List.getLast?_cons, last]
    exact hxs.hull hy rfl rfl
  | noMore => exact .refl hc
  | more semicolon _ _ ih ih' =>
    obtain ⟨-, hd⟩ := hc.steps semicolon
    have hx := hd.append (ih hd.laidOut hfs.1)
    exact hx.append (ih' hx.laidOut hfs.2)
  | assign name becomes _ ih =>
    obtain ⟨-, hd⟩ := (hc.occurs name).laidOut.steps becomes
    exact hc.begins name (hd.append (ih hd.laidOut hfs)) rfl rfl
  | call name left _ right ih =>
    obtain ⟨hf, rfl⟩ := hfs
    obtain ⟨-, he⟩ := (hc.occurs name).laidOut.steps left
    exact hc.begins name (he.append (ih he.laidOut hf _ right)) rfl rfl
  | block left _ right ih =>
    obtain ⟨-, hd⟩ := hc.steps left
    exact hd.append ((ih hd.laidOut hfs.1).expects right)
  | letIn kwLet _ kwIn _ ih ih' =>
    obtain ⟨hf, -, hh⟩ := hfs
    obtain ⟨-, hd⟩ := hc.steps kwLet
    have hx := (ih hd.laidOut hf).expects kwIn
    exact hc.opens kwLet (hx.append (ih' hx.laidOut hh)) rfl rfl
  | ifElse kwIf _ kwThen _ kwElse _ ih ih' ih'' =>
    obtain ⟨hf, -, hh, hi⟩ := hfs
    obtain ⟨-, hd⟩ := hc.steps kwIf
    have hx := (ih hd.laidOut hf).expects kwThen
    have hy := (hx.append (ih' hx.laidOut hh)).steps kwElse
    exact hc.opens kwIf (hy.append (ih'' hy.laidOut hi)) rfl rfl
  | ifNoElse kwIf _ kwThen _ kwNoElse ih ih' =>
    obtain ⟨hf, -, hh⟩ := hfs
    obtain ⟨-, hd⟩ := hc.steps kwIf
    have hx := (ih hd.laidOut hf).expects kwThen
    exact hc.opens kwIf ((hx.append (ih' hx.laidOut hh)).steps kwNoElse) rfl rfl
  | whileDo kwWhile _ kwDo _ ih ih' =>
    obtain ⟨hf, -, hh⟩ := hfs
    obtain ⟨-, hd⟩ := hc.steps kwWhile
    have hx := (ih hd.laidOut hf).expects kwDo
    exact hc.opens kwWhile (hx.append (ih' hx.laidOut hh)) rfl rfl
  | repeatUntil kwRepeat _ kwUntil _ ih ih' =>
    obtain ⟨hf, -, hh⟩ := hfs
    obtain ⟨-, hd⟩ := hc.steps kwRepeat
    have hx := (ih hd.laidOut hf).expects kwUntil
    exact hc.opens kwRepeat (hx.append (ih' hx.laidOut hh)) rfl rfl
  | blank kwNothing => exact hc.leaf kwNothing rfl rfl
  | loneDeclaration _ _ ih ih' =>
    have hx := ih hc hfs.1
    exact hx.upTo (ih' hx.laidOut hfs.2)
  | @declarationSequence c d e x xs y fs gs _ _ last ih ih' =>
    have hx := ih hc hfs.1
    have hxs := hx.append (ih' hx.laidOut hfs.2)
    have hy : (Node.decl x :: xs.map .decl).getLast? = some (.decl y) := by
      simp [List.getLast?_cons, last]
    exact (hxs.hull hy rfl rfl).handOut
  | noMoreDeclarations => exact .refl hc
  | moreDeclarations semicolon _ _ ih ih' =>
    obtain ⟨-, hd⟩ := hc.steps semicolon
    have hx := hd.append (ih hd.laidOut hfs.1)
    exact hx.append (ih' hx.laidOut hfs.2)
  | const kwConst name kwIs _ ih =>
    obtain ⟨-, hd⟩ := hc.steps kwConst
    have ho := (hd.laidOut.occurs name).expects kwIs
    exact (hc.opens kwConst (ho.append (ih ho.laidOut hfs.2)) rfl rfl).handOut
  | var type name =>
    have hd := (hc.occurs type).laidOut
    exact (hc.begins type (hd.occurs name) rfl rfl).handOut
  | operand _ ih => exact ih hc hfs
  | binary _ op _ ih ih' =>
    have hx := (ih hc hfs.1).occurs op
    exact (hx.append (ih' hx.laidOut hfs.2)).hull rfl rfl rfl
  | integer literal => exact hc.leaf literal rfl rfl
  | character literal => exact hc.leaf literal rfl rfl
  | name name => exact hc.begins name (.refl (hc.occurs name).laidOut) rfl rfl
  | apply name left _ right ih =>
    obtain ⟨hf, rfl⟩ := hfs
    obtain ⟨-, he⟩ := (hc.occurs name).laidOut.steps left
    exact hc.begins name (he.append (ih he.laidOut hf _ right)) rfl rfl
  | unary op _ ih => exact hc.begins op (ih (hc.occurs op).laidOut hfs) rfl rfl
  | bracketed left _ right ih =>
    obtain ⟨-, hd⟩ := hc.steps left
    exact hd.append ((ih hd.laidOut hfs.1).expects right)
  | @varParameter c d e t o kwVar name =>
    intro f right
    obtain ⟨-, hd⟩ := hc.steps kwVar
    have hname := hd.laidOut.occurs name
    have hq := hc.opens (n := .param (.var (e.spanSince t.span) o)) kwVar hname rfl rfl
    exact hq.expects right
  | noParameter =>
    intro e right
    cases right
    -- The empty span is that of the start of the bracket, which is passed now.
    obtain ⟨hle, he⟩ := hc.stepOver
    exact he.node ⟨Nat.le_refl _, Nat.le_refl _, hle⟩ (.nil _) rfl
  | @value c d x fs _ ih =>
    intro e right
    have hx := ih hc hfs
    have hq := hx.hull (p := .param (.value x.span x)) rfl (Span.join_self x.span).symm rfl
    exact hq.expects right
  | bareName | openIf | noCommand | unnamedConst | unnamedVar | noDeclaration | noExpression
  | unnamedVarParameter | refusedParameter =>
    simp at hfs

/-! ## Programs -/

/-- The tokens of a source text lie one behind the other, and the closing one is empty. -/
theorem Cursor.laidOut_ofTokens (source : String) :
    (ofTokens (Tokens.ofSource source).toList).LaidOut := by
  have hl := Scan.layout_lexemes 0 source.toList [] rfl rfl
  have hslices := Tokens.isSliceOf_ofSource source
  rw [Tokens.ofSource] at hslices ⊢
  rw [ofTokens_concat _ rfl]
  refine ⟨⟨List.forall_mem_append.2 ⟨fun s hs => ?_, ?_⟩, ?_⟩, rfl⟩
  · obtain ⟨t, ht, rfl⟩ := List.mem_map.1 hs
    have hslice := hslices t (List.mem_append_left _ ht)
    exact ⟨Nat.zero_le _, hslice.start_le_stop, hslice.stop_le⟩
  · exact List.forall_mem_singleton.2 ⟨Nat.zero_le _, Nat.le_refl _, Nat.le_refl _⟩
  · refine List.pairwise_append.2 ⟨?_, List.pairwise_singleton _ _, fun s hs u hu => ?_⟩
    · simpa [List.pairwise_map] using hl.ordered
    · obtain ⟨t, ht, rfl⟩ := List.mem_map.1 hs
      obtain rfl := List.mem_singleton.1 hu
      exact (hslices t (List.mem_append_left _ ht)).stop_le

namespace Program

/-- In the tree of a text without syntax errors every node holds its parts, one behind the other. -/
theorem ofSource_nested {source : String}
    (h : (ofTokens (Tokens.ofSource source).toList).errors = []) :
    (Node.program (ofSource source)).Nested := by
  let c := Cursor.ofTokens (Tokens.ofSource source).toList
  have hfaults : c.program.faults = [] := ofTokens_errors_eq_nil.1 h
  rw [Cursor.program_faults, List.append_eq_nil_iff] at hfaults
  have hcommand : c.Nests c.singleCommand.next [.command c.singleCommand.node] :=
    c.singleCommand_outcome.nests (Cursor.laidOut_ofTokens source) hfaults.1
  exact .intro hcommand.holds_spanSince hcommand.nested

/-- The block and the brackets leave no node, and an empty parameter is at its bracket. -/
theorem ofSource_nested_block :
    let source := "begin x := (a + f( )) * 2; put('c') end"
    (ofTokens (Tokens.ofSource source).toList).errors = [] ∧
      (Node.program (ofSource source)).Nested ∧ (ofSource source).span = ⟨0, 39⟩ ∧
      (ofSource source).command.span = ⟨6, 35⟩ := by
  intro source
  have h : (ofTokens (Tokens.ofSource source).toList).errors = [] := by decide +kernel
  exact ⟨h, ofSource_nested h, by decide +kernel, by decide +kernel⟩

end Program

end TriLang
