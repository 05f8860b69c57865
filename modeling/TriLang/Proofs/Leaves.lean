import TriLang.Proofs.CleanRun
import TriLang.Proofs.Outcome

/-!
# Leaves of a tree

Reading makes nothing up.  The names, operators and literals of a tree are tokens that were read, in
their order, also where the text is no program: what cannot be read may be left out of the tree, and
nothing else comes into it.
-/

namespace TriLang

/-- A token that stays in a tree. -/
inductive Leaf
  /-- A name that stands for something. -/
  | name (o : Occurrence)
  | operator (o : Occurrence)
  /-- The name of the declaration `id`, which is at `span`. -/
  | declared (id : NodeId) (span : Span) (name : Occurrence)
  | integer (span : Span) (spelling : String)
  | character (span : Span) (spelling : String)
  deriving DecidableEq

namespace Leaf

def token : Leaf → Token
  | name o | declared _ _ o => ⟨.identifier, o.spelling, o.span⟩
  | operator o => ⟨.operator, o.spelling, o.span⟩
  | integer span spelling => ⟨.intLiteral, spelling, span⟩
  | character span spelling => ⟨.charLiteral, spelling, span⟩

def mention? : Leaf → Option Mention
  | name o | operator o => some (.use o)
  | declared id span o => some (.declaration id span o.spelling)
  | integer .. | character .. => none

/-- The place of what a leaf declares, and that of its name. -/
def declares? : Leaf → Option (Span × Span)
  | declared _ span o => some (span, o.span)
  | _ => none

end Leaf

mutual

/-- The leaves of an expression in source order. -/
def Expr.leaves : Expr → List Leaf
  | .binary _ left op right => left.leaves ++ .operator op :: right.leaves
  | .character s spelling => [.character s spelling]
  | .integer s spelling => [.integer s spelling]
  | .name _ name => [.name name]
  | .apply _ name arg => .name name :: arg.leaves
  | .unary _ op operand => .operator op :: operand.leaves
  | .error _ => []

def Param.leaves : Param → List Leaf
  | .blank _ | .error _ => []
  | .value _ expr => expr.leaves
  | .var _ name => [.name name]

end

mutual

/-- The leaves of a declaration in source order. -/
def Decl.leaves : Decl → List Leaf
  | .const id s name value => .declared id s name :: value.leaves
  | .var id s type name => [.name type, .declared id s name]
  | .sequence _ _ items => Decl.leavesOfList items
  | .error .. => []

def Decl.leavesOfList : List Decl → List Leaf
  | [] => []
  | d :: ds => d.leaves ++ Decl.leavesOfList ds

end

mutual

/-- The leaves of a command in source order. -/
def Command.leaves : Command → List Leaf
  | .assign _ target value => .name target :: value.leaves
  | .blank _ | .error _ => []
  | .call _ callee arg => .name callee :: arg.leaves
  | .ifElse _ cond thenBranch elseBranch =>
    cond.leaves ++ (thenBranch.leaves ++ elseBranch.leaves)
  | .ifNoElse _ cond thenBranch => cond.leaves ++ thenBranch.leaves
  | .letIn _ decl body => decl.leaves ++ body.leaves
  | .sequence _ items => Command.leavesOfList items
  | .whileDo _ cond body => cond.leaves ++ body.leaves
  | .repeatUntil _ body cond => body.leaves ++ cond.leaves

def Command.leavesOfList : List Command → List Leaf
  | [] => []
  | c :: cs => c.leaves ++ Command.leavesOfList cs

end

theorem Decl.leavesOfList_eq_flatMap (ds : List Decl) :
    Decl.leavesOfList ds = ds.flatMap Decl.leaves := by
  induction ds with
  | nil => rfl
  | cons d ds ih => rw [Decl.leavesOfList, ih, List.flatMap_cons]

theorem Command.leavesOfList_eq_flatMap (cs : List Command) :
    Command.leavesOfList cs = cs.flatMap Command.leaves := by
  induction cs with
  | nil => rfl
  | cons c cs ih => rw [Command.leavesOfList, ih, List.flatMap_cons]

def Phrase.leaves : (p : Phrase) → p.Tree → List Leaf
  | .command, t | .singleCommand, t => Command.leaves t
  | .moreCommands, ts => Command.leavesOfList ts
  | .declaration, t | .singleDeclaration, t => Decl.leaves t
  | .moreDeclarations, ts => Decl.leavesOfList ts
  | .expression, t | .primary, t => Expr.leaves t
  | .parameter, t => Param.leaves t

/-! ## Leaves and mentions -/

mutual

/-- What an expression mentions are its leaves, literals aside. -/
theorem Expr.filterMap_mention?_leaves : ∀ e : Expr, e.leaves.filterMap Leaf.mention? = e.mentions
  | .binary _ left op right => by
    simp [Expr.leaves, Expr.mentions, Leaf.mention?, left.filterMap_mention?_leaves,
      right.filterMap_mention?_leaves]
  | .character .. | .integer .. | .name .. | .error _ => rfl
  | .apply _ name arg => by
    simp [Expr.leaves, Expr.mentions, Leaf.mention?, arg.filterMap_mention?_leaves]
  | .unary _ op operand => by
    simp [Expr.leaves, Expr.mentions, Leaf.mention?, operand.filterMap_mention?_leaves]

theorem Param.filterMap_mention?_leaves :
    ∀ q : Param, q.leaves.filterMap Leaf.mention? = q.mentions
  | .blank _ | .var .. | .error _ => rfl
  | .value _ expr => expr.filterMap_mention?_leaves

end

mutual

theorem Decl.filterMap_mention?_leaves_perm :
    ∀ d : Decl, (d.leaves.filterMap Leaf.mention?).Perm d.mentions
  | .const _ _ name value => by
    simp [Decl.leaves, Decl.mentions, Leaf.mention?, value.filterMap_mention?_leaves]
  -- The type stands in front of the name, and is mentioned behind it.
  | .var id s type name =>
    have h : [.use type, .declaration id s name.spelling].Perm
        [Mention.declaration id s name.spelling, .use type] := .swap ..
    h
  | .sequence _ _ items => Decl.filterMap_mention?_leavesOfList_perm items
  | .error .. => .refl _

theorem Decl.filterMap_mention?_leavesOfList_perm :
    ∀ ds : List Decl,
      ((Decl.leavesOfList ds).filterMap Leaf.mention?).Perm (Decl.mentionsOfList ds)
  | [] => .refl _
  | d :: ds => by
    rw [Decl.leavesOfList, Decl.mentionsOfList, List.filterMap_append]
    exact d.filterMap_mention?_leaves_perm.append (Decl.filterMap_mention?_leavesOfList_perm ds)

end

mutual

theorem Command.filterMap_mention?_leaves_perm :
    ∀ c : Command, (c.leaves.filterMap Leaf.mention?).Perm c.mentions
  | .assign _ target value => by
    simp [Command.leaves, Command.mentions, Leaf.mention?, value.filterMap_mention?_leaves]
  | .blank _ | .error _ => .refl _
  | .call _ callee arg => by
    simp [Command.leaves, Command.mentions, Leaf.mention?, arg.filterMap_mention?_leaves]
  | .ifElse _ cond a b => by
    rw [Command.leaves, Command.mentions, List.filterMap_append, List.filterMap_append,
      cond.filterMap_mention?_leaves]
    exact (a.filterMap_mention?_leaves_perm.append b.filterMap_mention?_leaves_perm).append_left _
  | .ifNoElse _ cond a => by
    rw [Command.leaves, Command.mentions, List.filterMap_append, cond.filterMap_mention?_leaves]
    exact a.filterMap_mention?_leaves_perm.append_left _
  | .letIn _ decl body => by
    rw [Command.leaves, Command.mentions, List.filterMap_append]
    exact decl.filterMap_mention?_leaves_perm.append body.filterMap_mention?_leaves_perm
  | .sequence _ items => Command.filterMap_mention?_leavesOfList_perm items
  | .whileDo _ cond body => by
    rw [Command.leaves, Command.mentions, List.filterMap_append, cond.filterMap_mention?_leaves]
    exact body.filterMap_mention?_leaves_perm.append_left _
  | .repeatUntil _ body cond => by
    rw [Command.leaves, Command.mentions, List.filterMap_append, cond.filterMap_mention?_leaves]
    exact body.filterMap_mention?_leaves_perm.append_right _

theorem Command.filterMap_mention?_leavesOfList_perm :
    ∀ cs : List Command,
      ((Command.leavesOfList cs).filterMap Leaf.mention?).Perm (Command.mentionsOfList cs)
  | [] => .refl _
  | c :: cs => by
    rw [Command.leavesOfList, Command.mentionsOfList, List.filterMap_append]
    exact c.filterMap_mention?_leaves_perm.append (Command.filterMap_mention?_leavesOfList_perm cs)

end

mutual

/-- Nothing is declared inside an expression. -/
theorem Expr.declares?_of_mem_leaves : ∀ e : Expr, ∀ x ∈ e.leaves, x.declares? = none
  | .binary _ left op right => by
    refine List.forall_mem_append.2 ⟨left.declares?_of_mem_leaves, List.forall_mem_cons.2 ⟨rfl, ?_⟩⟩
    exact right.declares?_of_mem_leaves
  | .character .. | .integer .. | .name .. => List.forall_mem_singleton.2 rfl
  | .apply _ name arg => List.forall_mem_cons.2 ⟨rfl, arg.declares?_of_mem_leaves⟩
  | .unary _ op operand => List.forall_mem_cons.2 ⟨rfl, operand.declares?_of_mem_leaves⟩
  | .error _ => List.forall_mem_nil _

theorem Param.declares?_of_mem_leaves : ∀ q : Param, ∀ x ∈ q.leaves, x.declares? = none
  | .blank _ | .error _ => List.forall_mem_nil _
  | .value _ expr => expr.declares?_of_mem_leaves
  | .var .. => List.forall_mem_singleton.2 rfl

end

/-! ## Leaves of what is read -/

namespace Cursor

/-- What a relation of the cursors around a reading and of the leaves read has to keep to, so that
it holds of every reading. -/
structure Threads (R : Cursor → Cursor → List Leaf → Prop) : Prop where
  refl c : R c c []
  append {c d e xs ys} : R c d xs → R d e ys → R c e (xs ++ ys)
  /-- A construct that cannot be read leaves nothing. -/
  nothing {c d xs} : R c d xs → R c d []
  handOut {c d xs} : R c d xs → R c d.handOut xs
  steps {c d kind t} : c.Steps kind t d → R c d []
  expects {c d kind fs} : c.Expects kind d fs → R c d []
  leaf {c d kind t x} : c.Steps kind t d → x.token = t → x.declares? = none → R c d [x]
  /-- A declaration begins at a token `t`, has its name behind it, and then its value. -/
  declared {c d e f t o xs ys} (i : NodeId) : c.pending = t :: d.pending → R c d xs →
    d.Occurs .identifier o e → R e f ys → (∀ y ∈ ys, y.declares? = none) →
    R c f (xs ++ .declared i (f.spanSince t.span) o :: ys)

namespace Threads

variable {R : Cursor → Cursor → List Leaf → Prop} (hR : Threads R) {c d e : Cursor}
  {kind : TokenKind} {t : Token} {o : Occurrence} {fs : List Fault} {xs ys : List Leaf}
include hR

/-- Tokens may be passed of which no leaf is kept. -/
theorem since (h : R c d []) (h' : R d e xs) : R c e xs := hR.append h h'

theorem upTo (h : R c d xs) (h' : R d e []) : R c e xs := by simpa using hR.append h h'

theorem name (h : c.Occurs .identifier o d) : R c d [.name o] := by
  obtain ⟨hs⟩ := h
  exact hR.handOut (hR.leaf hs (by rw [Leaf.token, ← hs.kind_eq]) rfl)

theorem operator (h : c.Occurs .operator o d) : R c d [.operator o] := by
  obtain ⟨hs⟩ := h
  exact hR.handOut (hR.leaf hs (by rw [Leaf.token, ← hs.kind_eq]) rfl)

end Threads

end Cursor

open Cursor in
theorem Phrase.Outcome.threads {R : Cursor → Cursor → List Leaf → Prop} (hR : Threads R)
    {p : Phrase} {c d : Cursor} {t : p.Tree} {fs : List Fault} (h : p.Outcome c t d fs) :
    R c d (p.leaves t) := by
  induction h with
  | lone _ _ ih ih' => exact hR.upTo ih ih'
  | sequence _ _ _ ih ih' => exact hR.append ih ih'
  | noMore => exact hR.refl _
  | more semicolon _ _ ih ih' => exact hR.since (hR.steps semicolon) (hR.append ih ih')
  | assign name becomes _ ih =>
    exact hR.append (hR.name name) (hR.since (hR.steps becomes) ih)
  | call name left _ right ih =>
    have harg := hR.since (hR.steps left) (hR.upTo ih (hR.expects right))
    exact hR.append (hR.name name) harg
  | bareName name => exact hR.nothing (hR.name name)
  | block left _ right ih => exact hR.since (hR.steps left) (hR.upTo ih (hR.expects right))
  | letIn kwLet _ kwIn _ ih ih' =>
    exact hR.since (hR.steps kwLet) (hR.append ih (hR.since (hR.expects kwIn) ih'))
  | ifElse kwIf _ kwThen _ kwElse _ ih ih' ih'' =>
    have hbranches := hR.append ih' (hR.since (hR.steps kwElse) ih'')
    exact hR.since (hR.steps kwIf) (hR.append ih (hR.since (hR.expects kwThen) hbranches))
  | ifNoElse kwIf _ kwThen _ kwNoElse ih ih' =>
    have hbranch := hR.upTo ih' (hR.steps kwNoElse)
    exact hR.since (hR.steps kwIf) (hR.append ih (hR.since (hR.expects kwThen) hbranch))
  | openIf kwIf _ kwThen _ ih ih' =>
    have hread := hR.append ih (hR.since (hR.expects kwThen) ih')
    exact hR.nothing (hR.since (hR.steps kwIf) hread)
  | whileDo kwWhile _ kwDo _ ih ih' =>
    exact hR.since (hR.steps kwWhile) (hR.append ih (hR.since (hR.expects kwDo) ih'))
  | repeatUntil kwRepeat _ kwUntil _ ih ih' =>
    exact hR.since (hR.steps kwRepeat) (hR.append ih (hR.since (hR.expects kwUntil) ih'))
  | blank kwNothing => exact hR.steps kwNothing
  | noCommand => exact hR.refl _
  | loneDeclaration _ _ ih ih' => exact hR.upTo ih ih'
  | declarationSequence _ _ _ ih ih' => exact hR.handOut (hR.append ih ih')
  | noMoreDeclarations => exact hR.refl _
  | moreDeclarations semicolon _ _ ih ih' =>
    exact hR.since (hR.steps semicolon) (hR.append ih ih')
  | @const c d e f g t o x _ _ kwConst name kwIs _ ih =>
    have hvalue : R e g x.leaves := hR.since (hR.expects kwIs) ih
    exact hR.handOut (hR.declared g.nextId kwConst.pending_eq (hR.steps kwConst) name hvalue
      x.declares?_of_mem_leaves)
  | unnamedConst kwConst => exact hR.handOut (hR.steps kwConst)
  | @var c d e o n type name =>
    have htype := hR.name type
    obtain ⟨hs⟩ := type
    exact hR.handOut (hR.declared e.nextId (by exact hs.pending_eq) htype name (hR.refl e)
      (List.forall_mem_nil _))
  | unnamedVar type => exact hR.handOut (hR.nothing (hR.name type))
  | noDeclaration => exact hR.handOut (hR.refl _)
  | operand _ ih => exact ih
  | binary _ op _ ih ih' => exact hR.append ih (hR.append (hR.operator op) ih')
  | integer literal => exact hR.leaf literal (by rw [Leaf.token, ← literal.kind_eq]) rfl
  | character literal => exact hR.leaf literal (by rw [Leaf.token, ← literal.kind_eq]) rfl
  | name name => exact hR.name name
  | apply name left _ right ih =>
    have harg := hR.since (hR.steps left) (hR.upTo ih (hR.expects right))
    exact hR.append (hR.name name) harg
  | unary op _ ih => exact hR.append (hR.operator op) ih
  | bracketed left _ right ih => exact hR.since (hR.steps left) (hR.upTo ih (hR.expects right))
  | noExpression => exact hR.refl _
  | varParameter kwVar name => exact hR.since (hR.steps kwVar) (hR.name name)
  | unnamedVarParameter kwVar => exact hR.steps kwVar
  | noParameter => exact hR.refl _
  | value _ ih => exact ih
  | refusedParameter => exact hR.refl _

/-! ## Leaves and tokens -/

namespace Cursor

/-- From `c` to `d` some tokens are passed, among them the tokens of `leaves` in their order. -/
def Keeps (c d : Cursor) (leaves : List Leaf) : Prop :=
  ∃ passed, c.pending = passed ++ d.pending ∧ (leaves.map Leaf.token).Sublist passed

namespace Keeps

variable {c d e : Cursor} {kind : TokenKind} {t : Token} {o : Occurrence} {fs : List Fault}
  {x : Leaf} {xs ys : List Leaf}

theorem append (h : c.Keeps d xs) (h' : d.Keeps e ys) : c.Keeps e (xs ++ ys) := by
  obtain ⟨us, hu, hx⟩ := h
  obtain ⟨vs, hv, hy⟩ := h'
  refine ⟨us ++ vs, by rw [hu, hv, List.append_assoc], ?_⟩
  rw [List.map_append]
  exact hx.append hy

theorem nothing (h : c.Keeps d xs) : c.Keeps d [] := by
  obtain ⟨us, hu, -⟩ := h
  exact ⟨us, hu, List.nil_sublist us⟩

theorem leaf (h : c.Steps kind t d) (hx : x.token = t) : c.Keeps d [x] :=
  ⟨[t], h.pending_eq, by simp [hx]⟩

theorem declared (h : c.Occurs .identifier o d) (i : NodeId) (s : Span) :
    c.Keeps d [.declared i s o] := by
  obtain ⟨hs⟩ := h
  exact ⟨[_], hs.pending_eq, by simp [Leaf.token, ← hs.kind_eq]⟩

theorem expects (h : c.Expects kind d fs) : c.Keeps d [] := by
  cases h with
  | missed => exact ⟨[], rfl, .slnil⟩
  | met =>
    obtain ⟨us, hu, -, -⟩ := c.leads_stepOver
    exact ⟨us, hu, List.nil_sublist us⟩

/-- What is ahead behind a reading was ahead in front of it. -/
theorem pending_subset (h : c.Keeps d xs) : d.pending ⊆ c.pending := by
  obtain ⟨us, hu, -⟩ := h
  exact hu ▸ List.subset_append_right us _

theorem token_mem (h : c.Keeps d xs) (hx : x ∈ xs) : x.token ∈ c.pending := by
  obtain ⟨us, hu, hs⟩ := h
  exact hu ▸ List.mem_append_left _ (hs.subset (List.mem_map_of_mem hx))

end Keeps

theorem threads_keeps : Threads Keeps where
  refl _ := ⟨[], rfl, .slnil⟩
  append := .append
  nothing := .nothing
  handOut h := h
  steps h := ⟨[_], h.pending_eq, List.nil_sublist _⟩
  expects := .expects
  leaf h hx _ := .leaf h hx
  declared i _ h ho h' _ := h.append ((Keeps.declared ho i _).append h')

end Cursor

/-- The leaves of what is read are tokens passed in reading it. -/
theorem Phrase.Outcome.keeps {p : Phrase} {c d : Cursor} {t : p.Tree} {fs : List Fault}
    (h : p.Outcome c t d fs) : c.Keeps d (p.leaves t) := h.threads Cursor.threads_keeps

theorem Cursor.pending_ofTokens_sublist (ts : List Token) : (ofTokens ts).pending.Sublist ts := by
  unfold ofTokens
  split
  case h_1 => exact List.nil_sublist ts
  case h_2 last _ =>
    split
    · exact List.dropLast_sublist ts
    · exact .refl ts

/-- The leaves of a program are among its tokens, in their order. -/
theorem Program.leaves_sublist (ts : List Token) :
    ((ofTokens ts).node.command.leaves.map Leaf.token).Sublist ts := by
  obtain ⟨us, hp, hs⟩ := (Cursor.singleCommand_outcome (.ofTokens ts)).keeps
  have hsub : us.Sublist (Cursor.ofTokens ts).pending := hp ▸ List.sublist_append_left us _
  exact (hs.trans hsub).trans (Cursor.pending_ofTokens_sublist ts)

end TriLang
