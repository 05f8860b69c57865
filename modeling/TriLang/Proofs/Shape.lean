import TriLang.Tree

/-!
# Shapes of trees

Two trees have one shape if they differ in node ids and spans only.  `Relabel` gives new marks to
all nodes of a tree; the shape of a tree is the tree with every mark the same.
-/

namespace TriLang

/-- New marks for the nodes of a tree. -/
structure Relabel where
  occurrence : Occurrence → Occurrence
  id : NodeId → NodeId
  span : Span → Span

mutual

@[simp] def Expr.relabel (f : Relabel) : Expr → Expr
  | .binary s left op right =>
    .binary (f.span s) (left.relabel f) (f.occurrence op) (right.relabel f)
  | .character s spelling => .character (f.span s) spelling
  | .integer s spelling => .integer (f.span s) spelling
  | .name s name => .name (f.span s) (f.occurrence name)
  | .apply s name arg => .apply (f.span s) (f.occurrence name) (arg.relabel f)
  | .unary s op operand => .unary (f.span s) (f.occurrence op) (operand.relabel f)
  | .error s => .error (f.span s)

@[simp] def Param.relabel (f : Relabel) : Param → Param
  | .blank s => .blank (f.span s)
  | .value s expr => .value (f.span s) (expr.relabel f)
  | .var s name => .var (f.span s) (f.occurrence name)
  | .error s => .error (f.span s)

end

mutual

@[simp] def Decl.relabel (f : Relabel) : Decl → Decl
  | .const i s name value => .const (f.id i) (f.span s) (f.occurrence name) (value.relabel f)
  | .var i s type name => .var (f.id i) (f.span s) (f.occurrence type) (f.occurrence name)
  | .sequence i s items => .sequence (f.id i) (f.span s) (Decl.relabelList f items)
  | .error i s => .error (f.id i) (f.span s)

def Decl.relabelList (f : Relabel) : List Decl → List Decl
  | [] => []
  | d :: ds => d.relabel f :: Decl.relabelList f ds

end

mutual

@[simp] def Command.relabel (f : Relabel) : Command → Command
  | .assign s target value => .assign (f.span s) (f.occurrence target) (value.relabel f)
  | .blank s => .blank (f.span s)
  | .call s callee arg => .call (f.span s) (f.occurrence callee) (arg.relabel f)
  | .ifElse s cond thenBranch elseBranch =>
    .ifElse (f.span s) (cond.relabel f) (thenBranch.relabel f) (elseBranch.relabel f)
  | .ifNoElse s cond thenBranch => .ifNoElse (f.span s) (cond.relabel f) (thenBranch.relabel f)
  | .letIn s decl body => .letIn (f.span s) (decl.relabel f) (body.relabel f)
  | .sequence s items => .sequence (f.span s) (Command.relabelList f items)
  | .whileDo s cond body => .whileDo (f.span s) (cond.relabel f) (body.relabel f)
  | .repeatUntil s body cond => .repeatUntil (f.span s) (body.relabel f) (cond.relabel f)
  | .error s => .error (f.span s)

def Command.relabelList (f : Relabel) : List Command → List Command
  | [] => []
  | c :: cs => c.relabel f :: Command.relabelList f cs

end

namespace Relabel

/-- The same marks everywhere.  Spellings are no marks. -/
def blank : Relabel := ⟨fun o => ⟨0, o.spelling, .empty 0⟩, fun _ => 0, fun _ => .empty 0⟩

@[simp] theorem blank_occurrence (o : Occurrence) :
    blank.occurrence o = ⟨0, o.spelling, .empty 0⟩ := rfl

@[simp] theorem blank_id (i : NodeId) : blank.id i = 0 := rfl

@[simp] theorem blank_span (s : Span) : blank.span s = .empty 0 := rfl

end Relabel

/-- An expression without its ids and spans. -/
abbrev Expr.shape (e : Expr) : Expr := e.relabel .blank

/-- A parameter without its ids and spans. -/
abbrev Param.shape (p : Param) : Param := p.relabel .blank

/-- A declaration without its ids and spans. -/
abbrev Decl.shape (d : Decl) : Decl := d.relabel .blank

/-- A command without its ids and spans. -/
abbrev Command.shape (c : Command) : Command := c.relabel .blank

theorem Decl.relabelList_eq_map (f : Relabel) :
    ∀ ds : List Decl, Decl.relabelList f ds = ds.map (Decl.relabel f)
  | [] => rfl
  | d :: ds => by rw [Decl.relabelList, Decl.relabelList_eq_map f ds, List.map_cons]

theorem Command.relabelList_eq_map (f : Relabel) :
    ∀ cs : List Command, Command.relabelList f cs = cs.map (Command.relabel f)
  | [] => rfl
  | c :: cs => by rw [Command.relabelList, Command.relabelList_eq_map f cs, List.map_cons]

@[simp] theorem Decl.relabelList_blank (ds : List Decl) :
    Decl.relabelList .blank ds = ds.map Decl.shape := Decl.relabelList_eq_map .blank ds

@[simp] theorem Command.relabelList_blank (cs : List Command) :
    Command.relabelList .blank cs = cs.map Command.shape := Command.relabelList_eq_map .blank cs

end TriLang
