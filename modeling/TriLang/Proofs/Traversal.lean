import TriLang.Naming
import TriLang.Proofs.Shape

/-!
# Going through a tree

Naming goes through a tree node by node.  A relation of the states around what it does at one node,
kept by all that it does, holds around a whole tree.  Behind a declaration its name stays in scope,
so declarations have a relation of their own.  The relations also tell which `error` nodes are
gone through.  A relation between the states of two trees that differ in their marks only is kept in
the same way.
-/

namespace TriLang

/-- A node that stands where the source text holds no form of its family. -/
structure ErrorNode where
  /-- What nodes of its family are called. -/
  family : String
  span : Span
  deriving DecidableEq

mutual

/-- The `error` nodes of an expression in source order. -/
def Expr.errorNodes : Expr → List ErrorNode
  | .binary _ left _ right => left.errorNodes ++ right.errorNodes
  | .character .. | .integer .. | .name .. => []
  | .apply _ _ arg => arg.errorNodes
  | .unary _ _ operand => operand.errorNodes
  | .error span => [⟨"expression", span⟩]

def Param.errorNodes : Param → List ErrorNode
  | .blank _ | .var .. => []
  | .value _ expr => expr.errorNodes
  | .error span => [⟨"parameter", span⟩]

end

mutual

/-- The `error` nodes of a declaration in source order. -/
def Decl.errorNodes : Decl → List ErrorNode
  | .const _ _ _ value => value.errorNodes
  | .var .. => []
  | .sequence _ _ items => Decl.errorNodesOfList items
  | .error _ span => [⟨"declaration", span⟩]

def Decl.errorNodesOfList : List Decl → List ErrorNode
  | [] => []
  | d :: ds => d.errorNodes ++ Decl.errorNodesOfList ds

end

mutual

/-- The `error` nodes of a command in source order. -/
def Command.errorNodes : Command → List ErrorNode
  | .assign _ _ value => value.errorNodes
  | .blank _ => []
  | .call _ _ arg => arg.errorNodes
  | .ifElse _ cond thenBranch elseBranch =>
    cond.errorNodes ++ (thenBranch.errorNodes ++ elseBranch.errorNodes)
  | .ifNoElse _ cond thenBranch => cond.errorNodes ++ thenBranch.errorNodes
  | .letIn _ decl body => decl.errorNodes ++ body.errorNodes
  | .sequence _ items => Command.errorNodesOfList items
  | .whileDo _ cond body => cond.errorNodes ++ body.errorNodes
  | .repeatUntil _ body cond => body.errorNodes ++ cond.errorNodes
  | .error span => [⟨"command", span⟩]

def Command.errorNodesOfList : List Command → List ErrorNode
  | [] => []
  | c :: cs => c.errorNodes ++ Command.errorNodesOfList cs

end

/-! ## Relations of states -/

namespace NamingState

/-- What `R`, a relation of the states around a part of a program and of the `error` nodes in the
part, and `D`, the one for declarations, have to keep to, so that they hold of every part. -/
structure Threads (R D : NamingState → NamingState → List ErrorNode → Prop) : Prop where
  refl s : R s s []
  append {s t u xs ys} : R s t xs → R t u ys → R s u (xs ++ ys)
  lookUp o s : R s (s.lookUp o) []
  malformed family span s : R s (s.fail (.malformed family) span) [⟨family, span⟩]
  letIn {s t u xs ys} : D { s with scopes := s.scopes.push } t xs → R t u ys →
    R s { u with scopes := u.scopes.pop } (xs ++ ys)
  appendDecl {s t u xs ys} : D s t xs → D t u ys → D s u (xs ++ ys)
  /-- Where nothing is declared. -/
  decl {s t xs} : R s t xs → D s t xs
  declare {rightSide xs} id span name type (s : NamingState) : (∀ s, R s (rightSide s) xs) →
    D s (s.declare id span name type rightSide) xs

end NamingState

section

open NamingState

variable {R D : NamingState → NamingState → List ErrorNode → Prop} (hR : Threads R D)
include hR

mutual

theorem Expr.findNames_threads : ∀ (e : Expr) (s : NamingState), R s (e.findNames s) e.errorNodes
  | .binary _ left op right, s =>
    hR.append (left.findNames_threads s) (hR.append (hR.lookUp op _) (right.findNames_threads _))
  | .character .., s | .integer .., s => hR.refl s
  | .name _ name, s => hR.lookUp name s
  | .apply _ name arg, s => hR.append (hR.lookUp name s) (arg.findNames_threads _)
  | .unary _ op operand, s => hR.append (hR.lookUp op s) (operand.findNames_threads _)
  | .error span, s => hR.malformed _ span s

theorem Param.findNames_threads : ∀ (q : Param) (s : NamingState), R s (q.findNames s) q.errorNodes
  | .blank _, s => hR.refl s
  | .value _ expr, s => expr.findNames_threads s
  | .var _ name, s => hR.lookUp name s
  | .error span, s => hR.malformed _ span s

end

mutual

theorem Decl.findNames_threads : ∀ (d : Decl) (s : NamingState), D s (d.findNames s) d.errorNodes
  | .const id span name value, s =>
    hR.declare id span name none s fun s => value.findNames_threads hR s
  | .var id span type name, s =>
    hR.declare id span name (some type.spelling) s fun s => hR.lookUp type s
  | .sequence _ _ items, s => Decl.findNamesOfList_threads items s
  | .error _ span, s => hR.decl (hR.malformed _ span s)

theorem Decl.findNamesOfList_threads : ∀ (ds : List Decl) (s : NamingState),
    D s (Decl.findNamesOfList ds s) (Decl.errorNodesOfList ds)
  | [], s => hR.decl (hR.refl s)
  | d :: ds, s => hR.appendDecl (d.findNames_threads s) (Decl.findNamesOfList_threads ds _)

end

mutual

theorem Command.findNames_threads : ∀ (c : Command) (s : NamingState),
    R s (c.findNames s) c.errorNodes
  | .assign _ target value, s => hR.append (hR.lookUp target s) (value.findNames_threads hR _)
  | .blank _, s => hR.refl s
  | .call _ callee arg, s => hR.append (hR.lookUp callee s) (arg.findNames_threads hR _)
  | .ifElse _ cond thenBranch elseBranch, s =>
    hR.append (cond.findNames_threads hR s)
      (hR.append (thenBranch.findNames_threads _) (elseBranch.findNames_threads _))
  | .ifNoElse _ cond thenBranch, s =>
    hR.append (cond.findNames_threads hR s) (thenBranch.findNames_threads _)
  | .letIn _ decl body, _ => hR.letIn (decl.findNames_threads hR _) (body.findNames_threads _)
  | .sequence _ items, s => Command.findNamesOfList_threads items s
  | .whileDo _ cond body, s =>
    hR.append (cond.findNames_threads hR s) (body.findNames_threads _)
  | .repeatUntil _ body cond, s =>
    hR.append (body.findNames_threads s) (cond.findNames_threads hR _)
  | .error span, s => hR.malformed _ span s

theorem Command.findNamesOfList_threads : ∀ (cs : List Command) (s : NamingState),
    R s (Command.findNamesOfList cs s) (Command.errorNodesOfList cs)
  | [], s => hR.refl s
  | c :: cs, s => hR.append (c.findNames_threads s) (Command.findNamesOfList_threads cs _)

end

end

/-! ## New marks -/

namespace NamingState

/-- What `R`, a relation of the states in front of a part of a program and in front of that part
with the marks of `f`, has to keep to, so that it holds of the states behind them too. -/
structure Relabels (f : Relabel) (R : NamingState → NamingState → Prop) : Prop where
  lookUp {s s'} o : R s s' → R (s.lookUp o) (s'.lookUp (f.occurrence o))
  malformed {s s'} family span : R s s' →
    R (s.fail (.malformed family) span) (s'.fail (.malformed family) (f.span span))
  inScope {s s' part part'} : R s s' → (∀ t t', R t t' → R (part t) (part' t')) →
    R (s.inScope part) (s'.inScope part')
  declare {s s' rightSide rightSide'} id span name (type : Option Occurrence) : R s s' →
    (∀ t t', R t t' → R (rightSide t) (rightSide' t')) →
    R (s.declare id span name (type.map Occurrence.spelling) rightSide)
      (s'.declare (f.id id) (f.span span) (f.occurrence name)
        ((type.map f.occurrence).map Occurrence.spelling) rightSide')

end NamingState

section

open NamingState

variable {f : Relabel} {R : NamingState → NamingState → Prop}

mutual

theorem Expr.findNames_relabel (hR : Relabels f R) : ∀ (e : Expr) {s s' : NamingState}, R s s' →
    R (e.findNames s) ((e.relabel f).findNames s')
  | .binary _ left op right, _, _, h =>
    right.findNames_relabel hR (hR.lookUp op (left.findNames_relabel hR h))
  | .character .., _, _, h | .integer .., _, _, h => h
  | .name _ name, _, _, h => hR.lookUp name h
  | .apply _ name arg, _, _, h => arg.findNames_relabel hR (hR.lookUp name h)
  | .unary _ op operand, _, _, h => operand.findNames_relabel hR (hR.lookUp op h)
  | .error span, _, _, h => hR.malformed _ span h

theorem Param.findNames_relabel (hR : Relabels f R) : ∀ (q : Param) {s s' : NamingState}, R s s' →
    R (q.findNames s) ((q.relabel f).findNames s')
  | .blank _, _, _, h => h
  | .value _ expr, _, _, h => expr.findNames_relabel hR h
  | .var _ name, _, _, h => hR.lookUp name h
  | .error span, _, _, h => hR.malformed _ span h

end

mutual

theorem Decl.findNames_relabel (hR : Relabels f R) : ∀ (d : Decl) {s s' : NamingState}, R s s' →
    R (d.findNames s) ((d.relabel f).findNames s')
  | .const id span name value, _, _, h =>
    hR.declare id span name none h fun _ _ h => value.findNames_relabel hR h
  | .var id span type name, _, _, h =>
    hR.declare id span name (some type) h fun _ _ h => hR.lookUp type h
  | .sequence _ _ items, _, _, h => Decl.findNamesOfList_relabel hR items h
  | .error _ span, _, _, h => hR.malformed _ span h

theorem Decl.findNamesOfList_relabel (hR : Relabels f R) :
    ∀ (ds : List Decl) {s s' : NamingState}, R s s' →
      R (Decl.findNamesOfList ds s) (Decl.findNamesOfList (Decl.relabelList f ds) s')
  | [], _, _, h => h
  | d :: ds, _, _, h => Decl.findNamesOfList_relabel hR ds (d.findNames_relabel hR h)

end

mutual

theorem Command.findNames_relabel (hR : Relabels f R) :
    ∀ (c : Command) {s s' : NamingState}, R s s' →
      R (c.findNames s) ((c.relabel f).findNames s')
  | .assign _ target value, _, _, h => value.findNames_relabel hR (hR.lookUp target h)
  | .blank _, _, _, h => h
  | .call _ callee arg, _, _, h => arg.findNames_relabel hR (hR.lookUp callee h)
  | .ifElse _ cond thenBranch elseBranch, _, _, h =>
    elseBranch.findNames_relabel hR (thenBranch.findNames_relabel hR (cond.findNames_relabel hR h))
  | .ifNoElse _ cond thenBranch, _, _, h =>
    thenBranch.findNames_relabel hR (cond.findNames_relabel hR h)
  | .letIn _ decl body, _, _, h =>
    hR.inScope h fun _ _ h => body.findNames_relabel hR (decl.findNames_relabel hR h)
  | .sequence _ items, _, _, h => Command.findNamesOfList_relabel hR items h
  | .whileDo _ cond body, _, _, h => body.findNames_relabel hR (cond.findNames_relabel hR h)
  | .repeatUntil _ body cond, _, _, h => cond.findNames_relabel hR (body.findNames_relabel hR h)
  | .error span, _, _, h => hR.malformed _ span h

theorem Command.findNamesOfList_relabel (hR : Relabels f R) :
    ∀ (cs : List Command) {s s' : NamingState}, R s s' →
      R (Command.findNamesOfList cs s) (Command.findNamesOfList (Command.relabelList f cs) s')
  | [], _, _, h => h
  | c :: cs, _, _, h => Command.findNamesOfList_relabel hR cs (c.findNames_relabel hR h)

end

end

end TriLang
