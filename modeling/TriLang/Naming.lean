import Std.Data.ExtTreeMap
import TriLang.Scope

/-!
# Naming

Naming finds for every occurrence of a name or an operator what it stands for.  A `let` opens a
scope for its declarations and its body; a declared name is in scope from its own right-hand side
on.  The tree is left as it is: what is found is kept in tables by node id, where a later entry
replaces an earlier one of the same id.
-/

namespace TriLang

inductive NamingFault
  /-- The scope binds the name already, by the declaration at `previous` or as a builtin. -/
  | alreadyDeclared (name : String) (previous : Option Span)
  | undeclared (name : String)
  /-- An `error` node of the family `what`. -/
  | malformed (what : String)
  deriving DecidableEq

structure NamingError where
  fault : NamingFault
  span : Span
  deriving DecidableEq

def NamingFault.message : NamingFault → String
  | alreadyDeclared name _ => s!"'{name}' is already declared in this scope"
  | undeclared name => s!"'{name}' is not declared"
  | malformed what => s!"cannot identify names in a malformed {what}"

def NamingError.message (e : NamingError) : String := e.fault.message

/-- A declaration entered into a scope. -/
structure DeclEntry where
  name : String
  /-- The name of its type, for a variable. -/
  type : Option String
  span : Span
  /-- The number of scopes above the root where it was entered. -/
  depth : Nat
  deriving DecidableEq

/-- A table by node id. -/
abbrev NodeMap (α : Type) := Std.ExtTreeMap NodeId α

/-- What is found about the names of a program. -/
structure Naming where
  /-- What the occurrences stand for. -/
  bindings : NodeMap Binding
  /-- The declarations entered into scopes. -/
  declarations : NodeMap DeclEntry
  errors : List NamingError

namespace Naming

def empty : Naming := ⟨∅, ∅, []⟩

def isOk (n : Naming) : Bool := n.errors.isEmpty

/-- The declaration that an occurrence refers to. -/
def entryOf? (n : Naming) (occurrence : NodeId) : Option DeclEntry :=
  match n.bindings[occurrence]? with
  | some (.declared decl) => n.declarations[decl]?
  | _ => none

end Naming

/-- The scopes open at a place of a program, and what is found up to it. -/
structure NamingState where
  scopes : Scopes
  found : Naming

namespace NamingState

/-- At the beginning of a program. -/
def initial : NamingState := ⟨.standard, .empty⟩

def fail (fault : NamingFault) (span : Span) (s : NamingState) : NamingState :=
  { s with found := { s.found with errors := s.found.errors ++ [⟨fault, span⟩] } }

/-- Records what an occurrence stands for. -/
def lookUp (o : Occurrence) (s : NamingState) : NamingState :=
  match s.scopes.find? o.spelling with
  | some b => { s with found := { s.found with bindings := s.found.bindings.insert o.id b } }
  | none => s.fail (.undeclared o.spelling) o.span

/-- Where an earlier binding was declared. -/
def spanOf? (s : NamingState) : Binding → Option Span
  | .declared decl => s.found.declarations[decl]?.map DeclEntry.span
  | .builtin _ => none

/-- Enters a declaration under `name` and goes on with its right-hand side.  A second declaration of
a name in one scope is reported, and its right-hand side left alone. -/
def declare (id : NodeId) (span : Span) (name : Occurrence) (type : Option String)
    (rightSide : NamingState → NamingState) (s : NamingState) : NamingState :=
  match s.scopes.insertNew name.spelling (.declared id) with
  | .error existing => s.fail (.alreadyDeclared name.spelling (s.spanOf? existing)) name.span
  | .ok scopes =>
    let entry : DeclEntry := ⟨name.spelling, type, span, scopes.depth⟩
    rightSide ⟨scopes, { s.found with declarations := s.found.declarations.insert id entry }⟩

/-- Goes through a part of a program in a scope of its own. -/
def inScope (part : NamingState → NamingState) (s : NamingState) : NamingState :=
  let inside := part { s with scopes := s.scopes.push }
  { inside with scopes := inside.scopes.pop }

end NamingState

/-! ## Over the tree -/

mutual

def Expr.findNames : Expr → NamingState → NamingState
  | .binary _ left op right, s => right.findNames ((left.findNames s).lookUp op)
  | .character .., s => s
  | .integer .., s => s
  | .name _ name, s => s.lookUp name
  | .apply _ name arg, s => arg.findNames (s.lookUp name)
  | .unary _ op operand, s => operand.findNames (s.lookUp op)
  | .error span, s => s.fail (.malformed "expression") span

def Param.findNames : Param → NamingState → NamingState
  | .blank _, s => s
  | .value _ expr, s => expr.findNames s
  | .var _ name, s => s.lookUp name
  | .error span, s => s.fail (.malformed "parameter") span

end

mutual

def Decl.findNames : Decl → NamingState → NamingState
  | .const id span name value, s => s.declare id span name none value.findNames
  | .var id span type name, s => s.declare id span name (some type.spelling) (·.lookUp type)
  | .sequence _ _ items, s => Decl.findNamesOfList items s
  | .error _ span, s => s.fail (.malformed "declaration") span

def Decl.findNamesOfList : List Decl → NamingState → NamingState
  | [], s => s
  | d :: ds, s => Decl.findNamesOfList ds (d.findNames s)

end

mutual

def Command.findNames : Command → NamingState → NamingState
  | .assign _ target value, s => value.findNames (s.lookUp target)
  | .blank _, s => s
  | .call _ callee arg, s => arg.findNames (s.lookUp callee)
  | .ifElse _ cond thenBranch elseBranch, s =>
    elseBranch.findNames (thenBranch.findNames (cond.findNames s))
  | .ifNoElse _ cond thenBranch, s => thenBranch.findNames (cond.findNames s)
  | .letIn _ decl body, s => s.inScope fun s => body.findNames (decl.findNames s)
  | .sequence _ items, s => Command.findNamesOfList items s
  | .whileDo _ cond body, s => body.findNames (cond.findNames s)
  | .repeatUntil _ body cond, s => cond.findNames (body.findNames s)
  | .error span, s => s.fail (.malformed "command") span

def Command.findNamesOfList : List Command → NamingState → NamingState
  | [], s => s
  | c :: cs, s => Command.findNamesOfList cs (c.findNames s)

end

/-- The names of a program in the standard environment. -/
def Naming.ofProgram (p : Program) : Naming := (p.command.findNames .initial).found

end TriLang
