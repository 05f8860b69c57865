import TriLang.Scope.Standard
import TriLang.Tree

/-!
# Scopes

The scopes open at a place of a program form a stack over a root that is never closed.  A name is
bound once in a scope; an inner binding hides those further out until its scope is closed.
-/

namespace TriLang

/-- What a name stands for. -/
inductive Binding
  /-- A declaration of the program. -/
  | declared (decl : NodeId)
  | builtin (entry : Builtin)
  deriving DecidableEq

/-- The names bound in one scope, the latest first. -/
abbrev Scope := List (String × Binding)

/-- A stack of scopes. -/
structure Scopes where
  /-- The scopes above the root, the innermost first. -/
  inner : List Scope
  root : Scope
  deriving DecidableEq

namespace Scopes

/-- An empty root scope. -/
def empty : Scopes := ⟨[], []⟩

/-- The scopes from the innermost to the root. -/
def toList (ss : Scopes) : List Scope := ss.inner ++ [ss.root]

/-- The number of scopes above the root. -/
def depth (ss : Scopes) : Nat := ss.inner.length

/-- Opens a scope. -/
def push (ss : Scopes) : Scopes := { ss with inner := [] :: ss.inner }

/-- Closes the innermost scope.  The root stays open. -/
def pop (ss : Scopes) : Scopes := { ss with inner := ss.inner.tail }

/-- The innermost scope. -/
def innermost (ss : Scopes) : Scope := ss.inner.head?.getD ss.root

/-- Binds `name` in the innermost scope. -/
def insert (ss : Scopes) (name : String) (b : Binding) : Scopes :=
  match ss.inner with
  | [] => { ss with root := (name, b) :: ss.root }
  | scope :: outer => { ss with inner := ((name, b) :: scope) :: outer }

/-- Binds `name` in the innermost scope, or gives the binding that it has there already. -/
def insertNew (ss : Scopes) (name : String) (b : Binding) : Except Binding Scopes :=
  match ss.innermost.lookup name with
  | some existing => .error existing
  | none => .ok (ss.insert name b)

/-- The innermost binding of `name`. -/
def find? (ss : Scopes) (name : String) : Option Binding :=
  ss.toList.findSome? (·.lookup name)

/-- A root scope that holds the standard environment. -/
def standard : Scopes := ⟨[], Builtin.all.reverse.map fun b => (b.name, .builtin b)⟩

variable {ss ts : Scopes} {name : String} {b existing : Binding}

theorem insertNew_eq_ok_iff :
    ss.insertNew name b = .ok ts ↔ ss.innermost.lookup name = none ∧ ss.insert name b = ts := by
  rw [insertNew]
  cases ss.innermost.lookup name <;> simp

theorem insertNew_eq_error_iff :
    ss.insertNew name b = .error existing ↔ ss.innermost.lookup name = some existing := by
  rw [insertNew]
  cases ss.innermost.lookup name <;> simp

/-- A name is bound in the first scope of the list, and the others stay. -/
theorem exists_toList_eq (ss : Scopes) : ∃ outer, ss.toList = ss.innermost :: outer ∧
    ∀ name b, (ss.insert name b).toList = ((name, b) :: ss.innermost) :: outer := by
  obtain ⟨_ | ⟨scope, outer⟩, root⟩ := ss
  · exact ⟨[], rfl, fun _ _ => rfl⟩
  · exact ⟨outer ++ [root], rfl, fun _ _ => rfl⟩

end Scopes

end TriLang
