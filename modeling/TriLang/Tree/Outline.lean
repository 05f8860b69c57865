import TriLang.Tree

/-!
# Outlines

An outline shows a program as text, one node on a line, each child indented by two spaces more than
its parent.  Node ids and spans are left out.
-/

namespace TriLang

/-- A line of an outline: how deep its node lies, and what the node is called. -/
structure OutlineRow where
  depth : Nat
  text : String
  deriving DecidableEq

def OutlineRow.toString (r : OutlineRow) : String :=
  String.ofList (List.replicate (2 * r.depth) ' ') ++ r.text ++ "\n"

mutual

def Expr.rows (depth : Nat) : Expr → List OutlineRow
  | .binary _ left op right =>
    ⟨depth, s!"Binary {op.spelling}"⟩ :: (left.rows (depth + 1) ++ right.rows (depth + 1))
  | .character _ spelling => [⟨depth, s!"Char {spelling}"⟩]
  | .integer _ spelling => [⟨depth, s!"Int {spelling}"⟩]
  | .name _ name => [⟨depth, s!"Id {name.spelling}"⟩]
  | .apply _ name arg => ⟨depth, s!"Id {name.spelling}"⟩ :: arg.rows (depth + 1)
  | .unary _ op operand => ⟨depth, s!"Unary {op.spelling}"⟩ :: operand.rows (depth + 1)
  | .error _ => [⟨depth, "ErrorExpr"⟩]

def Param.rows (depth : Nat) : Param → List OutlineRow
  | .blank _ => [⟨depth, "BlankParam"⟩]
  | .value _ expr => ⟨depth, "ValueParam"⟩ :: expr.rows (depth + 1)
  | .var _ name => [⟨depth, s!"VarParam {name.spelling}"⟩]
  | .error _ => [⟨depth, "ErrorParam"⟩]

end

mutual

def Decl.rows (depth : Nat) : Decl → List OutlineRow
  | .const _ _ name value => ⟨depth, s!"Const {name.spelling}"⟩ :: value.rows (depth + 1)
  | .var _ _ type name => [⟨depth, s!"Var {type.spelling} {name.spelling}"⟩]
  | .sequence _ _ items => ⟨depth, "SequentialDecl"⟩ :: Decl.rowsOfList (depth + 1) items
  | .error .. => [⟨depth, "ErrorDecl"⟩]

def Decl.rowsOfList (depth : Nat) : List Decl → List OutlineRow
  | [] => []
  | d :: ds => d.rows depth ++ Decl.rowsOfList depth ds

end

mutual

def Command.rows (depth : Nat) : Command → List OutlineRow
  | .assign _ target value => ⟨depth, s!"Assign {target.spelling}"⟩ :: value.rows (depth + 1)
  | .blank _ => [⟨depth, "Blank"⟩]
  | .call _ callee arg => ⟨depth, s!"Call {callee.spelling}"⟩ :: arg.rows (depth + 1)
  | .ifElse _ cond thenBranch elseBranch =>
    ⟨depth, "If"⟩ :: (cond.rows (depth + 1) ++ thenBranch.rows (depth + 1)
      ++ elseBranch.rows (depth + 1))
  | .ifNoElse _ cond thenBranch =>
    ⟨depth, "If"⟩ :: (cond.rows (depth + 1) ++ thenBranch.rows (depth + 1)
      ++ [⟨depth + 1, "NoElse"⟩])
  | .letIn _ decl body => ⟨depth, "Let"⟩ :: (decl.rows (depth + 1) ++ body.rows (depth + 1))
  | .sequence _ items => ⟨depth, "Sequential"⟩ :: Command.rowsOfList (depth + 1) items
  | .whileDo _ cond body => ⟨depth, "While"⟩ :: (cond.rows (depth + 1) ++ body.rows (depth + 1))
  | .repeatUntil _ body cond =>
    ⟨depth, "Repeat"⟩ :: (body.rows (depth + 1) ++ cond.rows (depth + 1))
  | .error _ => [⟨depth, "ErrorCommand"⟩]

def Command.rowsOfList (depth : Nat) : List Command → List OutlineRow
  | [] => []
  | c :: cs => c.rows depth ++ Command.rowsOfList depth cs

end

namespace Program

def rows (p : Program) : List OutlineRow := ⟨0, "Program"⟩ :: p.command.rows 1

def outline (p : Program) : String := String.join (p.rows.map OutlineRow.toString)

end Program

end TriLang
