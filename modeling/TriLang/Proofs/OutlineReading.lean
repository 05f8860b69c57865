import TriLang.Proofs.Outlines
import TriLang.Proofs.Shape

/-!
# Reading outlines

An outline tells of a program all but its ids and spans.  The word that a line begins with tells
what node it is, and what is under the line tells which of the forms of the node it has.
-/

namespace TriLang

/-! ## Names of types -/

mutual

/-- The names of types in a declaration. -/
def Decl.typeNames : Decl → List Occurrence
  | .var _ _ type _ => [type]
  | .const .. | .error .. => []
  | .sequence _ _ items => Decl.typeNamesOfList items

def Decl.typeNamesOfList : List Decl → List Occurrence
  | [] => []
  | d :: ds => d.typeNames ++ Decl.typeNamesOfList ds

end

mutual

/-- The names of types in a command. -/
def Command.typeNames : Command → List Occurrence
  | .assign .. | .blank _ | .call .. | .error _ => []
  | .ifElse _ _ thenBranch elseBranch => thenBranch.typeNames ++ elseBranch.typeNames
  | .ifNoElse _ _ body | .whileDo _ _ body | .repeatUntil _ body _ => body.typeNames
  | .letIn _ decl body => decl.typeNames ++ body.typeNames
  | .sequence _ items => Command.typeNamesOfList items

def Command.typeNamesOfList : List Command → List Occurrence
  | [] => []
  | c :: cs => c.typeNames ++ Command.typeNamesOfList cs

end

/-! ## Reading forests -/

namespace OutlineForest

/-- The word that a line begins with. -/
def word (text : String) : String := String.ofList (text.toList.takeWhile (· ≠ ' '))

/-- What is behind that word and a blank. -/
def argument (text : String) : String := String.ofList (text.toList.dropWhile (· ≠ ' ')).tail

section

variable {w : String} (hw : ' ' ∉ w.toList)
include hw

theorem forall_mem_toList : ∀ c ∈ w.toList, decide (c ≠ ' ') = true :=
  fun _ hc => decide_eq_true fun heq => hw (heq ▸ hc)

@[simp] theorem word_eq_self : word w = w := by
  rw [word, List.takeWhile_eq_self_iff.2 (forall_mem_toList hw), String.ofList_toList]

@[simp] theorem word_headed (s : String) : word (headed w s) = w := by
  rw [word, toList_headed, List.takeWhile_append_of_pos (forall_mem_toList hw),
    List.takeWhile_cons_of_neg (by decide), List.append_nil, String.ofList_toList]

@[simp] theorem argument_headed (s : String) : argument (headed w s) = s := by
  rw [argument, toList_headed, List.dropWhile_append_of_pos (forall_mem_toList hw),
    List.dropWhile_cons_of_neg (by decide), List.tail_cons, String.ofList_toList]

end

/-- The occurrence spelt `s`, without an id or a place. -/
def named (s : String) : Occurrence := ⟨0, s, .empty 0⟩

mutual

/-- The trees read as expressions. -/
def exprs : OutlineForest → List (Option Expr)
  | nil => []
  | node text children rest =>
    (match word text with
      | "Binary" => match exprs children with
        | [some left, some right] => some (.binary (.empty 0) left (named (argument text)) right)
        | _ => none
      | "Char" => some (.character (.empty 0) (argument text))
      | "Int" => some (.integer (.empty 0) (argument text))
      | "Id" => match params children with
        | [some arg] => some (.apply (.empty 0) (named (argument text)) arg)
        | _ => some (.name (.empty 0) (named (argument text)))
      | "Unary" => match exprs children with
        | [some operand] => some (.unary (.empty 0) (named (argument text)) operand)
        | _ => none
      | "ErrorExpr" => some (.error (.empty 0))
      | _ => none) :: exprs rest

/-- The trees read as parameters. -/
def params : OutlineForest → List (Option Param)
  | nil => []
  | node text children rest =>
    (match word text with
      | "BlankParam" => some (.blank (.empty 0))
      | "ValueParam" => match exprs children with
        | [some expr] => some (.value (.empty 0) expr)
        | _ => none
      | "VarParam" => some (.var (.empty 0) (named (argument text)))
      | "ErrorParam" => some (.error (.empty 0))
      | _ => none) :: params rest

end

/-- The trees read as declarations. -/
def decls : OutlineForest → List (Option Decl)
  | nil => []
  | node text children rest =>
    (match word text with
      | "Const" => match exprs children with
        | [some value] => some (.const 0 (.empty 0) (named (argument text)) value)
        | _ => none
      | "Var" =>
        let names := argument text
        some (.var 0 (.empty 0) (named (word names)) (named (argument names)))
      | "SequentialDecl" => some (.sequence 0 (.empty 0) ((decls children).filterMap fun d => d))
      | "ErrorDecl" => some (.error 0 (.empty 0))
      | _ => none) :: decls rest

/-- The trees read as commands. -/
def commands : OutlineForest → List (Option Command)
  | nil => []
  | node text children rest =>
    (match word text with
      | "Assign" => match exprs children with
        | [some value] => some (.assign (.empty 0) (named (argument text)) value)
        | _ => none
      | "Blank" => some (.blank (.empty 0))
      | "Call" => match params children with
        | [some arg] => some (.call (.empty 0) (named (argument text)) arg)
        | _ => none
      | "If" => match exprs children, (commands children).tail with
        | some cond :: _, [some thenBranch, some elseBranch] =>
          some (.ifElse (.empty 0) cond thenBranch elseBranch)
        -- The line in place of an `else` branch is no command.
        | some cond :: _, [some thenBranch, none] => some (.ifNoElse (.empty 0) cond thenBranch)
        | _, _ => none
      | "Let" => match decls children, (commands children).tail with
        | some decl :: _, [some body] => some (.letIn (.empty 0) decl body)
        | _, _ => none
      | "Sequential" => some (.sequence (.empty 0) ((commands children).filterMap fun c => c))
      | "While" => match exprs children, (commands children).tail with
        | some cond :: _, [some body] => some (.whileDo (.empty 0) cond body)
        | _, _ => none
      | "Repeat" => match commands children, (exprs children).tail with
        | some body :: _, [some cond] => some (.repeatUntil (.empty 0) body cond)
        | _, _ => none
      | "ErrorCommand" => some (.error (.empty 0))
      | _ => none) :: commands rest

end OutlineForest

/-! ## What is read -/

open OutlineForest

/-- An expression is one tree, which is passed over where commands are wanted. -/
theorem Expr.tail_commands (e : Expr) (rest : OutlineForest) :
    (commands (e.forest rest)).tail = commands rest := by
  cases e <;> rw [Expr.forest, commands, List.tail_cons]

theorem Decl.tail_commands (d : Decl) (rest : OutlineForest) :
    (commands (d.forest rest)).tail = commands rest := by
  cases d <;> rw [Decl.forest, commands, List.tail_cons]

theorem Command.tail_exprs (c : Command) (rest : OutlineForest) :
    (exprs (c.forest rest)).tail = exprs rest := by
  cases c <;> rw [Command.forest, exprs, List.tail_cons]

mutual

theorem Expr.exprs_forest : ∀ (e : Expr) (rest : OutlineForest),
    exprs (e.forest rest) = some e.shape :: exprs rest
  | .binary _ left _ right, _ => by
    simp [Expr.forest, exprs, left.exprs_forest, right.exprs_forest, named]
  | .character .., _ | .integer .., _ | .name .., _ | .error _, _ => by
    simp [Expr.forest, exprs, params, named]
  | .apply _ _ arg, _ => by simp [Expr.forest, exprs, params, arg.params_forest, named]
  | .unary _ _ operand, _ => by simp [Expr.forest, exprs, operand.exprs_forest, named]

theorem Param.params_forest : ∀ (q : Param) (rest : OutlineForest),
    params (q.forest rest) = some q.shape :: params rest
  | .blank _, _ | .var .., _ | .error _, _ => by simp [Param.forest, params, named]
  | .value _ expr, _ => by simp [Param.forest, params, exprs, expr.exprs_forest]

end

mutual

theorem Decl.decls_forest : ∀ (d : Decl) (rest : OutlineForest),
    (∀ type ∈ d.typeNames, ' ' ∉ type.spelling.toList) →
      decls (d.forest rest) = some d.shape :: decls rest
  | .const _ _ _ value, _, _ => by simp [Decl.forest, decls, exprs, value.exprs_forest, named]
  | .var _ _ type _, _, h => by
    have htype := h type List.mem_cons_self
    simp [Decl.forest, decls, named, htype]
  | .sequence _ _ items, _, h => by
    simp [Decl.forest, decls, Decl.decls_forestOfList items h]
  | .error .., _, _ => by simp [Decl.forest, decls]

theorem Decl.decls_forestOfList : ∀ ds : List Decl,
    (∀ type ∈ Decl.typeNamesOfList ds, ' ' ∉ type.spelling.toList) →
      decls (Decl.forestOfList ds) = ds.map fun d => some d.shape
  | [], _ => rfl
  | d :: ds, h => by
    rw [Decl.typeNamesOfList, List.forall_mem_append] at h
    rw [Decl.forestOfList, d.decls_forest _ h.1, Decl.decls_forestOfList ds h.2, List.map_cons]

end

mutual

theorem Command.commands_forest : ∀ (c : Command) (rest : OutlineForest),
    (∀ type ∈ c.typeNames, ' ' ∉ type.spelling.toList) →
      commands (c.forest rest) = some c.shape :: commands rest
  | .assign _ _ value, _, _ => by
    simp [Command.forest, commands, exprs, value.exprs_forest, named]
  | .blank _, _, _ | .error _, _, _ => by simp [Command.forest, commands]
  | .call _ _ arg, _, _ => by simp [Command.forest, commands, params, arg.params_forest, named]
  | .ifElse _ cond thenBranch elseBranch, _, h => by
    rw [Command.typeNames, List.forall_mem_append] at h
    simp [Command.forest, commands, cond.exprs_forest, cond.tail_commands,
      thenBranch.commands_forest _ h.1, elseBranch.commands_forest _ h.2]
  | .ifNoElse _ cond thenBranch, _, h => by
    -- The third tree is not read as a command, as every branch would be.
    simp [Command.forest, commands, cond.exprs_forest, cond.tail_commands,
      thenBranch.commands_forest _ h]
  | .letIn _ decl body, _, h => by
    rw [Command.typeNames, List.forall_mem_append] at h
    simp [Command.forest, commands, decl.decls_forest _ h.1, decl.tail_commands,
      body.commands_forest _ h.2]
  | .sequence _ items, _, h => by
    simp [Command.forest, commands, Command.commands_forestOfList items h]
  | .whileDo _ cond body, _, h => by
    simp [Command.forest, commands, cond.exprs_forest, cond.tail_commands,
      body.commands_forest _ h]
  | .repeatUntil _ body cond, _, h => by
    simp [Command.forest, commands, body.commands_forest _ h, body.tail_exprs, exprs,
      cond.exprs_forest]

theorem Command.commands_forestOfList : ∀ cs : List Command,
    (∀ type ∈ Command.typeNamesOfList cs, ' ' ∉ type.spelling.toList) →
      commands (Command.forestOfList cs) = cs.map fun c => some c.shape
  | [], _ => rfl
  | c :: cs, h => by
    rw [Command.typeNamesOfList, List.forall_mem_append] at h
    rw [Command.forestOfList, c.commands_forest _ h.1, Command.commands_forestOfList cs h.2,
      List.map_cons]

end

/-! ## The outline of a program -/

namespace Program

/-- What the nodes of the program are spelt with is on one line each, and no name of a type has a
blank. -/
structure IsLegible (p : Program) : Prop where
  leaves : ∀ l ∈ p.command.leaves, '\n' ∉ l.token.spelling.toList
  types : ∀ type ∈ p.command.typeNames, ' ' ∉ type.spelling.toList

/-- Programs with the same outline differ in their ids and spans only. -/
theorem shape_eq_of_outline_eq {p q : Program} (hp : p.IsLegible) (hq : q.IsLegible)
    (h : p.outline = q.outline) : p.command.shape = q.command.shape := by
  obtain ⟨-, hforest, -⟩ :=
    OutlineForest.node.inj (forest_eq_of_outline_eq hp.leaves hq.leaves h)
  have hread := p.command.commands_forest .nil hp.types
  rw [hforest, q.command.commands_forest .nil hq.types] at hread
  exact (Option.some.inj (List.cons.inj hread).1).symm

/-- A program of `error` nodes that declares a variable, with the marks `i` and `s` everywhere. -/
def withVariable (i : NodeId) (s : Span) (type name : String) : Program where
  command :=
    .ifNoElse s (.error s)
      (.sequence s [.letIn s (.var i s ⟨i, type, s⟩ ⟨i, name, s⟩) (.error s)])
  span := s

theorem shape_eq_of_outline_eq_withVariable :
    let p := withVariable 1 ⟨0, 9⟩ "T" "x"
    let q := withVariable 2 ⟨3, 5⟩ "T" "x"
    p.IsLegible ∧ q.IsLegible ∧ p.outline = q.outline ∧ p.command.shape = q.command.shape := by
  intro p q
  have hp : p.IsLegible := ⟨by decide, by decide⟩
  have hq : q.IsLegible := ⟨by decide, by decide⟩
  have h : p.outline = q.outline := rfl
  exact ⟨hp, hq, h, shape_eq_of_outline_eq hp hq h⟩

/-- Where the name of a type has a blank, the name of the variable could begin there. -/
example : (withVariable 1 ⟨0, 9⟩ "a b" "c").outline =
    (withVariable 1 ⟨0, 9⟩ "a" "b c").outline := by
  decide

end Program

end TriLang
