import TriLang.Naming

/-!
# Lexical scoping

What the names of a program stand for, without a state.  An environment holds what is declared
around a place.  Each use of a name, each declaration and each `error` node gives one finding, made
in the environment of its place.  A declaration is in scope in its own right-hand side, in the later
declarations of its `let` and in its body.  One whose name the same `let` declares already is
rejected, and nothing inside it is looked at.
-/

namespace TriLang

/-! ## Labelled parts -/

/-- A part of a program that has an id, by which a table may refer to it. -/
inductive Labelled
  /-- A name or an operator. -/
  | occurrence (o : Occurrence)
  /-- A constant or a variable. -/
  | declaration (id : NodeId)

def Labelled.id : Labelled → NodeId
  | occurrence o => o.id
  | declaration id => id

mutual

def Expr.labelled : Expr → List Labelled
  | .binary _ left op right => left.labelled ++ .occurrence op :: right.labelled
  | .character .. | .integer .. | .error _ => []
  | .name _ name => [.occurrence name]
  | .apply _ name arg => .occurrence name :: arg.labelled
  | .unary _ op operand => .occurrence op :: operand.labelled

def Param.labelled : Param → List Labelled
  | .blank _ | .error _ => []
  | .value _ expr => expr.labelled
  | .var _ name => [.occurrence name]

end

mutual

def Decl.labelled : Decl → List Labelled
  | .const id _ name value => .declaration id :: .occurrence name :: value.labelled
  | .var id _ type name => [.declaration id, .occurrence name, .occurrence type]
  | .sequence _ _ items => Decl.labelledOfList items
  | .error .. => []

def Decl.labelledOfList : List Decl → List Labelled
  | [] => []
  | d :: ds => d.labelled ++ Decl.labelledOfList ds

end

mutual

def Command.labelled : Command → List Labelled
  | .assign _ target value => .occurrence target :: value.labelled
  | .blank _ | .error _ => []
  | .call _ callee arg => .occurrence callee :: arg.labelled
  | .ifElse _ cond thenBranch elseBranch =>
    cond.labelled ++ (thenBranch.labelled ++ elseBranch.labelled)
  | .ifNoElse _ cond thenBranch => cond.labelled ++ thenBranch.labelled
  | .letIn _ decl body => decl.labelled ++ body.labelled
  | .sequence _ items => Command.labelledOfList items
  | .whileDo _ cond body => cond.labelled ++ body.labelled
  | .repeatUntil _ body cond => body.labelled ++ cond.labelled

def Command.labelledOfList : List Command → List Labelled
  | [] => []
  | c :: cs => c.labelled ++ Command.labelledOfList cs

end

/-! ## Environments -/

/-- A declaration that is in scope. -/
structure Declared where
  id : NodeId
  entry : DeclEntry

/-- The declaration of `name` among those of one `let`. -/
def Declared.find? (ds : List Declared) (name : String) : Option Declared :=
  List.find? (·.entry.name = name) ds

/-- What is declared around a place: the declarations in scope of each `let`, the innermost `let`
first. -/
abbrev Env := List (List Declared)

namespace Env

/-- The declaration of `name` by the innermost `let` that has one. -/
def find? (env : Env) (name : String) : Option Declared := env.findSome? (Declared.find? · name)

/-- What `name` stands for: a declaration in scope, or else a predeclared name. -/
def meaning? (env : Env) (name : String) : Option Binding :=
  match env.find? name with
  | some d => some (.declared d.id)
  | none => (Builtin.find? name).map .builtin

end Env

/-! ## Findings -/

/-- What is found at a place of a program. -/
inductive Finding
  | use (o : Occurrence) (env : Env)
  /-- A declaration that comes into scope under `name`. -/
  | accepted (d : Declared) (name : Occurrence)
  /-- A declaration whose name its `let` has declared already, at `previous`. -/
  | rejected (decl : Decl) (name : Occurrence) (previous : Span)
  /-- An `error` node of the family `what`. -/
  | malformed (what : String) (span : Span)

namespace Finding

/-- What is not looked up: a declared name, and all in a rejected declaration. -/
def passedOver : Finding → List Labelled
  | accepted _ name => [.occurrence name]
  | rejected decl .. => decl.labelled
  | use .. | malformed .. => []

/-- What a finding is about. -/
def labelled : Finding → List Labelled
  | use o _ => [.occurrence o]
  | accepted d name => [.declaration d.id, .occurrence name]
  | rejected decl .. => decl.labelled
  | malformed .. => []

/-- What a use is bound to. -/
def binding? : Finding → Option (NodeId × Binding)
  | use o env => (env.meaning? o.spelling).map (o.id, ·)
  | _ => none

def declares? : Finding → Option (NodeId × DeclEntry)
  | accepted d _ => some (d.id, d.entry)
  | _ => none

def error? : Finding → Option NamingError
  | use o env =>
    match env.meaning? o.spelling with
    | some _ => none
    | none => some ⟨.undeclared o.spelling, o.span⟩
  | accepted .. => none
  | rejected _ name previous => some ⟨.alreadyDeclared name.spelling (some previous), name.span⟩
  | malformed what span => some ⟨.malformed what, span⟩

end Finding

mutual

def Expr.findings (env : Env) : Expr → List Finding
  | .binary _ left op right => left.findings env ++ .use op env :: right.findings env
  | .character .. | .integer .. => []
  | .name _ name => [.use name env]
  | .apply _ name arg => .use name env :: arg.findings env
  | .unary _ op operand => .use op env :: operand.findings env
  | .error span => [.malformed "expression" span]

def Param.findings (env : Env) : Param → List Finding
  | .blank _ => []
  | .value _ expr => expr.findings env
  | .var _ name => [.use name env]
  | .error span => [.malformed "parameter" span]

end

/-! ### Declarations -/

/-- What a declaration of `name` in a `let` inside `outer` declares. -/
def Declared.inside (outer : Env) (id : NodeId) (span : Span) (name : Occurrence)
    (type : Option String) : Declared :=
  ⟨id, name.spelling, type, span, outer.length + 1⟩

/-- The declarations of a `let` behind `d`, if `ds` are those in front of it. -/
def Declared.accept (ds : List Declared) (d : Declared) : List Declared :=
  match find? ds d.entry.name with
  | some _ => ds
  | none => d :: ds

/-- The findings at the declaration of `d` under `name`, which is rejected if `ds` has its name, and
in its right-hand side if it is not. -/
def Finding.ofDeclared (outer : Env) (ds : List Declared) (d : Declared) (decl : Decl)
    (name : Occurrence) (rightSide : Env → List Finding) : List Finding :=
  match Declared.find? ds d.entry.name with
  | some previous => [.rejected decl name previous.entry.span]
  | none => .accepted d name :: rightSide ((d :: ds) :: outer)

mutual

/-- The declarations of a `let` inside `outer` behind a part of them, if `ds` are those in front. -/
def Decl.accepted (outer : Env) (ds : List Declared) : Decl → List Declared
  | .const id span name _ => Declared.accept ds (.inside outer id span name none)
  | .var id span type name => Declared.accept ds (.inside outer id span name (some type.spelling))
  | .sequence _ _ items => Decl.acceptedOfList outer ds items
  | .error .. => ds

def Decl.acceptedOfList (outer : Env) (ds : List Declared) : List Decl → List Declared
  | [] => ds
  | d :: rest => Decl.acceptedOfList outer (d.accepted outer ds) rest

end

mutual

/-- The findings in a part of the declarations of a `let` inside `outer`, if `ds` are those in
front of it. -/
def Decl.findings (outer : Env) (ds : List Declared) : Decl → List Finding
  | .const id span name value =>
    Finding.ofDeclared outer ds (.inside outer id span name none) (.const id span name value) name
      fun env => value.findings env
  | .var id span type name =>
    Finding.ofDeclared outer ds (.inside outer id span name (some type.spelling))
      (.var id span type name) name fun env => [.use type env]
  | .sequence _ _ items => Decl.findingsOfList outer ds items
  | .error _ span => [.malformed "declaration" span]

def Decl.findingsOfList (outer : Env) (ds : List Declared) : List Decl → List Finding
  | [] => []
  | d :: rest => d.findings outer ds ++ Decl.findingsOfList outer (d.accepted outer ds) rest

end

/-! ### Commands -/

mutual

def Command.findings (env : Env) : Command → List Finding
  | .assign _ target value => .use target env :: value.findings env
  | .blank _ => []
  | .call _ callee arg => .use callee env :: arg.findings env
  | .ifElse _ cond thenBranch elseBranch =>
    cond.findings env ++ (thenBranch.findings env ++ elseBranch.findings env)
  | .ifNoElse _ cond thenBranch => cond.findings env ++ thenBranch.findings env
  | .letIn _ decl body =>
    decl.findings env [] ++ body.findings (decl.accepted env [] :: env)
  | .sequence _ items => Command.findingsOfList env items
  | .whileDo _ cond body => cond.findings env ++ body.findings env
  | .repeatUntil _ body cond => body.findings env ++ cond.findings env
  | .error span => [.malformed "command" span]

def Command.findingsOfList (env : Env) : List Command → List Finding
  | [] => []
  | c :: cs => c.findings env ++ Command.findingsOfList env cs

end

/-- The findings in a program, with nothing declared around it. -/
def Program.findings (p : Program) : List Finding := p.command.findings []

/-! ## What findings are about -/

mutual

/-- The findings are about each labelled part once. -/
theorem Expr.flatMap_labelled_findings (env : Env) :
    ∀ e : Expr, (e.findings env).flatMap Finding.labelled = e.labelled
  | .binary _ left op right => by
    simp [Expr.findings, Expr.labelled, Finding.labelled, left.flatMap_labelled_findings env,
      right.flatMap_labelled_findings env]
  | .character .. | .integer .. | .name .. | .error _ => rfl
  | .apply _ name arg => by
    simp [Expr.findings, Expr.labelled, Finding.labelled, arg.flatMap_labelled_findings env]
  | .unary _ op operand => by
    simp [Expr.findings, Expr.labelled, Finding.labelled, operand.flatMap_labelled_findings env]

theorem Param.flatMap_labelled_findings (env : Env) :
    ∀ q : Param, (q.findings env).flatMap Finding.labelled = q.labelled
  | .blank _ | .var .. | .error _ => rfl
  | .value _ expr => expr.flatMap_labelled_findings env

end

theorem Finding.flatMap_labelled_ofDeclared {outer : Env} {ds : List Declared} {d : Declared}
    {decl : Decl} {name : Occurrence} {rightSide : Env → List Finding} {xs : List Labelled}
    (hr : ∀ env, (rightSide env).flatMap Finding.labelled = xs)
    (hd : decl.labelled = .declaration d.id :: .occurrence name :: xs) :
    (ofDeclared outer ds d decl name rightSide).flatMap Finding.labelled = decl.labelled := by
  unfold ofDeclared
  split <;> simp [Finding.labelled, hr, hd]

mutual

theorem Decl.flatMap_labelled_findings (outer : Env) :
    ∀ (d : Decl) (ds : List Declared),
      (d.findings outer ds).flatMap Finding.labelled = d.labelled
  | .const _ _ _ value, _ =>
    Finding.flatMap_labelled_ofDeclared (fun env => value.flatMap_labelled_findings env) rfl
  | .var _ _ type _, _ =>
    have h : ∀ env, [Finding.use type env].flatMap Finding.labelled = [.occurrence type] :=
      fun _ => rfl
    Finding.flatMap_labelled_ofDeclared h rfl
  | .sequence _ _ items, ds => Decl.flatMap_labelled_findingsOfList outer items ds
  | .error .., _ => rfl

theorem Decl.flatMap_labelled_findingsOfList (outer : Env) :
    ∀ (ds : List Decl) (es : List Declared),
      (Decl.findingsOfList outer es ds).flatMap Finding.labelled = Decl.labelledOfList ds
  | [], _ => rfl
  | d :: ds, es => by
    rw [Decl.findingsOfList, List.flatMap_append, d.flatMap_labelled_findings outer es,
      Decl.flatMap_labelled_findingsOfList outer ds, Decl.labelledOfList]

end

mutual

theorem Command.flatMap_labelled_findings :
    ∀ (c : Command) (env : Env), (c.findings env).flatMap Finding.labelled = c.labelled
  | .assign _ _ value, env => by
    simp [Command.findings, Command.labelled, Finding.labelled, value.flatMap_labelled_findings env]
  | .blank _, _ | .error _, _ => rfl
  | .call _ _ arg, env => by
    simp [Command.findings, Command.labelled, Finding.labelled, arg.flatMap_labelled_findings env]
  | .ifElse _ cond a b, env => by
    simp [Command.findings, Command.labelled, cond.flatMap_labelled_findings env,
      a.flatMap_labelled_findings env, b.flatMap_labelled_findings env]
  | .ifNoElse _ cond a, env => by
    simp [Command.findings, Command.labelled, cond.flatMap_labelled_findings env,
      a.flatMap_labelled_findings env]
  | .letIn _ decl body, env => by
    simp [Command.findings, Command.labelled, decl.flatMap_labelled_findings env,
      body.flatMap_labelled_findings]
  | .sequence _ items, env => Command.flatMap_labelled_findingsOfList items env
  | .whileDo _ cond body, env => by
    simp [Command.findings, Command.labelled, cond.flatMap_labelled_findings env,
      body.flatMap_labelled_findings env]
  | .repeatUntil _ body cond, env => by
    simp [Command.findings, Command.labelled, cond.flatMap_labelled_findings env,
      body.flatMap_labelled_findings env]

theorem Command.flatMap_labelled_findingsOfList :
    ∀ (cs : List Command) (env : Env),
      (Command.findingsOfList env cs).flatMap Finding.labelled = Command.labelledOfList cs
  | [], _ => rfl
  | c :: cs, env => by
    rw [Command.findingsOfList, List.flatMap_append, c.flatMap_labelled_findings env,
      Command.flatMap_labelled_findingsOfList cs env, Command.labelledOfList]

end

end TriLang
