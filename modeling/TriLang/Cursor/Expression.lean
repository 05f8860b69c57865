import TriLang.Cursor

/-!
# Reading expressions and parameters

An expression is a chain of primaries with operators between them, folded to the left without
precedence.  A prefix operator takes one primary.  Brackets group and leave no node.
-/

namespace TriLang.Cursor

/-- The occurrence spelled by `token`, under a new id. -/
def occurrence (token : Token) {c : Cursor} : Read Occurrence c :=
  .fresh fun id => ⟨id, token.spelling, token.span⟩

mutual

def expression (c : Cursor) : Read Expr c :=
  (primary c).andThen fun left d _ => operands left d
  termination_by 3 * c.size + 1

/-- The operators and primaries that continue an expression. -/
def operands (left : Expr) (c : Cursor) : Read Expr c :=
  match c.ahead with
  | .token ⟨.operator, spelling, span⟩ d h =>
    .since h <| (occurrence ⟨.operator, spelling, span⟩).andThen fun op d _ =>
      (primary d).andThen fun right d _ =>
        operands (.binary (left.span.join right.span) left op right) d
  | _ => .done left
  termination_by 3 * c.size

/-- An expression that no operator outside brackets splits. -/
def primary (c : Cursor) : Read Expr c :=
  match c.ahead with
  | .token ⟨.intLiteral, spelling, span⟩ _ h => .since h <| .done (.integer span spelling)
  | .token ⟨.charLiteral, spelling, span⟩ _ h => .since h <| .done (.character span spelling)
  | .token ⟨.identifier, spelling, span⟩ d h =>
    .since h <| (occurrence ⟨.identifier, spelling, span⟩).andThen fun name d _ =>
      match d.ahead with
      | .token ⟨.leftBracket, _, _⟩ d h =>
        .since h <| (parameter d).andThen fun arg d _ =>
          (d.expect .rightBracket).andThen fun _ d _ =>
            .done (.apply (d.spanSince span) name arg)
      | _ => .done (.name (d.spanSince span) name)
  | .token ⟨.operator, spelling, span⟩ d h =>
    .since h <| (occurrence ⟨.operator, spelling, span⟩).andThen fun op d _ =>
      (primary d).andThen fun operand d _ => .done (.unary (d.spanSince span) op operand)
  | .token ⟨.leftBracket, _, _⟩ d h =>
    .since h <| (expression d).andThen fun inner d _ =>
      (d.expect .rightBracket).andThen fun _ _ _ => .done inner
  | _ => (c.refuse .expression).andThen fun _ d _ => .done (.error d.current.span)
  termination_by 3 * c.size

/-- What stands between the brackets of a call. -/
def parameter (c : Cursor) : Read Param c :=
  match c.ahead with
  | .token ⟨.kwVar, _, start⟩ d h =>
    .since h <|
      match d.ahead with
      | .token ⟨.identifier, spelling, span⟩ d h =>
        .since h <| (occurrence ⟨.identifier, spelling, span⟩).andThen fun name d _ =>
          .done (.var (d.spanSince start) name)
      | _ =>
        (d.refuse (.token .identifier)).andThen fun _ d _ => .done (.error (d.spanSince start))
  | .token ⟨.rightBracket, _, span⟩ _ _ => .done (.blank (.empty span.start))
  | _ =>
    if c.current.kind.startsExpression then
      (expression c).andThen fun expr _ _ => .done (.value expr.span expr)
    else (c.refuse .parameter).andThen fun _ d _ => .done (.error d.current.span)
  termination_by 3 * c.size + 2

end

end TriLang.Cursor
