import TriLang.Cursor.Declaration

/-!
# Reading commands and programs

A program is one command.  A block, `begin … end`, holds several separated by semicolons and leaves
no node of its own.  A semicolon that no command follows is left unread.  Reading never stops: what
fits no form is reported and stands in the tree as an `error` node.
-/

namespace TriLang.Cursor

mutual

def singleCommand (c : Cursor) : Read Command c :=
  match c.ahead with
  | .token ⟨.identifier, spelling, start⟩ _ h =>
    .since h <| (occurrence ⟨.identifier, spelling, start⟩).andThen fun name d _ =>
      match d.ahead with
      | .token ⟨.becomes, _, _⟩ d h =>
        .since h <| (expression d).andThen fun value d _ =>
          .done (.assign (d.spanSince start) name value)
      | .token ⟨.leftBracket, _, _⟩ d h =>
        .since h <| (parameter d).andThen fun arg d _ =>
          (d.expect .rightBracket).andThen fun _ d _ =>
            .done (.call (d.spanSince start) name arg)
      | _ => (d.refuse .assignmentOrCall).andThen fun _ _ _ => .done (.error start)
  | .token ⟨.kwBegin, _, _⟩ d h =>
    .since h <| (command d).andThen fun inner d _ =>
      (d.expect .kwEnd).andThen fun _ _ _ => .done inner
  | .token ⟨.kwLet, _, start⟩ d h =>
    .since h <| (declaration d).andThen fun decl d _ =>
      (d.expect .kwIn).andThen fun _ d _ =>
        (singleCommand d).andThen fun body d _ => .done (.letIn (d.spanSince start) decl body)
  | .token ⟨.kwIf, _, start⟩ d h =>
    .since h <| (expression d).andThen fun cond d _ =>
      (d.expect .kwThen).andThen fun _ d _ =>
        (singleCommand d).andThen fun thenBranch d _ =>
          match d.ahead with
          | .token ⟨.kwElse, _, _⟩ d h =>
            .since h <| (singleCommand d).andThen fun elseBranch d _ =>
              .done (.ifElse (d.spanSince start) cond thenBranch elseBranch)
          | .token ⟨.kwNoElse, _, _⟩ d h =>
            .since h <| .done (.ifNoElse (d.spanSince start) cond thenBranch)
          | _ => (d.refuse .elseBranch).andThen fun _ _ _ => .done (.error start)
  | .token ⟨.kwWhile, _, start⟩ d h =>
    .since h <| (expression d).andThen fun cond d _ =>
      (d.expect .kwDo).andThen fun _ d _ =>
        (singleCommand d).andThen fun body d _ => .done (.whileDo (d.spanSince start) cond body)
  | .token ⟨.kwRepeat, _, start⟩ d h =>
    .since h <| (singleCommand d).andThen fun body d _ =>
      (d.expect .kwUntil).andThen fun _ d _ =>
        (expression d).andThen fun cond d _ =>
          .done (.repeatUntil (d.spanSince start) body cond)
  | .token ⟨.kwNothing, _, span⟩ _ h => .since h <| .done (.blank span)
  | _ => (c.refuse .command).andThen fun _ d _ => .done (.error d.current.span)
  termination_by 2 * c.size

/-- The commands that continue a sequence, each after a semicolon. -/
def moreCommands (c : Cursor) : Read (List Command) c :=
  match c.ahead with
  | .token ⟨.semicolon, _, _⟩ d h =>
    if d.current.kind.startsCommand then
      .since h <| (singleCommand d).andThen fun first d _ =>
        (moreCommands d).andThen fun rest _ _ => .done (first :: rest)
    else .done []
  | _ => .done []
  termination_by 2 * c.size

/-- A lone command, or a sequence of at least two. -/
def command (c : Cursor) : Read Command c :=
  (singleCommand c).andThen fun first d _ =>
    (moreCommands d).andThen fun rest _ _ =>
      match rest.getLast? with
      | none => .done first
      | some last => .done (.sequence (first.span.join last.span) (first :: rest))
  termination_by 2 * c.size + 1

end

def program (c : Cursor) : Read Program c :=
  (singleCommand c).andThen fun command d _ =>
    (d.expect .endOfText).andThen fun _ _ _ =>
      .done ⟨command, d.spanSince c.current.span⟩

end Cursor

/-- What is read from a list of tokens, closed with an end of text if it is not already. -/
def Program.ofTokens (tokens : List Token) : Read Program (.ofTokens tokens) :=
  (Cursor.ofTokens tokens).program

end TriLang
