import TriLang.Cursor.Expression

/-!
# Reading declarations

A declaration names a constant, `const name ~ expression`, or a variable, `type name`; several are
separated by semicolons.  A semicolon that no declaration follows is left unread.  The id of a
declaration is handed out after all ids inside it.
-/

namespace TriLang.Cursor

def singleDeclaration (c : Cursor) : Read Decl c :=
  match c.ahead with
  | .token ⟨.kwConst, _, start⟩ d h =>
    .since h <|
      match d.ahead with
      | .token ⟨.identifier, spelling, span⟩ _ h =>
        .since h <| (occurrence ⟨.identifier, spelling, span⟩).andThen fun name d _ =>
          (d.expect .kwIs).andThen fun _ d _ =>
            (expression d).andThen fun value d _ =>
              .fresh fun id => .const id (d.spanSince start) name value
      | _ =>
        (d.refuse (.token .identifier)).andThen fun _ _ _ => .fresh fun id => .error id start
  | .token ⟨.identifier, spelling, start⟩ _ h =>
    .since h <| (occurrence ⟨.identifier, spelling, start⟩).andThen fun type d _ =>
      match d.ahead with
      | .token ⟨.identifier, spelling, span⟩ _ h =>
        .since h <| (occurrence ⟨.identifier, spelling, span⟩).andThen fun name d _ =>
          .fresh fun id => .var id (d.spanSince start) type name
      | _ =>
        (d.refuse (.token .identifier)).andThen fun _ d _ =>
          .fresh fun id => .error id (d.spanSince start)
  | _ =>
    (c.refuse .declaration).andThen fun _ d _ => .fresh fun id => .error id d.current.span

/-- The declarations that continue a sequence, each after a semicolon. -/
def moreDeclarations (c : Cursor) : Read (List Decl) c :=
  match c.ahead with
  | .token ⟨.semicolon, _, _⟩ d h =>
    if d.current.kind.startsDeclaration then
      .since h <| (singleDeclaration d).andThen fun decl d _ =>
        (moreDeclarations d).andThen fun decls _ _ => .done (decl :: decls)
    else .done []
  | _ => .done []
  termination_by c.size

/-- A lone declaration, or a sequence of at least two. -/
def declaration (c : Cursor) : Read Decl c :=
  (singleDeclaration c).andThen fun first d _ =>
    (moreDeclarations d).andThen fun rest _ _ =>
      match rest.getLast? with
      | none => .done first
      | some last => .fresh fun id => .sequence id (first.span.join last.span) (first :: rest)

end TriLang.Cursor
