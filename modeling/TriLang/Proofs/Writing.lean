import TriLang.Proofs.Acceptance

/-!
# Writing trees

A tree is written as the kinds and spellings of tokens.  A sequence of commands stands in a block,
and brackets are put round a binary expression where a prefix operator or an operator on its left
would take a part of it for the whole.  What is written of a normal tree is a phrase with that tree,
and every phrase has a normal tree.
-/

namespace TriLang

/-- The kind and the spelling of a token. -/
def Token.face (t : Token) : TokenKind × String := (t.kind, t.spelling)

/-! ## What is written -/

/-- Whether an operator of its own splits an expression. -/
def Expr.isBinary : Expr → Bool
  | binary .. => true
  | _ => false

/-- In brackets, if they are needed. -/
def bracket (needed : Bool) (fs : List (TokenKind × String)) : List (TokenKind × String) :=
  if needed then (.leftBracket, "(") :: (fs ++ [(.rightBracket, ")")]) else fs

mutual

def Expr.written : Expr → List (TokenKind × String)
  | .binary _ left op right =>
    left.written ++ (.operator, op.spelling) :: bracket right.isBinary right.written
  | .character _ spelling => [(.charLiteral, spelling)]
  | .integer _ spelling => [(.intLiteral, spelling)]
  | .name _ name => [(.identifier, name.spelling)]
  | .apply _ name arg =>
    (.identifier, name.spelling) :: (.leftBracket, "(") :: (arg.written ++ [(.rightBracket, ")")])
  | .unary _ op operand =>
    (.operator, op.spelling) :: bracket operand.isBinary operand.written
  | .error _ => []

def Param.written : Param → List (TokenKind × String)
  | .value _ expr => expr.written
  | .var _ name => [(.kwVar, "var"), (.identifier, name.spelling)]
  | .blank _ | .error _ => []

end

mutual

def Decl.written : Decl → List (TokenKind × String)
  | .const _ _ name value =>
    (.kwConst, "const") :: (.identifier, name.spelling) :: (.kwIs, "~") :: value.written
  | .var _ _ type name => [(.identifier, type.spelling), (.identifier, name.spelling)]
  | .sequence _ _ items => (Decl.writtenEach items).tail
  | .error .. => []

/-- Each declaration behind a semicolon. -/
def Decl.writtenEach : List Decl → List (TokenKind × String)
  | [] => []
  | d :: ds => (.semicolon, ";") :: (d.written ++ Decl.writtenEach ds)

end

mutual

def Command.written : Command → List (TokenKind × String)
  | .assign _ target value => (.identifier, target.spelling) :: (.becomes, ":=") :: value.written
  | .blank _ => [(.kwNothing, "nothing")]
  | .call _ callee arg =>
    (.identifier, callee.spelling) :: (.leftBracket, "(") ::
      (arg.written ++ [(.rightBracket, ")")])
  | .ifElse _ cond thenBranch elseBranch =>
    (.kwIf, "if") :: (cond.written ++ (.kwThen, "then") ::
      (thenBranch.written ++ (.kwElse, "else") :: elseBranch.written))
  | .ifNoElse _ cond thenBranch =>
    (.kwIf, "if") :: (cond.written ++ (.kwThen, "then") ::
      (thenBranch.written ++ [(.kwNoElse, "noelse")]))
  | .letIn _ decl body => (.kwLet, "let") :: (decl.written ++ (.kwIn, "in") :: body.written)
  | .sequence _ items =>
    (.kwBegin, "begin") :: ((Command.writtenEach items).tail ++ [(.kwEnd, "end")])
  | .whileDo _ cond body => (.kwWhile, "while") :: (cond.written ++ (.kwDo, "do") :: body.written)
  | .repeatUntil _ body cond =>
    (.kwRepeat, "repeat") :: (body.written ++ (.kwUntil, "until") :: cond.written)
  | .error _ => []

/-- Each command behind a semicolon. -/
def Command.writtenEach : List Command → List (TokenKind × String)
  | [] => []
  | c :: cs => (.semicolon, ";") :: (c.written ++ Command.writtenEach cs)

end

/-! ## Normal trees -/

mutual

/-- Whether there is no error in an expression. -/
def Expr.isNormal : Expr → Bool
  | .binary _ left _ right => left.isNormal && right.isNormal
  | .character .. | .integer .. | .name .. => true
  | .apply _ _ arg => arg.isNormal
  | .unary _ _ operand => operand.isNormal
  | .error _ => false

def Param.isNormal : Param → Bool
  | .blank _ | .var .. => true
  | .value _ expr => expr.isNormal
  | .error _ => false

end

namespace Decl

/-- Whether a declaration names a constant or a variable, without an error in it. -/
def isNormalItem : Decl → Bool
  | const _ _ _ value => value.isNormal
  | var .. => true
  | sequence .. | error .. => false

/-- Whether a declaration has no error in it and is a sequence only if it has two items at least. -/
def isNormal : Decl → Bool
  | sequence _ _ items => 2 ≤ items.length && items.all isNormalItem
  | d => d.isNormalItem

theorem isNormal_of_isNormalItem : ∀ {d : Decl}, d.isNormalItem → d.isNormal
  | const .., h | var .., h => h

end Decl

mutual

/-- Whether a command has no error in it, and two items at least in each of its sequences. -/
def Command.isNormal : Command → Bool
  | .assign _ _ value => value.isNormal
  | .blank _ => true
  | .call _ _ arg => arg.isNormal
  | .ifElse _ cond thenBranch elseBranch =>
    cond.isNormal && thenBranch.isNormal && elseBranch.isNormal
  | .ifNoElse _ cond thenBranch => cond.isNormal && thenBranch.isNormal
  | .letIn _ decl body => decl.isNormal && body.isNormal
  | .sequence _ items => 2 ≤ items.length && Command.areNormal items
  | .whileDo _ cond body => cond.isNormal && body.isNormal
  | .repeatUntil _ body cond => body.isNormal && cond.isNormal
  | .error _ => false

def Command.areNormal : List Command → Bool
  | [] => true
  | c :: cs => c.isNormal && Command.areNormal cs

end

/-! ## What is written is a phrase -/

namespace Phrase

/-- All tokens with the faces `fs` are a phrase `p` with the tree `t`. -/
def ReadsBack (p : Phrase) (fs : List (TokenKind × String)) (t : p.Tree) : Prop :=
  ∀ ts : List Token, ts.map Token.face = fs → Derives p ts t

variable {fs : List (TokenKind × String)}

/-- In brackets, any expression is a primary. -/
theorem ReadsBack.bracket {e : Expr} (h : expression.ReadsBack fs e) :
    primary.ReadsBack (bracket true fs) e := by
  intro ts ht
  simp only [TriLang.bracket, if_true, List.map_eq_cons_iff, List.map_eq_append_iff,
    List.map_eq_nil_iff, Token.face, Prod.mk.injEq] at ht
  obtain ⟨t, _, rfl, ⟨hl, -⟩, us, _, rfl, hu, v, _, rfl, ⟨hr, -⟩, rfl⟩ := ht
  exact .bracketed hl (h us hu) hr

/-- One token, whose spelling goes into the tree. -/
theorem ReadsBack.leaf {p : Phrase} {kind : TokenKind} {spelling : String} (f : String → p.Tree)
    (h : ∀ t : Token, t.kind = kind → Derives p [t] (f t.spelling)) :
    p.ReadsBack [(kind, spelling)] (f spelling) := by
  intro ts ht
  simp only [List.map_eq_cons_iff, List.map_eq_nil_iff, Token.face, Prod.mk.injEq] at ht
  obtain ⟨t, _, rfl, ⟨hk, rfl⟩, rfl⟩ := ht
  exact h t hk

theorem ReadsBack.operand {e : Expr} (h : primary.ReadsBack fs e) : expression.ReadsBack fs e :=
  fun ts ht => .operand (h ts ht)

end Phrase

open Phrase

mutual

/-- What is written of a normal expression is an expression, and a primary if brackets stand round
it where they are needed. -/
theorem Expr.readsBack : ∀ {e : Expr}, e.isNormal →
    expression.ReadsBack e.written e ∧ primary.ReadsBack (bracket e.isBinary e.written) e
  | .binary s left ⟨i, spelling, m⟩ right, h => by
    obtain ⟨hl, hr⟩ : left.isNormal ∧ right.isNormal := by simpa [Expr.isNormal] using h
    have he : expression.ReadsBack
        (left.written ++ (.operator, spelling) :: bracket right.isBinary right.written)
        (.binary s left ⟨i, spelling, m⟩ right) := by
      intro ts ht
      simp only [List.map_eq_append_iff, List.map_eq_cons_iff, Token.face, Prod.mk.injEq] at ht
      obtain ⟨us, _, rfl, hu, t, vs, rfl, ⟨hk, rfl⟩, hv⟩ := ht
      exact .binary ((Expr.readsBack hl).1 us hu) hk ((Expr.readsBack hr).2 vs hv)
    exact ⟨he, he.bracket⟩
  | .character s spelling, _ => by
    have he : primary.ReadsBack [(.charLiteral, spelling)] (.character s spelling) :=
      .leaf (p := primary) (.character s) fun _ => .character
    exact ⟨he.operand, he⟩
  | .integer s spelling, _ => by
    have he : primary.ReadsBack [(.intLiteral, spelling)] (.integer s spelling) :=
      .leaf (p := primary) (.integer s) fun _ => .integer
    exact ⟨he.operand, he⟩
  | .name s ⟨i, spelling, m⟩, _ => by
    have he : primary.ReadsBack [(.identifier, spelling)] (.name s ⟨i, spelling, m⟩) :=
      .leaf (p := primary) (fun spelling => .name s ⟨i, spelling, m⟩) fun _ => .name
    exact ⟨he.operand, he⟩
  | .apply s ⟨i, spelling, m⟩ arg, h => by
    have hq := Param.readsBack (q := arg) h
    have he : primary.ReadsBack (Expr.apply s ⟨i, spelling, m⟩ arg).written
        (.apply s ⟨i, spelling, m⟩ arg) := by
      intro ts ht
      simp only [Expr.written, List.map_eq_cons_iff, List.map_eq_append_iff, List.map_eq_nil_iff,
        Token.face, Prod.mk.injEq] at ht
      obtain ⟨t, _, rfl, ⟨hk, rfl⟩, u, _, rfl, ⟨hl, -⟩, us, _, rfl, hu, v, _, rfl, ⟨hr, -⟩, rfl⟩ :=
        ht
      exact .apply hk hl (hq us hu) hr
    exact ⟨he.operand, he⟩
  | .unary s ⟨i, spelling, m⟩ operand, h => by
    have ho := Expr.readsBack (e := operand) h
    have he : primary.ReadsBack (Expr.unary s ⟨i, spelling, m⟩ operand).written
        (.unary s ⟨i, spelling, m⟩ operand) := by
      intro ts ht
      simp only [Expr.written, List.map_eq_cons_iff, Token.face, Prod.mk.injEq] at ht
      obtain ⟨t, us, rfl, ⟨hk, rfl⟩, hu⟩ := ht
      exact .unary hk (ho.2 us hu)
    exact ⟨he.operand, he⟩

theorem Param.readsBack : ∀ {q : Param}, q.isNormal → parameter.ReadsBack q.written q
  | .blank s, _ => by
    intro ts ht
    obtain rfl := List.map_eq_nil_iff.1 ht
    exact .noParameter
  | .value s e, h => fun ts ht => .value ((Expr.readsBack h).1 ts ht)
  | .var s ⟨i, spelling, m⟩, _ => by
    intro ts ht
    simp only [Param.written, List.map_eq_cons_iff, List.map_eq_nil_iff, Token.face,
      Prod.mk.injEq] at ht
    obtain ⟨t, _, rfl, ⟨hv, -⟩, u, _, rfl, ⟨hk, rfl⟩, rfl⟩ := ht
    exact .varParameter hv hk

end

namespace Decl

theorem readsBack_item : ∀ {d : Decl}, d.isNormalItem → singleDeclaration.ReadsBack d.written d
  | const i s ⟨j, spelling, m⟩ value, h => by
    intro ts ht
    simp only [written, List.map_eq_cons_iff, Token.face, Prod.mk.injEq] at ht
    obtain ⟨t, _, rfl, ⟨hc, -⟩, u, _, rfl, ⟨hk, rfl⟩, v, us, rfl, ⟨hi, -⟩, hu⟩ := ht
    exact .const hc hk hi ((Expr.readsBack h).1 us hu)
  | var i s ⟨j, spelling, m⟩ ⟨k, spelling', n⟩, _ => by
    intro ts ht
    simp only [written, List.map_eq_cons_iff, List.map_eq_nil_iff, Token.face,
      Prod.mk.injEq] at ht
    obtain ⟨t, _, rfl, ⟨ht, rfl⟩, u, _, rfl, ⟨hu, rfl⟩, rfl⟩ := ht
    exact .var ht hu

theorem readsBack_each : ∀ {ds : List Decl}, ds.all isNormalItem →
    moreDeclarations.ReadsBack (writtenEach ds) ds
  | [], _ => by
    intro ts ht
    obtain rfl := List.map_eq_nil_iff.1 ht
    exact .noMoreDeclarations
  | d :: ds, h => by
    intro ts ht
    obtain ⟨hd, hds⟩ : d.isNormalItem ∧ ds.all isNormalItem := by
      rwa [List.all_cons, Bool.and_eq_true] at h
    simp only [writtenEach, List.map_eq_cons_iff, List.map_eq_append_iff, Token.face,
      Prod.mk.injEq] at ht
    obtain ⟨t, _, rfl, ⟨hk, -⟩, us, vs, rfl, hu, hv⟩ := ht
    exact .moreDeclarations hk (readsBack_item hd us hu) (readsBack_each hds vs hv)

theorem readsBack : ∀ {d : Decl}, d.isNormal → declaration.ReadsBack d.written d
  | const i s name value, h => fun ts ht =>
    .loneDeclaration (readsBack_item (d := const i s name value) h ts ht)
  | var i s type name, h => fun ts ht =>
    .loneDeclaration (readsBack_item (d := var i s type name) h ts ht)
  | sequence i s (c :: d :: ds), h => by
    intro ts ht
    obtain ⟨hc, hd⟩ : c.isNormalItem ∧ (d :: ds).all isNormalItem := by
      simpa [isNormal] using h
    rw [written, writtenEach, List.tail_cons] at ht
    obtain ⟨us, vs, rfl, hu, hv⟩ := List.map_eq_append_iff.1 ht
    exact .declarationSequence (readsBack_item hc us hu) (readsBack_each hd vs hv)

end Decl

mutual

theorem Command.readsBack : ∀ {c : Command}, c.isNormal → singleCommand.ReadsBack c.written c
  | .assign s ⟨i, spelling, m⟩ value, h => by
    intro ts ht
    simp only [Command.written, List.map_eq_cons_iff, Token.face, Prod.mk.injEq] at ht
    obtain ⟨t, _, rfl, ⟨hk, rfl⟩, u, us, rfl, ⟨hb, -⟩, hu⟩ := ht
    exact .assign hk hb ((Expr.readsBack h).1 us hu)
  | .blank s, _ => by
    intro ts ht
    simp only [Command.written, List.map_eq_cons_iff, List.map_eq_nil_iff, Token.face,
      Prod.mk.injEq] at ht
    obtain ⟨t, _, rfl, ⟨hk, -⟩, rfl⟩ := ht
    exact .blank hk
  | .call s ⟨i, spelling, m⟩ arg, h => by
    intro ts ht
    simp only [Command.written, List.map_eq_cons_iff, List.map_eq_append_iff, List.map_eq_nil_iff,
      Token.face, Prod.mk.injEq] at ht
    obtain ⟨t, _, rfl, ⟨hk, rfl⟩, u, _, rfl, ⟨hl, -⟩, us, _, rfl, hu, v, _, rfl, ⟨hr, -⟩, rfl⟩ := ht
    exact .call hk hl (Param.readsBack h us hu) hr
  | .ifElse s cond thenBranch elseBranch, h => by
    intro ts ht
    obtain ⟨⟨he, hc⟩, hd⟩ : (cond.isNormal ∧ thenBranch.isNormal) ∧ elseBranch.isNormal := by
      simpa [Command.isNormal] using h
    simp only [Command.written, List.map_eq_cons_iff, List.map_eq_append_iff, Token.face,
      Prod.mk.injEq] at ht
    obtain ⟨t, _, rfl, ⟨hi, -⟩, us, _, rfl, hu, v, _, rfl, ⟨ht, -⟩, vs, _, rfl, hv, w, ws, rfl,
      ⟨hk, -⟩, hw⟩ := ht
    exact .ifElse hi ((Expr.readsBack he).1 us hu) ht (Command.readsBack hc vs hv) hk
      (Command.readsBack hd ws hw)
  | .ifNoElse s cond thenBranch, h => by
    intro ts ht
    obtain ⟨he, hc⟩ : cond.isNormal ∧ thenBranch.isNormal := by simpa [Command.isNormal] using h
    simp only [Command.written, List.map_eq_cons_iff, List.map_eq_append_iff, List.map_eq_nil_iff,
      Token.face, Prod.mk.injEq] at ht
    obtain ⟨t, _, rfl, ⟨hi, -⟩, us, _, rfl, hu, v, _, rfl, ⟨ht, -⟩, vs, _, rfl, hv, w, _, rfl,
      ⟨hk, -⟩, rfl⟩ := ht
    exact .ifNoElse hi ((Expr.readsBack he).1 us hu) ht (Command.readsBack hc vs hv) hk
  | .letIn s decl body, h => by
    intro ts ht
    obtain ⟨hd, hc⟩ : decl.isNormal ∧ body.isNormal := by simpa [Command.isNormal] using h
    simp only [Command.written, List.map_eq_cons_iff, List.map_eq_append_iff, Token.face,
      Prod.mk.injEq] at ht
    obtain ⟨t, _, rfl, ⟨hl, -⟩, us, _, rfl, hu, v, vs, rfl, ⟨hi, -⟩, hv⟩ := ht
    exact .letIn hl (Decl.readsBack hd us hu) hi (Command.readsBack hc vs hv)
  | .sequence s (c :: d :: cs), h => by
    intro ts ht
    obtain ⟨hc, hd⟩ : c.isNormal ∧ Command.areNormal (d :: cs) := by
      simpa [Command.isNormal, Command.areNormal] using h
    rw [Command.written, Command.writtenEach, List.tail_cons] at ht
    simp only [List.map_eq_cons_iff, List.map_eq_append_iff, List.map_eq_nil_iff, Token.face,
      Prod.mk.injEq] at ht
    obtain ⟨t, _, rfl, ⟨hb, -⟩, _, _, rfl, ⟨us, vs, rfl, hu, hv⟩, w, _, rfl, ⟨he, -⟩, rfl⟩ := ht
    exact .block hb (.sequence (Command.readsBack hc us hu) (Command.readsBack_each hd vs hv)) he
  | .whileDo s cond body, h => by
    intro ts ht
    obtain ⟨he, hc⟩ : cond.isNormal ∧ body.isNormal := by simpa [Command.isNormal] using h
    simp only [Command.written, List.map_eq_cons_iff, List.map_eq_append_iff, Token.face,
      Prod.mk.injEq] at ht
    obtain ⟨t, _, rfl, ⟨hw, -⟩, us, _, rfl, hu, v, vs, rfl, ⟨hd, -⟩, hv⟩ := ht
    exact .whileDo hw ((Expr.readsBack he).1 us hu) hd (Command.readsBack hc vs hv)
  | .repeatUntil s body cond, h => by
    intro ts ht
    obtain ⟨hc, he⟩ : body.isNormal ∧ cond.isNormal := by simpa [Command.isNormal] using h
    simp only [Command.written, List.map_eq_cons_iff, List.map_eq_append_iff, Token.face,
      Prod.mk.injEq] at ht
    obtain ⟨t, _, rfl, ⟨hr, -⟩, us, _, rfl, hu, v, vs, rfl, ⟨hn, -⟩, hv⟩ := ht
    exact .repeatUntil hr (Command.readsBack hc us hu) hn ((Expr.readsBack he).1 vs hv)

theorem Command.readsBack_each : ∀ {cs : List Command}, Command.areNormal cs →
    moreCommands.ReadsBack (Command.writtenEach cs) cs
  | [], _ => by
    intro ts ht
    obtain rfl := List.map_eq_nil_iff.1 ht
    exact .noMore
  | c :: cs, h => by
    intro ts ht
    obtain ⟨hc, hcs⟩ : c.isNormal ∧ Command.areNormal cs := by
      simpa [Command.areNormal] using h
    simp only [Command.writtenEach, List.map_eq_cons_iff, List.map_eq_append_iff, Token.face,
      Prod.mk.injEq] at ht
    obtain ⟨t, _, rfl, ⟨hk, -⟩, us, vs, rfl, hu, hv⟩ := ht
    exact .more hk (Command.readsBack hc us hu) (Command.readsBack_each hcs vs hv)

end

/-! ## Phrases have normal trees -/

namespace Phrase

/-- Whether a tree that stands for `p` is normal. -/
def isNormal : (p : Phrase) → p.Tree → Bool
  | command, c | singleCommand, c => Command.isNormal c
  | moreCommands, cs => Command.areNormal cs
  | declaration, d => Decl.isNormal d
  | moreDeclarations, ds => List.all ds Decl.isNormalItem
  | singleDeclaration, d => Decl.isNormalItem d
  | expression, e | primary, e => Expr.isNormal e
  | parameter, q => Param.isNormal q

theorem Derives.isNormal {p : Phrase} {ts : List Token} {t : p.Tree} (h : Derives p ts t) :
    p.isNormal t := by
  induction h with
  | lone _ ih | block _ _ _ ih | operand _ ih | bracketed _ _ _ ih => exact ih
  | loneDeclaration _ ih => exact Decl.isNormal_of_isNormalItem ih
  | noMore | blank | noMoreDeclarations | var | integer | character | name | noParameter
  | varParameter => rfl
  | assign _ _ _ ih | call _ _ _ _ ih | const _ _ _ _ ih | apply _ _ _ _ ih | unary _ _ ih
  | value _ ih => exact ih
  | sequence _ _ ih ih' | declarationSequence _ _ ih ih' =>
    -- There are two items by the form of the rule.
    exact Bool.and_eq_true_iff.2 ⟨ih, ih'⟩
  | more _ _ _ ih ih' | moreDeclarations _ _ _ ih ih' | letIn _ _ _ _ ih ih'
  | whileDo _ _ _ _ ih ih' | repeatUntil _ _ _ _ ih ih' | binary _ _ _ ih ih'
  | ifNoElse _ _ _ _ _ ih ih' => exact Bool.and_eq_true_iff.2 ⟨ih, ih'⟩
  | ifElse _ _ _ _ _ _ ih ih' ih'' =>
    exact Bool.and_eq_true_iff.2 ⟨Bool.and_eq_true_iff.2 ⟨ih, ih'⟩, ih''⟩

end Phrase

namespace Program

/-- Reading what is written of a normal tree gives the tree back, and what is read without errors
has a normal tree. -/
theorem ofTokens_written :
    (∀ (c : Command) (ts : List Token) (e : Token), c.isNormal →
        ts.map Token.face = c.written → e.kind = .endOfText →
        (ofTokens (ts ++ [e])).errors = [] ∧
          (ofTokens (ts ++ [e])).node.command.shape = c.shape) ∧
      ∀ ts, EndsOnce ts → (ofTokens ts).errors = [] → (ofTokens ts).node.command.isNormal := by
  refine ⟨fun c ts e hc ht he => ?_, fun ts h he => ?_⟩
  · have hd := Command.readsBack hc ts ht
    have h : EndsOnce (ts ++ [e]) := ⟨ts, e, rfl, he, hd.kind_ne_endOfText⟩
    rw [ofTokens_errors_eq_nil]
    exact ofTokens_of_isProgram h ⟨ts, e, rfl, hd, he⟩
  · obtain ⟨us, e, rfl, hd, -⟩ := isProgram_of_faults_eq_nil h (ofTokens_errors_eq_nil.1 he)
    exact hd.isNormal

/-- The tree of `begin x := a * (b + c); nothing end`. -/
def product : Command :=
  let occurrence (spelling : String) : Occurrence := ⟨0, spelling, .empty 0⟩
  let name (spelling : String) : Expr := .name (.empty 0) (occurrence spelling)
  .sequence (.empty 0)
    [.assign (.empty 0) (occurrence "x")
      (.binary (.empty 0) (name "a") (occurrence "*")
        (.binary (.empty 0) (name "b") (occurrence "+") (name "c"))),
    .blank (.empty 0)]

/-- Its tokens, the end of text aside. -/
def productTokens : List Token :=
  [⟨.kwBegin, "begin", ⟨0, 5⟩⟩, ⟨.identifier, "x", ⟨6, 7⟩⟩, ⟨.becomes, ":=", ⟨8, 10⟩⟩,
    ⟨.identifier, "a", ⟨11, 12⟩⟩, ⟨.operator, "*", ⟨13, 14⟩⟩, ⟨.leftBracket, "(", ⟨15, 16⟩⟩,
    ⟨.identifier, "b", ⟨16, 17⟩⟩, ⟨.operator, "+", ⟨18, 19⟩⟩, ⟨.identifier, "c", ⟨20, 21⟩⟩,
    ⟨.rightBracket, ")", ⟨21, 22⟩⟩, ⟨.semicolon, ";", ⟨22, 23⟩⟩, ⟨.kwNothing, "nothing", ⟨24, 31⟩⟩,
    ⟨.kwEnd, "end", ⟨32, 35⟩⟩]

/-- The block and the brackets are written, and read back to the same product. -/
theorem ofTokens_written_product :
    product.isNormal ∧ productTokens.map Token.face = product.written ∧
      let r := ofTokens (productTokens ++ [⟨.endOfText, "", ⟨35, 35⟩⟩])
      r.errors = [] ∧ r.node.command.shape = product.shape ∧ r.node.command.isNormal := by
  have hn : product.isNormal := by decide
  have ht : productTokens.map Token.face = product.written := by decide
  let e : Token := ⟨.endOfText, "", ⟨35, 35⟩⟩
  have h : EndsOnce (productTokens ++ [e]) := ⟨_, _, rfl, rfl, by decide⟩
  obtain ⟨he, hs⟩ := ofTokens_written.1 product productTokens e hn ht rfl
  exact ⟨hn, ht, he, hs, ofTokens_written.2 _ h he⟩

end Program

end TriLang
