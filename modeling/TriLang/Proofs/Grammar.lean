import TriLang.Token
import TriLang.Proofs.Shape

/-!
# The grammar

`p.Derives ts t` says that the tokens `ts` are a phrase `p` of the language and that `t` is its
tree, with one rule for each production.  A rule looks at the kinds of its tokens; their spellings
go into the tree.  Ids and spans are left open, so a derivation fixes the shape of its tree and no
more.  Blocks and brackets leave no node, a sequence of one is its item, an expression grows to
the right by one operator and one primary at a time, and a prefix operator takes one primary.
-/

namespace TriLang

/-- The categories of the grammar. -/
inductive Phrase
  | command
  /-- The commands of a sequence behind its first. -/
  | moreCommands
  | singleCommand
  | declaration
  /-- The declarations of a sequence behind its first. -/
  | moreDeclarations
  | singleDeclaration
  | expression
  | primary
  | parameter

namespace Phrase

/-- What stands for a phrase in a tree. -/
abbrev Tree : Phrase → Type
  | command | singleCommand => Command
  | moreCommands => List Command
  | declaration | singleDeclaration => Decl
  | moreDeclarations => List Decl
  | expression | primary => Expr
  | parameter => Param

inductive Derives : (p : Phrase) → List Token → p.Tree → Prop
  | lone {ts c} (first : Derives singleCommand ts c) : Derives command ts c
  | sequence {ts us c d ds s} (first : Derives singleCommand ts c)
      (more : Derives moreCommands us (d :: ds)) :
      Derives command (ts ++ us) (.sequence s (c :: d :: ds))
  | noMore : Derives moreCommands [] []
  | more {t ts us c cs} (semicolon : t.kind = .semicolon) (first : Derives singleCommand ts c)
      (rest : Derives moreCommands us cs) : Derives moreCommands (t :: (ts ++ us)) (c :: cs)
  | assign {t u ts e s i m} (name : t.kind = .identifier) (becomes : u.kind = .becomes)
      (value : Derives expression ts e) :
      Derives singleCommand (t :: u :: ts) (.assign s ⟨i, t.spelling, m⟩ e)
  | call {t u v ts q s i m} (name : t.kind = .identifier) (left : u.kind = .leftBracket)
      (arg : Derives parameter ts q) (right : v.kind = .rightBracket) :
      Derives singleCommand (t :: u :: (ts ++ [v])) (.call s ⟨i, t.spelling, m⟩ q)
  | block {t u ts c} (left : t.kind = .kwBegin) (inner : Derives command ts c)
      (right : u.kind = .kwEnd) : Derives singleCommand (t :: (ts ++ [u])) c
  | letIn {t u ts us d c s} (kwLet : t.kind = .kwLet) (decl : Derives declaration ts d)
      (kwIn : u.kind = .kwIn) (body : Derives singleCommand us c) :
      Derives singleCommand (t :: (ts ++ u :: us)) (.letIn s d c)
  | ifElse {t u v ts us vs e c d s} (kwIf : t.kind = .kwIf) (cond : Derives expression ts e)
      (kwThen : u.kind = .kwThen) (thenBranch : Derives singleCommand us c)
      (kwElse : v.kind = .kwElse) (elseBranch : Derives singleCommand vs d) :
      Derives singleCommand (t :: (ts ++ u :: (us ++ v :: vs))) (.ifElse s e c d)
  | ifNoElse {t u v ts us e c s} (kwIf : t.kind = .kwIf) (cond : Derives expression ts e)
      (kwThen : u.kind = .kwThen) (thenBranch : Derives singleCommand us c)
      (kwNoElse : v.kind = .kwNoElse) :
      Derives singleCommand (t :: (ts ++ u :: (us ++ [v]))) (.ifNoElse s e c)
  | whileDo {t u ts us e c s} (kwWhile : t.kind = .kwWhile) (cond : Derives expression ts e)
      (kwDo : u.kind = .kwDo) (body : Derives singleCommand us c) :
      Derives singleCommand (t :: (ts ++ u :: us)) (.whileDo s e c)
  | repeatUntil {t u ts us c e s} (kwRepeat : t.kind = .kwRepeat)
      (body : Derives singleCommand ts c) (kwUntil : u.kind = .kwUntil)
      (cond : Derives expression us e) :
      Derives singleCommand (t :: (ts ++ u :: us)) (.repeatUntil s c e)
  | blank {t s} (kwNothing : t.kind = .kwNothing) : Derives singleCommand [t] (.blank s)
  | loneDeclaration {ts d} (first : Derives singleDeclaration ts d) : Derives declaration ts d
  | declarationSequence {ts us c d ds i s} (first : Derives singleDeclaration ts c)
      (more : Derives moreDeclarations us (d :: ds)) :
      Derives declaration (ts ++ us) (.sequence i s (c :: d :: ds))
  | noMoreDeclarations : Derives moreDeclarations [] []
  | moreDeclarations {t ts us d ds} (semicolon : t.kind = .semicolon)
      (first : Derives singleDeclaration ts d) (rest : Derives moreDeclarations us ds) :
      Derives moreDeclarations (t :: (ts ++ us)) (d :: ds)
  | const {t u v ts e i s j m} (kwConst : t.kind = .kwConst) (name : u.kind = .identifier)
      (kwIs : v.kind = .kwIs) (value : Derives expression ts e) :
      Derives singleDeclaration (t :: u :: v :: ts) (.const i s ⟨j, u.spelling, m⟩ e)
  | var {t u i s j m k n} (type : t.kind = .identifier) (name : u.kind = .identifier) :
      Derives singleDeclaration [t, u] (.var i s ⟨j, t.spelling, m⟩ ⟨k, u.spelling, n⟩)
  | operand {ts e} (only : Derives primary ts e) : Derives expression ts e
  | binary {t ts us l r s i m} (left : Derives expression ts l) (op : t.kind = .operator)
      (right : Derives primary us r) :
      Derives expression (ts ++ t :: us) (.binary s l ⟨i, t.spelling, m⟩ r)
  | integer {t s} (literal : t.kind = .intLiteral) : Derives primary [t] (.integer s t.spelling)
  | character {t s} (literal : t.kind = .charLiteral) :
      Derives primary [t] (.character s t.spelling)
  | name {t s i m} (name : t.kind = .identifier) :
      Derives primary [t] (.name s ⟨i, t.spelling, m⟩)
  | apply {t u v ts q s i m} (name : t.kind = .identifier) (left : u.kind = .leftBracket)
      (arg : Derives parameter ts q) (right : v.kind = .rightBracket) :
      Derives primary (t :: u :: (ts ++ [v])) (.apply s ⟨i, t.spelling, m⟩ q)
  | unary {t ts e s i m} (op : t.kind = .operator) (operand : Derives primary ts e) :
      Derives primary (t :: ts) (.unary s ⟨i, t.spelling, m⟩ e)
  | bracketed {t u ts e} (left : t.kind = .leftBracket) (inner : Derives expression ts e)
      (right : u.kind = .rightBracket) : Derives primary (t :: (ts ++ [u])) e
  | noParameter {s} : Derives parameter [] (.blank s)
  | value {ts e s} (expr : Derives expression ts e) : Derives parameter ts (.value s e)
  | varParameter {t u s i m} (kwVar : t.kind = .kwVar) (name : u.kind = .identifier) :
      Derives parameter [t, u] (.var s ⟨i, u.spelling, m⟩)

/-- No end of text stands inside a phrase. -/
theorem Derives.kind_ne_endOfText {p : Phrase} {ts : List Token} {t : p.Tree} (h : Derives p ts t) :
    ∀ x ∈ ts, x.kind ≠ .endOfText := by
  induction h <;> simp_all [or_imp]

/-- Whether tokens are a phrase is a matter of their kinds. -/
theorem Derives.respell {p : Phrase} {ts : List Token} {t : p.Tree} (h : Derives p ts t)
    (us : List Token) (hu : us.map Token.kind = ts.map Token.kind) : ∃ u, Derives p us u := by
  -- Each case takes `us` apart in the way its rule puts the tokens together.
  induction h generalizing us with try simp only [List.map_append, List.map_cons, List.map_nil,
    List.map_eq_append_iff, List.map_eq_cons_iff, List.map_eq_nil_iff] at hu
  | lone _ ih =>
    obtain ⟨c, hc⟩ := ih us hu
    exact ⟨c, .lone hc⟩
  | sequence _ more ih ih' =>
    obtain ⟨us, vs, rfl, hu, hv⟩ := hu
    obtain ⟨c, hc⟩ := ih us hu
    obtain ⟨_ | ⟨d, ds⟩, hd⟩ := ih' vs hv
    · cases hd
      cases more
      simp at hv
    · exact ⟨.sequence (.empty 0) (c :: d :: ds), .sequence hc hd⟩
  | noMore =>
    subst hu
    exact ⟨_, .noMore⟩
  | more ht _ _ ih ih' =>
    obtain ⟨t, _, rfl, hk, us, vs, rfl, hu, hv⟩ := hu
    obtain ⟨c, hc⟩ := ih us hu
    obtain ⟨cs, hcs⟩ := ih' vs hv
    exact ⟨_, .more (hk.trans ht) hc hcs⟩
  | assign ht hv _ ih =>
    obtain ⟨t, _, rfl, hk, v, us, rfl, hl, hu⟩ := hu
    obtain ⟨e, he⟩ := ih us hu
    exact ⟨_, .assign (s := .empty 0) (i := 0) (m := .empty 0) (hk.trans ht) (hl.trans hv) he⟩
  | call ht hv _ hw ih =>
    obtain ⟨t, _, rfl, hk, v, _, rfl, hl, us, _, rfl, hu, w, _, rfl, hm, rfl⟩ := hu
    obtain ⟨q, hq⟩ := ih us hu
    exact ⟨_, .call (s := .empty 0) (i := 0) (m := .empty 0) (hk.trans ht) (hl.trans hv) hq
      (hm.trans hw)⟩
  | block ht _ hv ih =>
    obtain ⟨t, _, rfl, hk, us, _, rfl, hu, v, _, rfl, hl, rfl⟩ := hu
    obtain ⟨c, hc⟩ := ih us hu
    exact ⟨_, .block (hk.trans ht) hc (hl.trans hv)⟩
  | letIn ht _ hv _ ih ih' =>
    obtain ⟨t, _, rfl, hk, us, _, rfl, hu, v, vs, rfl, hl, hv'⟩ := hu
    obtain ⟨d, hd⟩ := ih us hu
    obtain ⟨c, hc⟩ := ih' vs hv'
    exact ⟨_, .letIn (s := .empty 0) (hk.trans ht) hd (hl.trans hv) hc⟩
  | ifElse ht _ hv _ hw _ ih ih' ih'' =>
    obtain ⟨t, _, rfl, hk, us, _, rfl, hu, v, _, rfl, hl, vs, _, rfl, hv', w, ws, rfl, hm, hw'⟩ :=
      hu
    obtain ⟨e, he⟩ := ih us hu
    obtain ⟨c, hc⟩ := ih' vs hv'
    obtain ⟨d, hd⟩ := ih'' ws hw'
    exact ⟨_, .ifElse (s := .empty 0) (hk.trans ht) he (hl.trans hv) hc (hm.trans hw) hd⟩
  | ifNoElse ht _ hv _ hw ih ih' =>
    obtain ⟨t, _, rfl, hk, us, _, rfl, hu, v, _, rfl, hl, vs, _, rfl, hv', w, _, rfl, hm, rfl⟩ := hu
    obtain ⟨e, he⟩ := ih us hu
    obtain ⟨c, hc⟩ := ih' vs hv'
    exact ⟨_, .ifNoElse (s := .empty 0) (hk.trans ht) he (hl.trans hv) hc (hm.trans hw)⟩
  | whileDo ht _ hv _ ih ih' =>
    obtain ⟨t, _, rfl, hk, us, _, rfl, hu, v, vs, rfl, hl, hv'⟩ := hu
    obtain ⟨e, he⟩ := ih us hu
    obtain ⟨c, hc⟩ := ih' vs hv'
    exact ⟨_, .whileDo (s := .empty 0) (hk.trans ht) he (hl.trans hv) hc⟩
  | repeatUntil ht _ hv _ ih ih' =>
    obtain ⟨t, _, rfl, hk, us, _, rfl, hu, v, vs, rfl, hl, hv'⟩ := hu
    obtain ⟨c, hc⟩ := ih us hu
    obtain ⟨e, he⟩ := ih' vs hv'
    exact ⟨_, .repeatUntil (s := .empty 0) (hk.trans ht) hc (hl.trans hv) he⟩
  | blank ht =>
    obtain ⟨t, _, rfl, hk, rfl⟩ := hu
    exact ⟨_, .blank (s := .empty 0) (hk.trans ht)⟩
  | loneDeclaration _ ih =>
    obtain ⟨d, hd⟩ := ih us hu
    exact ⟨d, .loneDeclaration hd⟩
  | declarationSequence _ more ih ih' =>
    obtain ⟨us, vs, rfl, hu, hv⟩ := hu
    obtain ⟨c, hc⟩ := ih us hu
    obtain ⟨_ | ⟨d, ds⟩, hd⟩ := ih' vs hv
    · cases hd
      cases more
      simp at hv
    · exact ⟨.sequence 0 (.empty 0) (c :: d :: ds), .declarationSequence hc hd⟩
  | noMoreDeclarations =>
    subst hu
    exact ⟨_, .noMoreDeclarations⟩
  | moreDeclarations ht _ _ ih ih' =>
    obtain ⟨t, _, rfl, hk, us, vs, rfl, hu, hv⟩ := hu
    obtain ⟨d, hd⟩ := ih us hu
    obtain ⟨ds, hds⟩ := ih' vs hv
    exact ⟨_, .moreDeclarations (hk.trans ht) hd hds⟩
  | const ht hv hw _ ih =>
    obtain ⟨t, _, rfl, hk, v, _, rfl, hl, w, us, rfl, hm, hu⟩ := hu
    obtain ⟨e, he⟩ := ih us hu
    exact ⟨_, .const (i := 0) (s := .empty 0) (j := 0) (m := .empty 0) (hk.trans ht) (hl.trans hv)
      (hm.trans hw) he⟩
  | var ht hv =>
    obtain ⟨t, _, rfl, hk, v, _, rfl, hl, rfl⟩ := hu
    exact ⟨.var 0 (.empty 0) ⟨0, _, .empty 0⟩ ⟨0, _, .empty 0⟩, .var (hk.trans ht) (hl.trans hv)⟩
  | operand _ ih =>
    obtain ⟨e, he⟩ := ih us hu
    exact ⟨e, .operand he⟩
  | binary _ ht _ ih ih' =>
    obtain ⟨us, _, rfl, hu, t, vs, rfl, hk, hv⟩ := hu
    obtain ⟨l, hl⟩ := ih us hu
    obtain ⟨r, hr⟩ := ih' vs hv
    exact ⟨_, .binary (s := .empty 0) (i := 0) (m := .empty 0) hl (hk.trans ht) hr⟩
  | integer ht =>
    obtain ⟨t, _, rfl, hk, rfl⟩ := hu
    exact ⟨_, .integer (s := .empty 0) (hk.trans ht)⟩
  | character ht =>
    obtain ⟨t, _, rfl, hk, rfl⟩ := hu
    exact ⟨_, .character (s := .empty 0) (hk.trans ht)⟩
  | name ht =>
    obtain ⟨t, _, rfl, hk, rfl⟩ := hu
    exact ⟨_, .name (s := .empty 0) (i := 0) (m := .empty 0) (hk.trans ht)⟩
  | apply ht hv _ hw ih =>
    obtain ⟨t, _, rfl, hk, v, _, rfl, hl, us, _, rfl, hu, w, _, rfl, hm, rfl⟩ := hu
    obtain ⟨q, hq⟩ := ih us hu
    exact ⟨_, .apply (s := .empty 0) (i := 0) (m := .empty 0) (hk.trans ht) (hl.trans hv) hq
      (hm.trans hw)⟩
  | unary ht _ ih =>
    obtain ⟨t, us, rfl, hk, hu⟩ := hu
    obtain ⟨e, he⟩ := ih us hu
    exact ⟨_, .unary (s := .empty 0) (i := 0) (m := .empty 0) (hk.trans ht) he⟩
  | bracketed ht _ hv ih =>
    obtain ⟨t, _, rfl, hk, us, _, rfl, hu, v, _, rfl, hl, rfl⟩ := hu
    obtain ⟨e, he⟩ := ih us hu
    exact ⟨_, .bracketed (hk.trans ht) he (hl.trans hv)⟩
  | noParameter =>
    subst hu
    exact ⟨_, .noParameter (s := .empty 0)⟩
  | value _ ih =>
    obtain ⟨e, he⟩ := ih us hu
    exact ⟨_, .value (s := .empty 0) he⟩
  | varParameter ht hv =>
    obtain ⟨t, _, rfl, hk, v, _, rfl, hl, rfl⟩ := hu
    exact ⟨_, .varParameter (s := .empty 0) (i := 0) (m := .empty 0) (hk.trans ht) (hl.trans hv)⟩

end Phrase

open Phrase

/-- The tokens `ts` are a program with the tree `c`: a single command and the end of text. -/
def IsProgram (ts : List Token) (c : Command) : Prop :=
  ∃ us e, ts = us ++ [e] ∧ Derives singleCommand us c ∧ e.kind = .endOfText

/-- Tokens of the kinds `ks` are a program. -/
def Sentence (ks : List TokenKind) : Prop := ∃ ts c, ts.map Token.kind = ks ∧ IsProgram ts c

/-- Some tokens behind `ts` complete a program. -/
def ViablePrefix (ts : List Token) : Prop := ∃ ks, Sentence (ts.map Token.kind ++ ks)

/-- The only end of text among `ts` is the last of them. -/
def EndsOnce (ts : List Token) : Prop :=
  ∃ us e, ts = us ++ [e] ∧ e.kind = .endOfText ∧ ∀ t ∈ us, t.kind ≠ .endOfText

end TriLang
