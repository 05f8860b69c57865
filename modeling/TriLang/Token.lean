import TriLang.Span

/-!
# Tokens

A token is a kind, the text that spells it and the place of that text.  Literals and names keep
their spelling as written; what a literal means is read off it later (`TriLang.Tree.Literal`).
-/

namespace TriLang

inductive TokenKind
  | identifier
  | intLiteral
  | charLiteral
  | operator
  | kwBegin
  | kwEnd
  | kwLet
  | kwIn
  | kwIf
  | kwThen
  | kwElse
  | kwNoElse
  | kwWhile
  | kwDo
  | kwRepeat
  | kwUntil
  | kwNothing
  | kwConst
  | kwVar
  /-- `is`, also written `~`. -/
  | kwIs
  | semicolon
  | colon
  | becomes
  | leftBracket
  | rightBracket
  | endOfText
  /-- Text that spells no token of the language. -/
  | error
  deriving DecidableEq

namespace TokenKind

/-- All kinds. -/
def all : List TokenKind :=
  [identifier, intLiteral, charLiteral, operator, kwBegin, kwEnd, kwLet, kwIn, kwIf, kwThen,
    kwElse, kwNoElse, kwWhile, kwDo, kwRepeat, kwUntil, kwNothing, kwConst, kwVar, kwIs,
    semicolon, colon, becomes, leftBracket, rightBracket, endOfText, error]

theorem mem_all (k : TokenKind) : k ∈ all := by cases k <;> decide

/-- The name of a kind in listings of tokens. -/
def label : TokenKind → String
  | identifier => "Identifier"
  | intLiteral => "IntLiteral"
  | charLiteral => "CharLiteral"
  | operator => "Operator"
  | kwBegin => "Begin"
  | kwEnd => "End"
  | kwLet => "Let"
  | kwIn => "In"
  | kwIf => "If"
  | kwThen => "Then"
  | kwElse => "Else"
  | kwNoElse => "NoElse"
  | kwWhile => "While"
  | kwDo => "Do"
  | kwRepeat => "Repeat"
  | kwUntil => "Until"
  | kwNothing => "Nothing"
  | kwConst => "Const"
  | kwVar => "Var"
  | kwIs => "Is"
  | semicolon => "Semicolon"
  | colon => "Colon"
  | becomes => "Becomes"
  | leftBracket => "LeftBracket"
  | rightBracket => "RightBracket"
  | endOfText => "EndOfText"
  | error => "Error"

/-- The words of the language that are not names. -/
def keywords : List (String × TokenKind) :=
  [("begin", kwBegin), ("end", kwEnd), ("let", kwLet), ("in", kwIn), ("if", kwIf),
    ("then", kwThen), ("else", kwElse), ("noelse", kwNoElse), ("while", kwWhile), ("do", kwDo),
    ("repeat", kwRepeat), ("until", kwUntil), ("nothing", kwNothing), ("const", kwConst),
    ("var", kwVar), ("is", kwIs)]

/-- The kind of the keyword spelled `spelling`. -/
def keyword? (spelling : String) : Option TokenKind := keywords.lookup spelling

/-- What a message calls a token of this kind. -/
def describe : TokenKind → String
  | identifier => "a name"
  | intLiteral => "an integer"
  | charLiteral => "a character"
  | operator => "an operator"
  | kwBegin => "'begin'"
  | kwEnd => "'end'"
  | kwLet => "'let'"
  | kwIn => "'in'"
  | kwIf => "'if'"
  | kwThen => "'then'"
  | kwElse => "'else'"
  | kwNoElse => "'noelse'"
  | kwWhile => "'while'"
  | kwDo => "'do'"
  | kwRepeat => "'repeat'"
  | kwUntil => "'until'"
  | kwNothing => "'nothing'"
  | kwConst => "'const'"
  | kwVar => "'var'"
  | kwIs => "'~'"
  | semicolon => "';'"
  | colon => "':'"
  | becomes => "':='"
  | leftBracket => "'('"
  | rightBracket => "')'"
  | endOfText => "end of text"
  | error => "an invalid token"

/-- Whether a single command can begin with this kind. -/
def startsCommand : TokenKind → Bool
  | identifier | kwBegin | kwLet | kwIf | kwWhile | kwRepeat | kwNothing => true
  | _ => false

/-- Whether a single declaration can begin with this kind. -/
def startsDeclaration : TokenKind → Bool
  | kwConst | identifier => true
  | _ => false

/-- Whether an expression can begin with this kind. -/
def startsExpression : TokenKind → Bool
  | identifier | intLiteral | charLiteral | operator | leftBracket => true
  | _ => false

/-- Whether a message about a token of this kind quotes its spelling. -/
def isQuoted : TokenKind → Bool
  | identifier | intLiteral | charLiteral | operator | error => true
  | _ => false

end TokenKind

structure Token where
  kind : TokenKind
  spelling : String
  span : Span
  deriving DecidableEq

namespace Token

/-- The kind and the quoted spelling, as in listings of tokens. -/
def toString (t : Token) : String := s!"{t.kind.label} \"{t.spelling}\""

/-- What a message calls this token. -/
def describe (t : Token) : String :=
  if t.kind.isQuoted then s!"{t.kind.describe} '{t.spelling}'" else t.kind.describe

end Token

end TriLang
