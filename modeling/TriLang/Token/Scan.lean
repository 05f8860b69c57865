import TriLang.Token

/-!
# Tokens of a source text

A source text is cut into tokens, each as long as its class allows.  Blanks and comments separate
tokens and leave no trace.  Text that begins no token is kept as a token of kind `error` and
reported, one error for each such token, so that the tokens and the skipped text together are the
whole source.  The last token is always the end of text.
-/

namespace TriLang

/-- Why a piece of text is no token of the language. -/
inductive LexicalFault
  | unexpectedCharacter
  | upperCaseName
  | malformedCharacter
  deriving DecidableEq

structure LexicalError where
  fault : LexicalFault
  spelling : String
  span : Span
  deriving DecidableEq

namespace LexicalFault

/-- The message for text spelled `spelling`. -/
def message (spelling : String) : LexicalFault → String
  | unexpectedCharacter => s!"unexpected character '{spelling}'"
  | upperCaseName => s!"invalid name '{spelling}'"
  | malformedCharacter => s!"malformed character literal {spelling}"

/-- Advice on text spelled `spelling`. -/
def hint (spelling : String) : LexicalFault → Option String
  | unexpectedCharacter => none
  | upperCaseName =>
    some s!"names are lower-case: try '{String.ofList (spelling.toList.map Char.toLower)}'"
  | malformedCharacter => some "close the literal with a matching quote"

end LexicalFault

namespace LexicalError

def message (e : LexicalError) : String := e.fault.message e.spelling

def hint (e : LexicalError) : Option String := e.fault.hint e.spelling

end LexicalError

/-- A maximal piece of text between separators: a token of some kind, or a fault. -/
structure Lexeme where
  verdict : Except LexicalFault TokenKind
  spelling : String
  span : Span

namespace Lexeme

def token (x : Lexeme) : Token :=
  match x.verdict with
  | .ok kind => ⟨kind, x.spelling, x.span⟩
  | .error _ => ⟨.error, x.spelling, x.span⟩

def error? (x : Lexeme) : Option LexicalError :=
  match x.verdict with
  | .ok _ => none
  | .error fault => some ⟨fault, x.spelling, x.span⟩

end Lexeme

/-! ## Classes of characters -/

namespace Scan

/-- Characters that only separate tokens. -/
def isBlank (c : Char) : Bool := c == ' ' || c == '\t' || c == '\r' || c == '\n'

/-- Characters that continue a word. -/
def isWordTail (c : Char) : Bool := c.isLower || c.isDigit

/-- Characters that a literal between curly quotes may hold. -/
def isGraphic (c : Char) : Bool :=
  c.isLower || c.isDigit || c == '.' || c == ',' || c == '?' || c == ' ' || c == '\t' || c == '\n'

/-- Characters that spell an operator, alone or before `=`. -/
def isOperator (c : Char) : Bool :=
  c == '+' || c == '-' || c == '*' || c == '/' || c == '<' || c == '>' || c == '=' || c == '\\'

/-- The kind of a token that is a single character and begins no longer one. -/
def punctuation? : Char → Option TokenKind
  | ';' => some .semicolon
  | '~' => some .kwIs
  | '(' => some .leftBracket
  | ')' => some .rightBracket
  | _ => none

/-! ## The first token of a text -/

/-- What a word is: a keyword, a name, or no name at all if a capital occurs in it. -/
def word (spelling : List Char) : Except LexicalFault TokenKind :=
  match TokenKind.keyword? (String.ofList spelling) with
  | some kind => .ok kind
  | none => if spelling.any Char.isUpper then .error .upperCaseName else .ok .identifier

/-- What follows a straight quote: any one character, and the closing quote if it is there. -/
def quoted : List Char → Except LexicalFault TokenKind × Nat
  | [] => (.error .malformedCharacter, 0)
  | _ :: '\x27' :: _ => (.ok .charLiteral, 2)
  | _ :: _ => (.error .malformedCharacter, 1)

/-- What follows a curly quote: graphic characters, and the closing quote if it comes next. -/
def curly (rest : List Char) : Except LexicalFault TokenKind × Nat :=
  let n := (rest.takeWhile isGraphic).length
  if rest[n]? = some '’' then (.ok .charLiteral, n + 1) else (.error .malformedCharacter, n)

/-- How the text `c :: rest` begins: what it is, and how much of `rest` belongs to it. -/
def first (c : Char) (rest : List Char) : Except LexicalFault TokenKind × Nat :=
  if c.isAlpha then
    let tail := rest.takeWhile isWordTail
    (word (c :: tail), tail.length)
  else if c = '_' then (.ok .identifier, (rest.takeWhile Char.isLower).length)
  else if c.isDigit then (.ok .intLiteral, (rest.takeWhile Char.isDigit).length)
  else if c = '\x27' then quoted rest
  else if c = '’' then curly rest
  else if isOperator c then (.ok .operator, if rest.head? = some '=' then 1 else 0)
  else if c = ':' then
    if rest.head? = some '=' then (.ok .becomes, 1) else (.ok .colon, 0)
  else
    match punctuation? c with
    | some kind => (.ok kind, 0)
    | none => (.error .unexpectedCharacter, 0)

/-! ## All tokens -/

/-- The lexemes of a text that starts at `offset`. -/
def lexemes (offset : Nat) : List Char → List Lexeme
  | [] => []
  | c :: rest =>
    if isBlank c then lexemes (offset + c.utf8Size) rest
    else if c = '!' then
      let n := (rest.takeWhile (· != '\n')).length
      lexemes (offset + utf8Length (c :: rest.take n)) (rest.drop n)
    else
      let found := first c rest
      let spelling := c :: rest.take found.2
      let stop := offset + utf8Length spelling
      ⟨found.1, String.ofList spelling, ⟨offset, stop⟩⟩ :: lexemes stop (rest.drop found.2)
  termination_by cs => cs.length
  decreasing_by all_goals (simp; try omega)

end Scan

/-- The tokens of a source text, and the errors of those that are no tokens of the language. -/
structure Tokens where
  toList : List Token
  errors : List LexicalError

namespace Tokens

def isOk (ts : Tokens) : Bool := ts.errors.isEmpty

def ofSource (source : String) : Tokens :=
  let found := Scan.lexemes 0 source.toList
  ⟨found.map Lexeme.token ++ [⟨.endOfText, "", .empty source.utf8ByteSize⟩],
    found.filterMap Lexeme.error?⟩

end Tokens

end TriLang
