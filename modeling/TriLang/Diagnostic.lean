import TriLang.Cursor
import TriLang.Json
import TriLang.Naming
import TriLang.Token.Scan

/-!
# Diagnostics

A diagnostic is what a stage says about a program: a message, labels on the places it speaks of,
notes and help.  Each kind of error has its code, and every error becomes a diagnostic with one
primary label at its place.
-/

namespace TriLang

inductive Severity
  | error
  | warning
  | note
  deriving DecidableEq

def Severity.name : Severity → String
  | error => "error"
  | warning => "warning"
  | note => "note"

/-- Whether a label marks the place itself or one related to it. -/
inductive LabelRole
  | primary
  | secondary
  deriving DecidableEq

def LabelRole.name : LabelRole → String
  | primary => "primary"
  | secondary => "secondary"

structure Label where
  span : Span
  role : LabelRole
  message : Option String
  deriving DecidableEq

/-- A step of the compiler. -/
inductive Stage
  | tokenizer
  | parser
  | identifier
  | checker
  | exporter
  deriving DecidableEq

namespace Stage

/-- The stages in the order in which they run. -/
def all : List Stage := [tokenizer, parser, identifier, checker, exporter]

theorem mem_all (s : Stage) : s ∈ all := by cases s <;> decide

def name : Stage → String
  | tokenizer => "tokenizer"
  | parser => "parser"
  | identifier => "identifier"
  | checker => "checker"
  | exporter => "export"

end Stage

structure Diagnostic where
  severity : Severity
  code : Option String
  message : String
  labels : List Label
  notes : List String
  help : Option String
  deriving DecidableEq

namespace Diagnostic

def isError (d : Diagnostic) : Bool := d.severity == .error

/-- The place of a diagnostic: that of its first primary label, or else of its first label. -/
def place? (d : Diagnostic) : Option Span :=
  ((d.labels.find? (·.role == .primary)).or d.labels.head?).map Label.span

/-- An error with one label, at its place. -/
def errorAt (span : Span) (code message label : String) (help : Option String) : Diagnostic :=
  ⟨.error, some code, message, [⟨span, .primary, some label⟩], [], help⟩

end Diagnostic

/-! ## Errors as diagnostics -/

namespace LexicalFault

def code : LexicalFault → String
  | unexpectedCharacter => "E0001"
  | upperCaseName => "E0002"
  | malformedCharacter => "E0003"

def label : LexicalFault → String
  | unexpectedCharacter => "not part of the language"
  | upperCaseName => "upper-case letters are not allowed in names"
  | malformedCharacter => "literal is not closed"

/-- The diagnostic for text spelled `spelling`, with the given advice. -/
def diagnostic (fault : LexicalFault) (spelling : String) (span : Span) (hint : Option String) :
    Diagnostic :=
  .errorAt span fault.code (fault.message spelling) fault.label hint

end LexicalFault

def LexicalError.diagnostic (e : LexicalError) : Diagnostic :=
  e.fault.diagnostic e.spelling e.span e.hint

namespace SyntaxFault

def code : SyntaxFault → String
  | missingToken => "E0100"
  | noViableProduction => "E0101"

/-- The diagnostic with the given message and advice. -/
def diagnostic (fault : SyntaxFault) (message : String) (span : Span) (hint : Option String) :
    Diagnostic :=
  .errorAt span fault.code message "here" hint

end SyntaxFault

def SyntaxError.diagnostic (e : SyntaxError) : Diagnostic :=
  e.fault.diagnostic e.message e.span e.hint

def NamingError.diagnostic (e : NamingError) : Diagnostic :=
  match e.fault with
  | .undeclared _ =>
    .errorAt e.span "E0200" e.message "not found in any enclosing scope"
      (some "declare it in an enclosing 'let'")
  | .alreadyDeclared _ previous =>
    let d := Diagnostic.errorAt e.span "E0201" e.message "declared again here" none
    match previous with
    | some span =>
      { d with labels := d.labels ++ [⟨span, .secondary, some "first declared here"⟩] }
    | none => { d with notes := ["the standard environment already declares it"] }
  | .malformed _ =>
    { Diagnostic.errorAt e.span "E0202" e.message "not checked" none with
      notes := ["fix the syntax error here first"] }

/-! ## As JSON -/

def Span.json (s : Span) : Json := .obj [("start", .nat s.start), ("end", .nat s.stop)]

def Label.json (l : Label) : Json :=
  .obj [("span", l.span.json), ("style", .str l.role.name), ("message", .ofOption l.message)]

/-- All parts of a diagnostic, absent ones as null. -/
def Diagnostic.json (d : Diagnostic) : Json :=
  .obj [("severity", .str d.severity.name),
    ("code", .ofOption d.code),
    ("message", .str d.message),
    ("labels", .arr (d.labels.map Label.json)),
    ("notes", .arr (d.notes.map .str)),
    ("help", match d.help with
      | some text => .obj [("message", .str text)]
      | none => .null)]

end TriLang
