/-!
# Error codes

The codes under which errors are reported, each with a title and the category of its range.
-/

namespace TriLang

/-- What part of the language an error breaks. -/
inductive Category
  | lexical
  | grammatical
  | naming
  deriving DecidableEq

def Category.name : Category → String
  | lexical => "Lexical"
  | grammatical => "Syntax"
  | naming => "Naming"

structure ErrorCode where
  code : String
  title : String
  category : Category
  deriving DecidableEq

namespace ErrorCode

/-- All codes in order. -/
def all : List ErrorCode :=
  [⟨"E0001", "unexpected character", .lexical⟩,
    ⟨"E0002", "name contains upper-case letters", .lexical⟩,
    ⟨"E0003", "malformed character literal", .lexical⟩,
    ⟨"E0100", "expected token not found", .grammatical⟩,
    ⟨"E0101", "no viable alternative", .grammatical⟩,
    ⟨"E0200", "undeclared name", .naming⟩,
    ⟨"E0201", "name already declared in this scope", .naming⟩,
    ⟨"E0202", "malformed node", .naming⟩]

def find? (code : String) : Option ErrorCode := all.find? (·.code == code)

end ErrorCode

end TriLang
