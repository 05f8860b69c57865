/-!
# The standard environment

The names that every program can use without declaring them, with the signatures by which their
uses are checked.  Operators are entries like the others, found by their spelling.
-/

namespace TriLang

inductive BaseType
  | boolean
  | char
  | integer
  /-- Any type, in tests of equality. -/
  | any
  deriving DecidableEq

/-- How a routine takes an argument. -/
inductive PassMode
  | value
  | var
  deriving DecidableEq

/-- What a predeclared name denotes. -/
inductive Meaning
  | type (type : BaseType)
  | constant (type : BaseType)
  | function (params : List (PassMode × BaseType)) (result : BaseType)
  | procedure (params : List (PassMode × BaseType))
  | binaryOperator (left right result : BaseType)
  | unaryOperator (operand result : BaseType)
  deriving DecidableEq

/-- A predeclared name. -/
structure Builtin where
  name : String
  meaning : Meaning
  deriving DecidableEq

namespace Builtin

/-- Operators from two integers to a third. -/
def integerOperator (name : String) : Builtin :=
  ⟨name, .binaryOperator .integer .integer .integer⟩

/-- Tests of order. -/
def orderTest (name : String) : Builtin := ⟨name, .binaryOperator .integer .integer .boolean⟩

/-- Tests of equality. -/
def equalityTest (name : String) : Builtin := ⟨name, .binaryOperator .any .any .boolean⟩

/-- All predeclared names. -/
def all : List Builtin :=
  [⟨"boolean", .type .boolean⟩,
    ⟨"char", .type .char⟩,
    ⟨"integer", .type .integer⟩,
    ⟨"false", .constant .boolean⟩,
    ⟨"true", .constant .boolean⟩,
    ⟨"maxint", .constant .integer⟩,
    ⟨"chr", .function [(.value, .integer)] .char⟩,
    ⟨"ord", .function [(.value, .char)] .integer⟩,
    ⟨"eof", .function [] .boolean⟩,
    ⟨"eol", .function [] .boolean⟩,
    ⟨"get", .procedure [(.var, .char)]⟩,
    ⟨"put", .procedure [(.value, .char)]⟩,
    ⟨"getint", .procedure [(.var, .integer)]⟩,
    ⟨"putint", .procedure [(.value, .integer)]⟩,
    ⟨"geteol", .procedure []⟩,
    ⟨"puteol", .procedure []⟩,
    integerOperator "+",
    integerOperator "-",
    integerOperator "*",
    integerOperator "/",
    orderTest "<",
    orderTest "<=",
    orderTest ">",
    orderTest ">=",
    equalityTest "=",
    equalityTest "\\=",
    ⟨"\\", .unaryOperator .boolean .boolean⟩]

/-- The predeclared name spelled `name`. -/
def find? (name : String) : Option Builtin := all.find? (·.name == name)

theorem nodup_all_name : (all.map Builtin.name).Nodup := by decide

end Builtin

end TriLang
