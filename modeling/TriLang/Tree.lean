import TriLang.Span

/-!
# Trees

A program is a command; commands hold declarations, expressions and parameters.  Each node carries
the span it was read from.  Occurrences of names and operators, and declarations, also carry a node
id, by which later tables refer to them.  Every family has an `error` node, which stands where the
source text holds none of its forms.
-/

namespace TriLang

/-- A number that tells nodes apart. -/
abbrev NodeId := UInt32

namespace NodeId

/-- The id of no node. -/
def dummy : NodeId := 0xFFFFFFFF

/-- The first `n` ids in the order in which they are handed out. -/
def first (n : Nat) : List NodeId := (List.range n).map Nat.toUInt32

end NodeId

/-- A name or an operator where it is written. -/
structure Occurrence where
  id : NodeId
  spelling : String
  span : Span
  deriving DecidableEq

mutual

inductive Expr
  | binary (span : Span) (left : Expr) (op : Occurrence) (right : Expr)
  | character (span : Span) (spelling : String)
  | integer (span : Span) (spelling : String)
  /-- A name on its own. -/
  | name (span : Span) (name : Occurrence)
  /-- A name applied to a parameter. -/
  | apply (span : Span) (name : Occurrence) (arg : Param)
  | unary (span : Span) (op : Occurrence) (operand : Expr)
  | error (span : Span)

/-- What a call passes. -/
inductive Param
  /-- Nothing between the brackets. -/
  | blank (span : Span)
  | value (span : Span) (expr : Expr)
  /-- A variable for the callee to change. -/
  | var (span : Span) (name : Occurrence)
  | error (span : Span)

end

inductive Decl
  | const (id : NodeId) (span : Span) (name : Occurrence) (value : Expr)
  | var (id : NodeId) (span : Span) (type name : Occurrence)
  | sequence (id : NodeId) (span : Span) (items : List Decl)
  | error (id : NodeId) (span : Span)

inductive Command
  | assign (span : Span) (target : Occurrence) (value : Expr)
  | blank (span : Span)
  | call (span : Span) (callee : Occurrence) (arg : Param)
  | ifElse (span : Span) (cond : Expr) (thenBranch elseBranch : Command)
  | ifNoElse (span : Span) (cond : Expr) (thenBranch : Command)
  | letIn (span : Span) (decl : Decl) (body : Command)
  | sequence (span : Span) (items : List Command)
  | whileDo (span : Span) (cond : Expr) (body : Command)
  | repeatUntil (span : Span) (body : Command) (cond : Expr)
  | error (span : Span)

structure Program where
  command : Command
  span : Span

def Expr.span : Expr → Span
  | binary s .. | character s .. | integer s .. | name s .. | apply s .. | unary s .. | error s => s

def Param.span : Param → Span
  | blank s | value s .. | var s .. | error s => s

namespace Decl

def id : Decl → NodeId
  | const i .. | var i .. | sequence i .. | error i .. => i

def span : Decl → Span
  | const _ s .. | var _ s .. | sequence _ s .. | error _ s => s

/-- The name that a declaration introduces. -/
def name? : Decl → Option Occurrence
  | const _ _ name _ | var _ _ _ name => some name
  | sequence .. | error .. => none

end Decl

def Command.span : Command → Span
  | assign s .. | blank s | call s .. | ifElse s .. | ifNoElse s .. | letIn s .. | sequence s ..
  | whileDo s .. | repeatUntil s .. | error s => s

end TriLang
