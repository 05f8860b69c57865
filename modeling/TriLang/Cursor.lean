import TriLang.Token
import TriLang.Tree

/-!
# Cursors over tokens

A cursor stands in a list of tokens that closes with an end of text.  It moves over one token at a
time, never passes the closing one, and hands out node ids.  What is read at a cursor is `Read`: a
node, the cursor behind it and the faults met on the way.  A cursor never moves back, so the number
of tokens ahead bounds every reading.
-/

namespace TriLang

/-! ## Syntax errors -/

/-- What may stand at a place of a program. -/
inductive Expectation
  | token (kind : TokenKind)
  | command
  /-- What follows a name that begins a command. -/
  | assignmentOrCall
  /-- What ends the first branch of an `if`. -/
  | elseBranch
  | declaration
  | expression
  | parameter
  deriving DecidableEq

def Expectation.describe : Expectation → String
  | token kind => kind.describe
  | command => "a command"
  | assignmentOrCall => "':=' or '('"
  | elseBranch => "'else' or 'noelse'"
  | declaration => "a declaration"
  | expression => "an expression"
  | parameter => "a parameter"

/-- How a syntax error arises: one token is wanted, or the start of one of several forms. -/
inductive SyntaxFault
  | missingToken
  | noViableProduction
  deriving DecidableEq

/-- A token that does not meet what may stand in its place. -/
structure SyntaxError where
  expected : Expectation
  found : Token
  deriving DecidableEq

namespace SyntaxError

def fault (e : SyntaxError) : SyntaxFault :=
  match e.expected with
  | .token _ => .missingToken
  | _ => .noViableProduction

def span (e : SyntaxError) : Span := e.found.span

def message (e : SyntaxError) : String :=
  s!"expected {e.expected.describe}, found {e.found.describe}"

/-- Advice for the commonest mistakes. -/
def hint (e : SyntaxError) : Option String :=
  match e.expected, e.found.kind with
  | .token .becomes, .operator =>
    if e.found.spelling = "=" then some "assignment is written ':='" else none
  | .token .kwIs, .operator =>
    if e.found.spelling = "=" then some "constants are bound with '~', as in 'const n ~ 10'"
    else none
  | .token .kwIs, .becomes => some "constants are bound with '~', as in 'const n ~ 10'"
  | .assignmentOrCall, kind =>
    if kind = .operator ∧ e.found.spelling = "=" then some "assignment is written ':='"
    else some "a command starting with a name is an assignment or a call"
  | .token .kwEnd, .semicolon => some "';' separates commands; remove the one before 'end'"
  | .token .kwEnd, .endOfText => some "every 'begin' needs a matching 'end'"
  | .token .kwIn, .semicolon => some "';' separates declarations; remove the one before 'in'"
  | .token .kwIn, _ => some "syntax: let declaration in command"
  | .token .kwThen, _ => some "syntax: if expression then command else command"
  | .elseBranch, _ => some "every 'if' needs an 'else' branch or 'noelse'"
  | .token .kwDo, _ => some "syntax: while expression do command"
  | .token .kwUntil, _ => some "syntax: repeat command until expression"
  | .token .rightBracket, .endOfText => some "add ')' to close the parenthesis"
  | .token .identifier, .intLiteral => some "names can't start with a number"
  | .token .identifier, .error => some "names use lower-case letters and digits only"
  | .declaration, .kwVar => some "variables are declared as 'type name', as in 'integer n'"
  | .declaration, _ => some "declarations start with 'const' or a type name"
  | .expression, _ => some "try a number, a character, a name, or '(' expression ')'"
  | .parameter, _ => some "pass an expression, 'var name', or nothing"
  | .command, _ =>
    some "commands start with a name, 'begin', 'let', 'if', 'while', 'repeat' or 'nothing'"
  | .token .endOfText, _ =>
    some "a program is a single command; group several with 'begin' ... 'end'"
  | _, _ => none

end SyntaxError

/-- A syntax error and the number of tokens before the one it was raised at. -/
structure Fault where
  index : Nat
  error : SyntaxError
  deriving DecidableEq

/-! ## Cursors -/

/-- A place in a list of tokens. -/
structure Cursor where
  /-- The tokens ahead, the closing one aside. -/
  pending : List Token
  /-- The place of the closing end of text. -/
  closing : Span
  /-- The number of tokens passed. -/
  index : Nat
  /-- Where the last token read ends. -/
  readTo : Nat
  /-- The number of ids handed out. -/
  issued : Nat
  deriving DecidableEq

namespace Cursor

/-- At the first of `tokens`, which are closed with an end of text if they are not already. -/
def ofTokens (tokens : List Token) : Cursor :=
  match tokens.getLast? with
  | none => ⟨[], .empty 0, 0, 0, 0⟩
  | some last =>
    if last.kind = .endOfText then ⟨tokens.dropLast, last.span, 0, 0, 0⟩
    else ⟨tokens, .empty last.span.stop, 0, 0, 0⟩

/-- The next id to hand out.  Ids are 32-bit words, and go on from zero when they run out. -/
def nextId (c : Cursor) : NodeId := c.issued.toUInt32

/-- The number of tokens ahead, the closing one aside. -/
def size (c : Cursor) : Nat := c.pending.length

/-- The token under the cursor. -/
def current (c : Cursor) : Token := c.pending.head?.getD ⟨.endOfText, "", c.closing⟩

/-- The cursor behind `token`, which is followed by `rest`. -/
def past (c : Cursor) (token : Token) (rest : List Token) : Cursor :=
  ⟨rest, c.closing, c.index + 1, token.span.stop, c.issued⟩

/-- The cursor behind the token under it.  The closing token is read but not passed. -/
def stepOver (c : Cursor) : Cursor :=
  match c.pending with
  | [] => { c with readTo := c.closing.stop }
  | token :: rest => c.past token rest

/-- From the start of `start` to the end of the last token read. -/
def spanSince (c : Cursor) (start : Span) : Span := ⟨start.start, max c.readTo start.stop⟩

/-- `d` is where `c` comes to by moving over tokens. -/
def Leads (c d : Cursor) : Prop :=
  ∃ passed, c.pending = passed ++ d.pending ∧ d.index = c.index + passed.length ∧
    d.closing = c.closing

theorem Leads.refl (c : Cursor) : c.Leads c := ⟨[], rfl, rfl, rfl⟩

theorem Leads.trans {c d e : Cursor} (h₁ : c.Leads d) (h₂ : d.Leads e) : c.Leads e := by
  obtain ⟨us, hp₁, hi₁, hc₁⟩ := h₁
  obtain ⟨vs, hp₂, hi₂, hc₂⟩ := h₂
  refine ⟨us ++ vs, by rw [hp₁, hp₂, List.append_assoc], ?_, by rw [hc₂, hc₁]⟩
  rw [hi₂, hi₁, List.length_append, Nat.add_assoc]

theorem Leads.size_le {c d : Cursor} (h : c.Leads d) : d.size ≤ c.size := by
  obtain ⟨us, hp, -, -⟩ := h
  simp [size, hp]

theorem Leads.index_le {c d : Cursor} (h : c.Leads d) : c.index ≤ d.index := by
  obtain ⟨us, -, hi, -⟩ := h
  omega

theorem leads_past {c : Cursor} {token : Token} {rest : List Token}
    (h : c.pending = token :: rest) : c.Leads (c.past token rest) := ⟨[token], h, rfl, rfl⟩

theorem leads_stepOver (c : Cursor) : c.Leads c.stepOver := by
  unfold stepOver
  split
  case h_1 => exact .refl c
  case h_2 token rest h => exact leads_past h

/-- What lies ahead of a cursor. -/
inductive Ahead (c : Cursor)
  | closing
  | token (token : Token) (behind : Cursor) (h : behind.size < c.size ∧ c.Leads behind)

def ahead (c : Cursor) : Ahead c :=
  match h : c.pending with
  | [] => .closing
  | token :: rest => .token token (c.past token rest) ⟨by simp [size, past, h], leads_past h⟩

theorem ahead_eq_token {c d : Cursor} {token : Token} {h : d.size < c.size ∧ c.Leads d}
    (ha : c.ahead = .token token d h) :
    c.pending = token :: d.pending ∧ d = c.past token d.pending := by
  unfold ahead at ha
  split at ha
  case h_1 => cases ha
  case h_2 t rest hp =>
    cases ha
    exact ⟨hp, rfl⟩

theorem ahead_of_pending {c : Cursor} {token : Token} {rest : List Token}
    (hp : c.pending = token :: rest) : ∃ h, c.ahead = .token token (c.past token rest) h := by
  unfold ahead
  split
  case h_1 h => simp [hp] at h
  case h_2 t us h =>
    obtain ⟨rfl, rfl⟩ : t = token ∧ us = rest := by simpa [hp, eq_comm] using h
    exact ⟨⟨by simp [size, past, h], leads_past h⟩, rfl⟩

theorem ahead_of_pending_nil {c : Cursor} (hp : c.pending = []) : c.ahead = .closing := by
  unfold ahead
  split
  case h_1 => rfl
  case h_2 h => simp [hp] at h

theorem current_of_pending {c : Cursor} {token : Token} {rest : List Token}
    (hp : c.pending = token :: rest) : c.current = token := by simp [current, hp]

theorem stepOver_of_pending {c : Cursor} {token : Token} {rest : List Token}
    (hp : c.pending = token :: rest) : c.stepOver = c.past token rest := by
  obtain ⟨_, closing, index, readTo, issued⟩ := c
  subst hp
  rfl

end Cursor

/-! ## Readings -/

/-- `f` is raised at a cursor between `c` and `d`, at the token under it. -/
def Fault.RaisedBetween (f : Fault) (c d : Cursor) : Prop :=
  ∃ e : Cursor, c.Leads e ∧ e.Leads d ∧ f.index = e.index ∧ f.error.found = e.current

namespace Fault.RaisedBetween

variable {f g : Fault} {c d e : Cursor}

theorem of_leads (h : f.RaisedBetween d e) (hc : c.Leads d) : f.RaisedBetween c e := by
  obtain ⟨a, hd, he, hf⟩ := h
  exact ⟨a, hc.trans hd, he, hf⟩

theorem leads_of (h : f.RaisedBetween c d) (he : d.Leads e) : f.RaisedBetween c e := by
  obtain ⟨a, hc, hd, hf⟩ := h
  exact ⟨a, hc, hd.trans he, hf⟩

theorem index_le_index (hf : f.RaisedBetween c d) (hg : g.RaisedBetween d e) :
    f.index ≤ g.index := by
  obtain ⟨a, -, ha, hi, -⟩ := hf
  obtain ⟨b, hb, -, hj, -⟩ := hg
  rw [hi, hj]
  exact (ha.trans hb).index_le

end Fault.RaisedBetween

/-- What is read at the cursor `c`. -/
structure Read (α : Type) (c : Cursor) where
  node : α
  next : Cursor
  faults : List Fault
  leads : c.Leads next
  raised : ∀ f ∈ faults, f.RaisedBetween c next
  sorted : faults.Pairwise (·.index ≤ ·.index)

namespace Read

variable {α β : Type} {c d : Cursor}

theorem size_le (r : Read α c) : r.next.size ≤ c.size := r.leads.size_le

/-- Reads nothing. -/
def done (node : α) : Read α c := ⟨node, c, [], .refl c, by simp, .nil⟩

/-- Reads nothing and puts a new id into the node. -/
def fresh (node : NodeId → α) : Read α c :=
  ⟨node c.nextId, { c with issued := c.issued + 1 }, [], ⟨[], rfl, rfl, rfl⟩, by simp, .nil⟩

/-- Reads `first`, and then what `rest` reads behind it. -/
def andThen (first : Read α c)
    (rest : (node : α) → (d : Cursor) → d.size ≤ c.size → Read β d) : Read β c :=
  let second := rest first.node first.next first.size_le
  have raised : ∀ f ∈ first.faults ++ second.faults, f.RaisedBetween c second.next := by
    intro f hf
    rcases List.mem_append.1 hf with hf | hf
    · exact (first.raised f hf).leads_of second.leads
    · exact (second.raised f hf).of_leads first.leads
  have sorted : (first.faults ++ second.faults).Pairwise (·.index ≤ ·.index) :=
    List.pairwise_append.2 ⟨first.sorted, second.sorted, fun f hf g hg =>
      (first.raised f hf).index_le_index (second.raised g hg)⟩
  ⟨second.node, second.next, first.faults ++ second.faults, first.leads.trans second.leads,
    raised, sorted⟩

/-- What is read at a cursor further on. -/
def since (h : d.size < c.size ∧ c.Leads d) (r : Read α d) : Read α c :=
  ⟨r.node, r.next, r.faults, h.2.trans r.leads, fun f hf => (r.raised f hf).of_leads h.2, r.sorted⟩

/-- The syntax errors met. -/
def errors (r : Read α c) : List SyntaxError := r.faults.map Fault.error

end Read

namespace Cursor

/-- Stays put and reports that the current token is not `expected`. -/
def refuse (c : Cursor) (expected : Expectation) : Read Unit c :=
  ⟨(), c, [⟨c.index, expected, c.current⟩], .refl c, by simpa using ⟨c, .refl c, .refl c, rfl, rfl⟩,
    List.pairwise_singleton _ _⟩

/-- Moves over a token of the given kind, and refuses any other. -/
def expect (c : Cursor) (kind : TokenKind) : Read Unit c :=
  if c.current.kind = kind then ⟨(), c.stepOver, [], c.leads_stepOver, by simp, .nil⟩
  else c.refuse (.token kind)

end Cursor

end TriLang
