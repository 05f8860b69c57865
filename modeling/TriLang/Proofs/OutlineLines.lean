import TriLang.Proofs.Nesting
import TriLang.Proofs.Outlines

/-!
# One line a node

An outline goes through the nodes of a tree from the top, each node before its parts, and writes a
row for each.  A row is one line unless a character literal is spelled with a newline, which the
language allows and the outline writes as it is.
-/

namespace TriLang

open OutlineForest (headed)

/-! ## Going through a tree -/

/-- What an outline shows: a node, or that an `if` goes without a second branch. -/
inductive OutlineItem
  | node (n : Node)
  | noElse

namespace Node

variable {n : Node}

theorem sizeOf_lt_of_mem_children (n : Node) : ∀ m ∈ n.children, sizeOf m < sizeOf n := by
  rcases n with o | e | q | d | c | ⟨c, s⟩
  case occurrence => simp [children]
  case expr => cases e <;> simp [children] <;> omega
  case param => cases q <;> simp [children]
  case decl =>
    cases d with
    | sequence id s items =>
      refine List.forall_mem_map.2 fun d hd => ?_
      have := List.sizeOf_lt_of_mem hd
      simp
      omega
    | _ => simp [children] <;> omega
  case command =>
    cases c with
    | sequence s items =>
      refine List.forall_mem_map.2 fun c hc => ?_
      have := List.sizeOf_lt_of_mem hc
      simp
      omega
    | _ => simp [children] <;> omega
  case program =>
    simp [children]
    omega

/-- What holds of a node if it holds of its parts holds of every node. -/
theorem induction {P : Node → Prop} (h : ∀ n, (∀ m ∈ n.children, P m) → P n) (n : Node) : P n :=
  h n fun m hm =>
    have := n.sizeOf_lt_of_mem_children m hm
    induction h m
termination_by sizeOf n

/-- Names and operators stand on the lines of the nodes that they are parts of. -/
def hasLine : Node → Bool
  | occurrence _ => false
  | _ => true

def lacksElse : Node → Bool
  | command (.ifNoElse ..) => true
  | _ => false

/-- The items from a node at `depth` down, a node before its parts and these in source order. -/
def items (depth : Nat) (n : Node) : List (Nat × OutlineItem) :=
  if n.hasLine then
    (depth, .node n) :: (n.children.attach.flatMap (fun m => m.1.items (depth + 1)) ++
      if n.lacksElse then [(depth + 1, .noElse)] else [])
  else []
termination_by sizeOf n
decreasing_by exact n.sizeOf_lt_of_mem_children m.1 m.2

theorem items_of_hasLine (h : n.hasLine) (depth : Nat) : n.items depth =
    (depth, .node n) :: (n.children.flatMap (items (depth + 1)) ++
      if n.lacksElse then [(depth + 1, .noElse)] else []) := by
  rw [items, if_pos h, List.flatMap_subtype fun m hm => rfl, List.unattach_attach]

@[simp] theorem items_occurrence (o : Occurrence) (depth : Nat) :
    (occurrence o).items depth = [] := by
  rw [items]
  rfl

/-- What a node is called. -/
def title : Node → String
  | occurrence o => o.spelling
  | expr (.binary ..) => "Binary"
  | expr (.character _ spelling) => headed "Char" spelling
  | expr (.integer _ spelling) => headed "Int" spelling
  | expr (.name ..) | expr (.apply ..) => "Id"
  | expr (.unary ..) => "Unary"
  | expr (.error _) => "ErrorExpr"
  | param (.blank _) => "BlankParam"
  | param (.value ..) => "ValueParam"
  | param (.var ..) => "VarParam"
  | param (.error _) => "ErrorParam"
  | decl (.const ..) => "Const"
  | decl (.var ..) => "Var"
  | decl (.sequence ..) => "SequentialDecl"
  | decl (.error ..) => "ErrorDecl"
  | command (.assign ..) => "Assign"
  | command (.blank _) => "Blank"
  | command (.call ..) => "Call"
  | command (.ifElse ..) | command (.ifNoElse ..) => "If"
  | command (.letIn ..) => "Let"
  | command (.sequence ..) => "Sequential"
  | command (.whileDo ..) => "While"
  | command (.repeatUntil ..) => "Repeat"
  | command (.error _) => "ErrorCommand"
  | program _ => "Program"

def occurrence? : Node → Option Occurrence
  | occurrence o => some o
  | _ => none

end Node

namespace OutlineItem

/-- A node is shown by its title and the names and operators among its parts. -/
def text : OutlineItem → String
  | node n =>
    (n.children.filterMap Node.occurrence?).foldl (fun t o => headed t o.spelling) n.title
  | noElse => "NoElse"

/-- The line of an item at a depth. -/
def line (i : Nat × OutlineItem) : List Char := List.replicate (2 * i.1) ' ' ++ i.2.text.toList

end OutlineItem

/-! ## Rows of a tree -/

namespace Node

def rows (depth : Nat) : Node → List OutlineRow
  | occurrence _ => []
  | expr e => e.rows depth
  | param q => q.rows depth
  | decl d => d.rows depth
  | command c => c.rows depth
  | program p => ⟨depth, "Program"⟩ :: p.command.rows (depth + 1)

theorem rowsOfList_decl (depth : Nat) (ds : List Decl) :
    Decl.rowsOfList depth ds = (ds.map decl).flatMap (rows depth) := by
  induction ds with
  | nil => rfl
  | cons d ds ih => rw [Decl.rowsOfList, ih, List.map_cons, List.flatMap_cons, rows]

theorem rowsOfList_command (depth : Nat) (cs : List Command) :
    Command.rowsOfList depth cs = (cs.map command).flatMap (rows depth) := by
  induction cs with
  | nil => rfl
  | cons c cs ih => rw [Command.rowsOfList, ih, List.map_cons, List.flatMap_cons, rows]

/-- A node has a row, and its parts have theirs below it. -/
theorem rows_of_hasLine {n : Node} (h : n.hasLine) (depth : Nat) : n.rows depth =
    ⟨depth, (OutlineItem.node n).text⟩ :: (n.children.flatMap (rows (depth + 1)) ++
      if n.lacksElse then [⟨depth + 1, "NoElse"⟩] else []) := by
  rcases n with o | e | q | d | c | p
  case occurrence => cases h
  case expr =>
    cases e <;> simp [rows, Expr.rows, children, lacksElse, OutlineItem.text, title, occurrence?,
      List.filterMap_cons, headed, toString]
  case param =>
    cases q <;> simp [rows, Param.rows, children, lacksElse, OutlineItem.text, title, occurrence?,
      List.filterMap_cons, headed, toString]
  case decl =>
    cases d <;> simp [rows, Decl.rows, rowsOfList_decl, children, lacksElse, OutlineItem.text,
      title, occurrence?, List.filterMap_cons, Function.comp_def, headed, toString]
  case command =>
    cases c <;> simp [rows, Command.rows, rowsOfList_command, children, lacksElse,
      OutlineItem.text, title, occurrence?, List.filterMap_cons, Function.comp_def, headed,
      toString]
  case program =>
    simp [rows, children, lacksElse, OutlineItem.text, title, occurrence?, List.filterMap_cons]

theorem rows_eq_map_items (n : Node) (depth : Nat) :
    n.rows depth = (n.items depth).map fun i => ⟨i.1, i.2.text⟩ := by
  induction n using Node.induction generalizing depth with | h n ih =>
  by_cases h : n.hasLine
  · have hparts : n.children.flatMap (rows (depth + 1)) =
        n.children.flatMap fun m => (m.items (depth + 1)).map fun i => ⟨i.1, i.2.text⟩ :=
      List.flatMap_congr fun m hm => ih m hm (depth + 1)
    rw [rows_of_hasLine h, items_of_hasLine h, hparts, List.map_cons, List.map_append,
      List.map_flatMap]
    split <;> rfl
  · cases n with
    | occurrence o => rw [items_occurrence, List.map_nil, rows]
    | _ => exact absurd rfl h

end Node

/-! ## Character literals among the items -/

namespace Node

variable {s : Span} {spelling : String}

def leaves : Node → List Leaf
  | occurrence _ => []
  | expr e => e.leaves
  | param q => q.leaves
  | decl d => d.leaves
  | command c => c.leaves
  | program p => p.command.leaves

/-- A character literal is a node, and the other nodes have theirs from their parts. -/
theorem eq_or_exists_of_character_mem_leaves {n : Node} (h : .character s spelling ∈ n.leaves) :
    n = expr (.character s spelling) ∨ ∃ m ∈ n.children, .character s spelling ∈ m.leaves := by
  rcases n with o | e | q | d | c | p
  case occurrence => cases h
  case expr => cases e <;> simp_all [leaves, Expr.leaves, children]
  case param => cases q <;> simp_all [leaves, Param.leaves, children]
  case decl => cases d <;> simp_all [leaves, Decl.leaves, Decl.leavesOfList_eq_flatMap, children]
  case command =>
    cases c <;> simp_all [leaves, Command.leaves, Command.leavesOfList_eq_flatMap, children]
  case program => simpa [leaves, children] using h

theorem exists_mem_items_of_character_mem_leaves {n : Node} (depth : Nat)
    (h : .character s spelling ∈ n.leaves) :
    ∃ i ∈ n.items depth, i.2 = .node (expr (.character s spelling)) := by
  induction n using Node.induction generalizing depth with | h n ih =>
  rcases eq_or_exists_of_character_mem_leaves h with rfl | ⟨m, hm, hs⟩
  · rw [items_of_hasLine rfl]
    exact ⟨_, List.mem_cons_self, rfl⟩
  · obtain ⟨i, hi, heq⟩ := ih m hm (depth + 1) hs
    have hline : n.hasLine := by
      cases n with
      | occurrence o => cases h
      | _ => rfl
    rw [items_of_hasLine hline]
    refine ⟨i, List.mem_cons_of_mem _ (List.mem_append_left _ ?_), heq⟩
    exact List.mem_flatMap.2 ⟨m, hm, hi⟩

end Node

/-! ## The outline of a source text -/

namespace Program

/-- What an outline shows of a program, with the depths. -/
def items (p : Program) : List (Nat × OutlineItem) := (Node.program p).items 0

theorem rows_eq_map_items (p : Program) : p.rows = p.items.map fun i => ⟨i.1, i.2.text⟩ :=
  (Node.program p).rows_eq_map_items 0

/-- Only a character literal can hold a newline. -/
theorem newline_notMem_of_mem_leaves {source : String}
    (h : ∀ s spelling, .character s spelling ∈ (ofSource source).command.leaves →
      '\n' ∉ spelling.toList) :
    ∀ x ∈ (ofSource source).command.leaves, '\n' ∉ x.token.spelling.toList := by
  intro x hx hn
  have hproper : x.token.kind.Proper := by cases x <;> exact ⟨nofun, nofun⟩
  have hspells := Tokens.spells_of_proper (token_mem_of_mem_leaves hx) hproper
  have hkind : x.token.kind = .charLiteral := by simpa using hspells.of_newline_mem hn
  cases x with
  | character s spelling => exact h s spelling hx hn
  | _ => cases hkind

/-- The lines of an outline are its items, one a line, just if no character literal holds a
newline. -/
theorem ofSource_outline_lines_iff (source : String) :
    (ofSource source).outline.toList.splitOn '\n' =
        (ofSource source).items.map OutlineItem.line ++ [[]] ↔
      ∀ s spelling, .character s spelling ∈ (ofSource source).command.leaves →
        '\n' ∉ spelling.toList := by
  have hlines : (ofSource source).rows.map OutlineRow.line =
      (ofSource source).items.map OutlineItem.line := by
    rw [rows_eq_map_items, List.map_map]
    rfl
  rw [outline, OutlineRow.toList_join, hlines, splitOn_flatMap_iff]
  refine ⟨fun h s spelling hleaf hn => ?_, fun h => ?_⟩
  · obtain ⟨i, hi, heq⟩ :=
      (Node.program (ofSource source)).exists_mem_items_of_character_mem_leaves 0 hleaf
    refine h (OutlineItem.line i) (List.mem_map_of_mem hi) (List.mem_append_right _ ?_)
    simpa [heq, OutlineItem.text, Node.children, Node.title, OutlineForest.toList_headed] using hn
  · rw [← hlines]
    refine List.forall_mem_map.2 fun r hr => ?_
    have hline := isLine_of_mem_rows (newline_notMem_of_mem_leaves h) r hr
    simp [OutlineRow.line, hline.newline_notMem]

/-- A program of three nodes, whose outline has four lines. -/
theorem ofSource_outline_lines_newline :
    let p := ofSource "n := \x27\n\x27"
    p.outline = "Program\n  Assign n\n    Char \x27\n\x27\n" ∧ p.items.length = 3 ∧
      p.outline.toList.splitOn '\n' ≠ p.items.map OutlineItem.line ++ [[]] := by
  decide +kernel

end Program

end TriLang
