import Mathlib.Data.List.Basic
import TriLang.Proofs.Leaves
import TriLang.Proofs.LineTexts
import TriLang.Tree.Outline

/-!
# Lines of an outline

An outline falls apart into lines at its newlines, the blanks in front of a line tell its depth, and
the depths tell which line belongs under which: so the text tells a forest of lines.
-/

namespace TriLang

/-! ## Lines -/

/-- The text is one line, and blanks in front of it do not run into it. -/
structure IsLine (text : String) : Prop where
  newline_notMem : '\n' ∉ text.toList
  head_ne : ∀ c ∈ text.toList.head?, c ≠ ' '

namespace OutlineRow

/-- The characters of a row without the newline at its end. -/
def line (r : OutlineRow) : List Char := List.replicate (2 * r.depth) ' ' ++ r.text.toList

theorem toList_toString (r : OutlineRow) : r.toString.toList = r.line ++ ['\n'] := by
  simp [toString, line]

theorem toList_join (rs : List OutlineRow) :
    (String.join (rs.map toString)).toList = (rs.map line).flatMap (· ++ ['\n']) := by
  simp only [String.toList_join, List.flatMap_map, toList_toString]

/-- The row that a line shows. -/
def ofLine (cs : List Char) : OutlineRow :=
  ⟨(cs.takeWhile (· = ' ')).length / 2, String.ofList (cs.dropWhile (· = ' '))⟩

theorem ofLine_line {r : OutlineRow} (h : IsLine r.text) : ofLine r.line = r := by
  have hblanks : ∀ c ∈ List.replicate (2 * r.depth) ' ', decide (c = ' ') = true := by simp
  have htext : r.text.toList.takeWhile (· = ' ') = [] ∧
      r.text.toList.dropWhile (· = ' ') = r.text.toList := by
    have := h.head_ne
    generalize r.text.toList = cs at this ⊢
    cases cs <;> simp_all
  rw [ofLine, line, List.takeWhile_append_of_pos hblanks, List.dropWhile_append_of_pos hblanks,
    htext.1, htext.2, List.append_nil, List.length_replicate, Nat.mul_div_cancel_left _ Nat.two_pos,
    String.ofList_toList]

/-- Rows of one line each are the pieces of their text between newlines. -/
theorem splitOn_join {rs : List OutlineRow} (h : ∀ r ∈ rs, IsLine r.text) :
    (String.join (rs.map toString)).toList.splitOn '\n' = rs.map line ++ [[]] := by
  have hline : ∀ l ∈ rs.map line, '\n' ∉ l :=
    List.forall_mem_map.2 fun r hr => by simp [line, (h r hr).newline_notMem]
  rw [toList_join, splitOn_flatMap_iff.2 hline]

/-- A text tells the rows that it is made of. -/
theorem eq_of_join_eq {rs qs : List OutlineRow} (hr : ∀ r ∈ rs, IsLine r.text)
    (hq : ∀ q ∈ qs, IsLine q.text)
    (h : String.join (rs.map toString) = String.join (qs.map toString)) : rs = qs := by
  have hlines : rs.map line = qs.map line := by
    have := splitOn_join hr
    rw [h, splitOn_join hq] at this
    exact (List.append_cancel_right this).symm
  have hread {rs : List OutlineRow} (h : ∀ r ∈ rs, IsLine r.text) :
      (rs.map line).map ofLine = rs := by
    have hsame : ∀ r ∈ rs, (ofLine ∘ line) r = id r := fun r hr => ofLine_line (h r hr)
    rw [List.map_map, List.map_congr_left hsame, List.map_id]
  rw [← hread hr, hlines, hread hq]

end OutlineRow

/-! ## Forests of lines -/

/-- Trees beside each other, with a text at each node: the first tree with what is under its root,
and the others. -/
inductive OutlineForest
  | nil
  | node (text : String) (children rest : OutlineForest)

namespace OutlineForest

def rows (depth : Nat) : OutlineForest → List OutlineRow
  | nil => []
  | node text children rest => ⟨depth, text⟩ :: (children.rows (depth + 1) ++ rest.rows depth)

theorem depth_le_of_mem_rows {depth : Nat} {f : OutlineForest} :
    ∀ r ∈ f.rows depth, depth ≤ r.depth := by
  induction f generalizing depth with
  | nil => exact List.forall_mem_nil _
  | node text children rest ihc ihr =>
    refine List.forall_mem_cons.2 ⟨Nat.le_refl _, List.forall_mem_append.2 ⟨fun r hr => ?_, ihr⟩⟩
    exact Nat.le_of_succ_le (ihc r hr)

/-- What lies under the first root ends where a row is no deeper than the root. -/
theorem takeWhile_rows (depth : Nat) (children rest : OutlineForest) :
    (children.rows (depth + 1) ++ rest.rows depth).takeWhile (depth < ·.depth) =
      children.rows (depth + 1) := by
  have hunder : ∀ r ∈ children.rows (depth + 1), decide (depth < r.depth) = true := fun r hr =>
    decide_eq_true (depth_le_of_mem_rows r hr)
  rw [List.takeWhile_append_of_pos hunder]
  cases rest <;> simp [rows]

/-- Rows tell which of them belong under which. -/
theorem rows_injective {depth : Nat} {f g : OutlineForest} (h : f.rows depth = g.rows depth) :
    f = g := by
  induction f generalizing depth g with
  | nil =>
    cases g with
    | nil => rfl
    | node => cases h
  | node text children rest ihc ihr =>
    cases g with
    | nil => cases h
    | node text' children' rest' =>
      obtain ⟨hroot, htail⟩ := List.cons.inj h
      -- The rows under both roots are the same, and so are those that are left.
      have hchildren : children.rows (depth + 1) = children'.rows (depth + 1) := by
        rw [← takeWhile_rows depth children rest, htail, takeWhile_rows]
      rw [hchildren, List.append_cancel_left_eq] at htail
      rw [(OutlineRow.mk.inj hroot).2, ihc hchildren, ihr htail]

/-- Every text is a line. -/
def IsPlain : OutlineForest → Prop
  | nil => True
  | node text children rest => IsLine text ∧ children.IsPlain ∧ rest.IsPlain

theorem IsPlain.isLine_of_mem_rows {depth : Nat} {f : OutlineForest} (h : f.IsPlain) :
    ∀ r ∈ f.rows depth, IsLine r.text := by
  induction f generalizing depth with
  | nil => exact List.forall_mem_nil _
  | node text children rest ihc ihr =>
    exact List.forall_mem_cons.2 ⟨h.1, List.forall_mem_append.2 ⟨ihc h.2.1, ihr h.2.2⟩⟩

end OutlineForest

/-! ## Forests of programs -/

/-- The text `s` behind the word `w`. -/
def OutlineForest.headed (w s : String) : String := w ++ " " ++ s

theorem OutlineForest.toList_headed (w s : String) :
    (headed w s).toList = w.toList ++ ' ' :: s.toList := by
  simp [headed]

open OutlineForest (headed toList_headed)

mutual

/-- The lines of an expression in front of those of `rest`. -/
def Expr.forest : Expr → OutlineForest → OutlineForest
  | .binary _ left op right, rest =>
    .node (headed "Binary" op.spelling) (left.forest (right.forest .nil)) rest
  | .character _ spelling, rest => .node (headed "Char" spelling) .nil rest
  | .integer _ spelling, rest => .node (headed "Int" spelling) .nil rest
  | .name _ name, rest => .node (headed "Id" name.spelling) .nil rest
  | .apply _ name arg, rest => .node (headed "Id" name.spelling) (arg.forest .nil) rest
  | .unary _ op operand, rest => .node (headed "Unary" op.spelling) (operand.forest .nil) rest
  | .error _, rest => .node "ErrorExpr" .nil rest

def Param.forest : Param → OutlineForest → OutlineForest
  | .blank _, rest => .node "BlankParam" .nil rest
  | .value _ expr, rest => .node "ValueParam" (expr.forest .nil) rest
  | .var _ name, rest => .node (headed "VarParam" name.spelling) .nil rest
  | .error _, rest => .node "ErrorParam" .nil rest

end

mutual

def Decl.forest : Decl → OutlineForest → OutlineForest
  | .const _ _ name value, rest =>
    .node (headed "Const" name.spelling) (value.forest .nil) rest
  | .var _ _ type name, rest =>
    .node (headed "Var" (headed type.spelling name.spelling)) .nil rest
  | .sequence _ _ items, rest => .node "SequentialDecl" (Decl.forestOfList items) rest
  | .error .., rest => .node "ErrorDecl" .nil rest

def Decl.forestOfList : List Decl → OutlineForest
  | [] => .nil
  | d :: ds => d.forest (Decl.forestOfList ds)

end

mutual

def Command.forest : Command → OutlineForest → OutlineForest
  | .assign _ target value, rest =>
    .node (headed "Assign" target.spelling) (value.forest .nil) rest
  | .blank _, rest => .node "Blank" .nil rest
  | .call _ callee arg, rest => .node (headed "Call" callee.spelling) (arg.forest .nil) rest
  | .ifElse _ cond thenBranch elseBranch, rest =>
    .node "If" (cond.forest (thenBranch.forest (elseBranch.forest .nil))) rest
  | .ifNoElse _ cond thenBranch, rest =>
    .node "If" (cond.forest (thenBranch.forest (.node "NoElse" .nil .nil))) rest
  | .letIn _ decl body, rest => .node "Let" (decl.forest (body.forest .nil)) rest
  | .sequence _ items, rest => .node "Sequential" (Command.forestOfList items) rest
  | .whileDo _ cond body, rest => .node "While" (cond.forest (body.forest .nil)) rest
  | .repeatUntil _ body cond, rest => .node "Repeat" (body.forest (cond.forest .nil)) rest
  | .error _, rest => .node "ErrorCommand" .nil rest

def Command.forestOfList : List Command → OutlineForest
  | [] => .nil
  | c :: cs => c.forest (Command.forestOfList cs)

end

/-! ### Their rows -/

mutual

theorem Expr.rows_forest : ∀ (e : Expr) (rest : OutlineForest) (depth : Nat),
    (e.forest rest).rows depth = e.rows depth ++ rest.rows depth
  | .binary _ left op right, rest, depth => by
    simp [Expr.forest, Expr.rows, OutlineForest.rows, headed, toString, left.rows_forest,
      right.rows_forest]
  | .character .., _, _ | .integer .., _, _ | .name .., _, _ | .error _, _, _ => by
    simp [Expr.forest, Expr.rows, OutlineForest.rows, headed, toString]
  | .apply _ _ arg, _, _ => by
    simp [Expr.forest, Expr.rows, OutlineForest.rows, headed, toString, arg.rows_forest]
  | .unary _ _ operand, _, _ => by
    simp [Expr.forest, Expr.rows, OutlineForest.rows, headed, toString, operand.rows_forest]

theorem Param.rows_forest : ∀ (q : Param) (rest : OutlineForest) (depth : Nat),
    (q.forest rest).rows depth = q.rows depth ++ rest.rows depth
  | .blank _, _, _ | .var .., _, _ | .error _, _, _ => by
    simp [Param.forest, Param.rows, OutlineForest.rows, headed, toString]
  | .value _ expr, _, _ => by
    simp [Param.forest, Param.rows, OutlineForest.rows, expr.rows_forest]

end

mutual

theorem Decl.rows_forest : ∀ (d : Decl) (rest : OutlineForest) (depth : Nat),
    (d.forest rest).rows depth = d.rows depth ++ rest.rows depth
  | .const _ _ _ value, _, _ => by
    simp [Decl.forest, Decl.rows, OutlineForest.rows, headed, toString, value.rows_forest]
  | .var .., _, _ | .error .., _, _ => by
    simp [Decl.forest, Decl.rows, OutlineForest.rows, headed, toString, String.append_assoc]
  | .sequence _ _ items, _, _ => by
    simp [Decl.forest, Decl.rows, OutlineForest.rows, Decl.rows_forestOfList items]

theorem Decl.rows_forestOfList : ∀ (ds : List Decl) (depth : Nat),
    (Decl.forestOfList ds).rows depth = Decl.rowsOfList depth ds
  | [], _ => rfl
  | d :: ds, depth => by
    rw [Decl.forestOfList, d.rows_forest, Decl.rows_forestOfList ds, Decl.rowsOfList]

end

mutual

theorem Command.rows_forest : ∀ (c : Command) (rest : OutlineForest) (depth : Nat),
    (c.forest rest).rows depth = c.rows depth ++ rest.rows depth
  | .assign _ _ value, _, _ => by
    simp [Command.forest, Command.rows, OutlineForest.rows, headed, toString, value.rows_forest]
  | .blank _, _, _ | .error _, _, _ => rfl
  | .call _ _ arg, _, _ => by
    simp [Command.forest, Command.rows, OutlineForest.rows, headed, toString, arg.rows_forest]
  | .ifElse _ cond thenBranch elseBranch, _, _ => by
    simp [Command.forest, Command.rows, OutlineForest.rows, cond.rows_forest,
      thenBranch.rows_forest, elseBranch.rows_forest]
  | .ifNoElse _ cond thenBranch, _, _ => by
    simp [Command.forest, Command.rows, OutlineForest.rows, cond.rows_forest,
      thenBranch.rows_forest]
  | .letIn _ decl body, _, _ => by
    simp [Command.forest, Command.rows, OutlineForest.rows, decl.rows_forest, body.rows_forest]
  | .sequence _ items, _, _ => by
    simp [Command.forest, Command.rows, OutlineForest.rows, Command.rows_forestOfList items]
  | .whileDo _ cond body, _, _ => by
    simp [Command.forest, Command.rows, OutlineForest.rows, cond.rows_forest, body.rows_forest]
  | .repeatUntil _ body cond, _, _ => by
    simp [Command.forest, Command.rows, OutlineForest.rows, cond.rows_forest, body.rows_forest]

theorem Command.rows_forestOfList : ∀ (cs : List Command) (depth : Nat),
    (Command.forestOfList cs).rows depth = Command.rowsOfList depth cs
  | [], _ => rfl
  | c :: cs, depth => by
    rw [Command.forestOfList, c.rows_forest, Command.rows_forestOfList cs, Command.rowsOfList]

end

/-! ### Their texts -/

/-- The text is not empty and has no blank and no newline. -/
def isWord (w : String) : Bool :=
  !w.toList.isEmpty && !w.toList.contains ' ' && !w.toList.contains '\n'

theorem isWord_iff {w : String} :
    isWord w ↔ w.toList ≠ [] ∧ ' ' ∉ w.toList ∧ '\n' ∉ w.toList := by
  simp [isWord, and_assoc]

theorem isLine_of_isWord {w : String} (hw : isWord w) : IsLine w := by
  obtain ⟨-, hblank, hnewline⟩ := isWord_iff.1 hw
  exact ⟨hnewline, fun c hc heq => hblank (heq ▸ List.mem_of_mem_head? hc)⟩

theorem isLine_headed {w s : String} (hw : isWord w) (hs : '\n' ∉ s.toList) :
    IsLine (headed w s) := by
  obtain ⟨hne, -, hnewline⟩ := isWord_iff.1 hw
  refine ⟨by simp [toList_headed, hnewline, hs], ?_⟩
  rw [toList_headed, List.head?_append_of_ne_nil _ hne]
  exact (isLine_of_isWord hw).head_ne

mutual

theorem Expr.isPlain_forest : ∀ (e : Expr) {rest : OutlineForest},
    (∀ l ∈ e.leaves, '\n' ∉ l.token.spelling.toList) → rest.IsPlain → (e.forest rest).IsPlain
  | .binary _ left _ right, _, h, hrest => by
    rw [Expr.leaves, List.forall_mem_append, List.forall_mem_cons] at h
    exact ⟨isLine_headed rfl h.2.1, left.isPlain_forest h.1 (right.isPlain_forest h.2.2 trivial),
      hrest⟩
  | .character .., _, h, hrest | .integer .., _, h, hrest | .name .., _, h, hrest =>
    ⟨isLine_headed rfl (h _ List.mem_cons_self), trivial, hrest⟩
  | .apply _ _ arg, _, h, hrest => by
    rw [Expr.leaves, List.forall_mem_cons] at h
    exact ⟨isLine_headed rfl h.1, arg.isPlain_forest h.2 trivial, hrest⟩
  | .unary _ _ operand, _, h, hrest => by
    rw [Expr.leaves, List.forall_mem_cons] at h
    exact ⟨isLine_headed rfl h.1, operand.isPlain_forest h.2 trivial, hrest⟩
  | .error _, _, _, hrest => ⟨isLine_of_isWord rfl, trivial, hrest⟩

theorem Param.isPlain_forest : ∀ (q : Param) {rest : OutlineForest},
    (∀ l ∈ q.leaves, '\n' ∉ l.token.spelling.toList) → rest.IsPlain → (q.forest rest).IsPlain
  | .blank _, _, _, hrest | .error _, _, _, hrest => ⟨isLine_of_isWord rfl, trivial, hrest⟩
  | .value _ expr, _, h, hrest =>
    ⟨isLine_of_isWord rfl, expr.isPlain_forest h trivial, hrest⟩
  | .var .., _, h, hrest => ⟨isLine_headed rfl (h _ List.mem_cons_self), trivial, hrest⟩

end

mutual

theorem Decl.isPlain_forest : ∀ (d : Decl) {rest : OutlineForest},
    (∀ l ∈ d.leaves, '\n' ∉ l.token.spelling.toList) → rest.IsPlain → (d.forest rest).IsPlain
  | .const _ _ _ value, _, h, hrest => by
    rw [Decl.leaves, List.forall_mem_cons] at h
    exact ⟨isLine_headed rfl h.1, value.isPlain_forest h.2 trivial, hrest⟩
  | .var _ _ type name, _, h, hrest => by
    rw [Decl.leaves, List.forall_mem_cons, List.forall_mem_singleton] at h
    have hnames : '\n' ∉ (headed type.spelling name.spelling).toList := by
      rw [toList_headed]
      exact List.not_mem_append h.1 (List.not_mem_cons_of_ne_of_not_mem (by decide) h.2)
    exact ⟨isLine_headed rfl hnames, trivial, hrest⟩
  | .sequence _ _ items, _, h, hrest =>
    ⟨isLine_of_isWord rfl, Decl.isPlain_forestOfList items h, hrest⟩
  | .error .., _, _, hrest => ⟨isLine_of_isWord rfl, trivial, hrest⟩

theorem Decl.isPlain_forestOfList : ∀ ds : List Decl,
    (∀ l ∈ Decl.leavesOfList ds, '\n' ∉ l.token.spelling.toList) → (Decl.forestOfList ds).IsPlain
  | [], _ => trivial
  | d :: ds, h => by
    rw [Decl.leavesOfList, List.forall_mem_append] at h
    exact d.isPlain_forest h.1 (Decl.isPlain_forestOfList ds h.2)

end

mutual

theorem Command.isPlain_forest : ∀ (c : Command) {rest : OutlineForest},
    (∀ l ∈ c.leaves, '\n' ∉ l.token.spelling.toList) → rest.IsPlain → (c.forest rest).IsPlain
  | .assign _ _ value, _, h, hrest => by
    rw [Command.leaves, List.forall_mem_cons] at h
    exact ⟨isLine_headed rfl h.1, value.isPlain_forest h.2 trivial, hrest⟩
  | .blank _, _, _, hrest | .error _, _, _, hrest => ⟨isLine_of_isWord rfl, trivial, hrest⟩
  | .call _ _ arg, _, h, hrest => by
    rw [Command.leaves, List.forall_mem_cons] at h
    exact ⟨isLine_headed rfl h.1, arg.isPlain_forest h.2 trivial, hrest⟩
  | .ifElse _ cond thenBranch elseBranch, _, h, hrest => by
    rw [Command.leaves, List.forall_mem_append, List.forall_mem_append] at h
    exact ⟨isLine_of_isWord rfl, cond.isPlain_forest h.1 (thenBranch.isPlain_forest h.2.1
      (elseBranch.isPlain_forest h.2.2 trivial)), hrest⟩
  | .ifNoElse _ cond thenBranch, _, h, hrest => by
    rw [Command.leaves, List.forall_mem_append] at h
    exact ⟨isLine_of_isWord rfl, cond.isPlain_forest h.1 (thenBranch.isPlain_forest h.2
      ⟨isLine_of_isWord rfl, trivial, trivial⟩), hrest⟩
  | .letIn _ decl body, _, h, hrest => by
    rw [Command.leaves, List.forall_mem_append] at h
    exact ⟨isLine_of_isWord rfl, decl.isPlain_forest h.1 (body.isPlain_forest h.2 trivial), hrest⟩
  | .sequence _ items, _, h, hrest =>
    ⟨isLine_of_isWord rfl, Command.isPlain_forestOfList items h, hrest⟩
  | .whileDo _ cond body, _, h, hrest => by
    rw [Command.leaves, List.forall_mem_append] at h
    exact ⟨isLine_of_isWord rfl, cond.isPlain_forest h.1 (body.isPlain_forest h.2 trivial), hrest⟩
  | .repeatUntil _ body cond, _, h, hrest => by
    rw [Command.leaves, List.forall_mem_append] at h
    exact ⟨isLine_of_isWord rfl, body.isPlain_forest h.1 (cond.isPlain_forest h.2 trivial), hrest⟩

theorem Command.isPlain_forestOfList : ∀ cs : List Command,
    (∀ l ∈ Command.leavesOfList cs, '\n' ∉ l.token.spelling.toList) →
      (Command.forestOfList cs).IsPlain
  | [], _ => trivial
  | c :: cs, h => by
    rw [Command.leavesOfList, List.forall_mem_append] at h
    exact c.isPlain_forest h.1 (Command.isPlain_forestOfList cs h.2)

end

namespace Program

def forest (p : Program) : OutlineForest := .node "Program" (p.command.forest .nil) .nil

theorem rows_forest (p : Program) : p.forest.rows 0 = p.rows := by
  simp [forest, OutlineForest.rows, p.command.rows_forest, rows]

variable {p q : Program}

theorem isLine_of_mem_rows (h : ∀ l ∈ p.command.leaves, '\n' ∉ l.token.spelling.toList) :
    ∀ r ∈ p.rows, IsLine r.text := by
  have hp : p.forest.IsPlain :=
    ⟨isLine_of_isWord rfl, p.command.isPlain_forest h trivial, trivial⟩
  rw [← p.rows_forest]
  exact hp.isLine_of_mem_rows

/-- Where every leaf is on one line, the outline tells the forest of the program. -/
theorem forest_eq_of_outline_eq (hp : ∀ l ∈ p.command.leaves, '\n' ∉ l.token.spelling.toList)
    (hq : ∀ l ∈ q.command.leaves, '\n' ∉ l.token.spelling.toList) (h : p.outline = q.outline) :
    p.forest = q.forest := by
  have hrows : p.rows = q.rows :=
    OutlineRow.eq_of_join_eq (isLine_of_mem_rows hp) (isLine_of_mem_rows hq) h
  rw [← p.rows_forest, ← q.rows_forest] at hrows
  exact OutlineForest.rows_injective hrows

end Program

end TriLang
