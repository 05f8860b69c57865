import Mathlib.Data.List.Perm.Subperm
import TriLang.Cursor.Command
import TriLang.Proofs.Scoping

/-!
# Node ids

A reading hands out ids one by one, and puts them into its tree in that order.  It hands out no more
than two for each token that it passes, so short texts do not run out of ids, and no two parts of
a tree have the same one.
-/

namespace TriLang

/-! ## Ids of a tree -/

mutual

/-- The ids in source order. -/
def Expr.ids : Expr → List NodeId
  | .binary _ left op right => left.ids ++ op.id :: right.ids
  | .character .. | .integer .. | .error _ => []
  | .name _ name => [name.id]
  | .apply _ name arg => name.id :: arg.ids
  | .unary _ op operand => op.id :: operand.ids

def Param.ids : Param → List NodeId
  | .blank _ | .error _ => []
  | .value _ expr => expr.ids
  | .var _ name => [name.id]

end

mutual

/-- The ids in source order, the own id of a declaration behind those inside it. -/
def Decl.ids : Decl → List NodeId
  | .const id _ name value => name.id :: (value.ids ++ [id])
  | .var id _ type name => [type.id, name.id, id]
  | .sequence id _ items => Decl.idsOfList items ++ [id]
  | .error id _ => [id]

def Decl.idsOfList : List Decl → List NodeId
  | [] => []
  | d :: ds => d.ids ++ Decl.idsOfList ds

end

mutual

/-- The ids in source order. -/
def Command.ids : Command → List NodeId
  | .assign _ target value => target.id :: value.ids
  | .blank _ | .error _ => []
  | .call _ callee arg => callee.id :: arg.ids
  | .ifElse _ cond thenBranch elseBranch => cond.ids ++ (thenBranch.ids ++ elseBranch.ids)
  | .ifNoElse _ cond thenBranch => cond.ids ++ thenBranch.ids
  | .letIn _ decl body => decl.ids ++ body.ids
  | .sequence _ items => Command.idsOfList items
  | .whileDo _ cond body => cond.ids ++ body.ids
  | .repeatUntil _ body cond => body.ids ++ cond.ids

def Command.idsOfList : List Command → List NodeId
  | [] => []
  | c :: cs => c.ids ++ Command.idsOfList cs

end

/-! ### Labelled parts have ids of the tree -/

mutual

theorem Expr.map_id_labelled : ∀ e : Expr, e.labelled.map Labelled.id = e.ids
  | .binary _ left op right => by
    simp [Expr.labelled, Expr.ids, left.map_id_labelled, right.map_id_labelled, Labelled.id]
  | .character .. | .integer .. | .error _ | .name .. => rfl
  | .apply _ name arg => by simp [Expr.labelled, Expr.ids, arg.map_id_labelled, Labelled.id]
  | .unary _ op operand => by
    simp [Expr.labelled, Expr.ids, operand.map_id_labelled, Labelled.id]

theorem Param.map_id_labelled : ∀ q : Param, q.labelled.map Labelled.id = q.ids
  | .blank _ | .error _ | .var .. => rfl
  | .value _ expr => expr.map_id_labelled

end

mutual

theorem Decl.map_id_labelled_subperm : ∀ d : Decl, (d.labelled.map Labelled.id).Subperm d.ids
  | .const id _ name value => by
    rw [Decl.labelled, Decl.ids, List.map_cons, List.map_cons, value.map_id_labelled]
    exact (List.perm_append_singleton id (name.id :: value.ids)).symm.subperm
  | .var id _ type name => by
    have h : [type.id, name.id, id].Perm [id, name.id, type.id] := List.reverse_perm _ |>.symm
    exact h.symm.subperm
  | .sequence id _ items =>
    (Decl.map_id_labelledOfList_subperm items).trans (List.sublist_append_left _ _).subperm
  | .error id _ => List.nil_subperm

theorem Decl.map_id_labelledOfList_subperm :
    ∀ ds : List Decl, ((Decl.labelledOfList ds).map Labelled.id).Subperm (Decl.idsOfList ds)
  | [] => .refl _
  | d :: ds => by
    rw [Decl.labelledOfList, Decl.idsOfList, List.map_append]
    exact d.map_id_labelled_subperm.append (Decl.map_id_labelledOfList_subperm ds)

end

mutual

theorem Command.map_id_labelled_subperm :
    ∀ c : Command, (c.labelled.map Labelled.id).Subperm c.ids
  | .assign _ target value => by
    simp [Command.labelled, Command.ids, value.map_id_labelled, Labelled.id, List.Subperm.refl]
  | .blank _ | .error _ => .refl _
  | .call _ callee arg => by
    simp [Command.labelled, Command.ids, arg.map_id_labelled, Labelled.id, List.Subperm.refl]
  | .ifElse _ cond a b => by
    rw [Command.labelled, Command.ids, List.map_append, List.map_append, cond.map_id_labelled]
    exact (List.Subperm.refl _).append
      (a.map_id_labelled_subperm.append b.map_id_labelled_subperm)
  | .ifNoElse _ cond a => by
    rw [Command.labelled, Command.ids, List.map_append, cond.map_id_labelled]
    exact (List.Subperm.refl _).append a.map_id_labelled_subperm
  | .letIn _ decl body => by
    rw [Command.labelled, Command.ids, List.map_append]
    exact decl.map_id_labelled_subperm.append body.map_id_labelled_subperm
  | .sequence _ items => Command.map_id_labelledOfList_subperm items
  | .whileDo _ cond body => by
    rw [Command.labelled, Command.ids, List.map_append, cond.map_id_labelled]
    exact (List.Subperm.refl _).append body.map_id_labelled_subperm
  | .repeatUntil _ body cond => by
    rw [Command.labelled, Command.ids, List.map_append, cond.map_id_labelled]
    exact body.map_id_labelled_subperm.append (List.Subperm.refl _)

theorem Command.map_id_labelledOfList_subperm : ∀ cs : List Command,
    ((Command.labelledOfList cs).map Labelled.id).Subperm (Command.idsOfList cs)
  | [] => .refl _
  | c :: cs => by
    rw [Command.labelledOfList, Command.idsOfList, List.map_append]
    exact c.map_id_labelled_subperm.append (Command.map_id_labelledOfList_subperm cs)

end

/-! ## Handing out ids -/

namespace NodeId

variable {m n : Nat} {i : NodeId}

theorem toNat_toUInt32 (h : n < UInt32.size) : n.toUInt32.toNat = n := Nat.mod_eq_of_lt h

/-- As long as they do not run out, ids are handed out in order. -/
theorem pairwise_lt_first (h : n ≤ UInt32.size) : (first n).Pairwise (· < ·) := by
  refine List.pairwise_map.2 (List.pairwise_lt_range.imp_of_mem fun {a b} ha hb hlt => ?_)
  have ha := List.mem_range.1 ha
  have hb := List.mem_range.1 hb
  rw [UInt32.lt_iff_toNat_lt, toNat_toUInt32 (by omega), toNat_toUInt32 (by omega)]
  exact hlt

/-- An id tells how many there are before it. -/
theorem toNat_of_mem_drop_first (hn : n ≤ UInt32.size) (h : i ∈ (first n).drop m) :
    m ≤ i.toNat ∧ i.toNat < n := by
  rw [first, ← List.map_drop, List.range_eq_range', List.drop_range'] at h
  obtain ⟨k, hk, rfl⟩ := List.mem_map.1 h
  have hk := List.mem_range'_1.1 hk
  rw [toNat_toUInt32 (by omega)]
  omega

end NodeId

/-- The ids handed out from the one with the number `m` on, up to that with the number `n`, which is
not among them. -/
inductive HandsOut : Nat → List NodeId → Nat → Prop
  | nothing (n : Nat) : HandsOut n [] n
  | one {m n : Nat} {ids : List NodeId} (rest : HandsOut (m + 1) ids n) :
      HandsOut m (m.toUInt32 :: ids) n

namespace HandsOut

variable {l m n : Nat} {xs ys : List NodeId}

theorem append (h : HandsOut l xs m) (h' : HandsOut m ys n) : HandsOut l (xs ++ ys) n := by
  induction h with
  | nothing => exact h'
  | one _ ih => exact .one (ih h')

theorem stop_eq (h : HandsOut m xs n) : n = m + xs.length := by
  induction h with
  | nothing => rfl
  | one _ ih => rw [ih, List.length_cons, Nat.add_right_comm, Nat.add_assoc]

/-- Of the ids up to the last one, they are those behind the first `m`. -/
theorem eq_drop_first (h : HandsOut m xs n) : xs = (NodeId.first n).drop m := by
  induction h with
  | nothing n => simp [NodeId.first]
  | @one m n ids hrest ih =>
    have hm : m < (NodeId.first n).length := by
      have := hrest.stop_eq
      simp only [NodeId.first, List.length_map, List.length_range]
      omega
    rw [List.drop_eq_getElem_cons hm, ih]
    simp [NodeId.first]

end HandsOut

/-! ## Ids handed out by a reading -/

namespace Read

variable {α β : Type} {c d : Cursor}

/-- In reading `r`, new ids are handed out and a number of tokens is passed at least, which `P`
relates with the node. -/
def Numbers (r : Read α c) (P : α → List NodeId → Nat → Prop) : Prop :=
  ∃ new n, HandsOut c.issued new r.next.issued ∧ c.index + n ≤ r.next.index ∧ P r.node new n

namespace Numbers

variable {P : α → List NodeId → Nat → Prop} {Q : β → List NodeId → Nat → Prop}

theorem imp {P' : α → List NodeId → Nat → Prop} {r : Read α c} (h : r.Numbers P)
    (hp : ∀ a xs n, P a xs n → P' a xs n) : r.Numbers P' := by
  obtain ⟨xs, n, hx, hn, h⟩ := h
  exact ⟨xs, n, hx, hn, hp _ _ _ h⟩

theorem done {a : α} (h : P a [] 0) : (Read.done a : Read α c).Numbers P :=
  ⟨[], 0, .nothing _, Nat.le_refl _, h⟩

theorem fresh {a : NodeId → α} (h : ∀ i, P (a i) [i] 0) : (Read.fresh a : Read α c).Numbers P :=
  ⟨[c.nextId], 0, .one (.nothing _), Nat.le_refl _, h _⟩

theorem andThen {r : Read α c} {k : α → (d : Cursor) → d.size ≤ c.size → Read β d}
    (h : r.Numbers P) (hk : ∀ a xs m d hd, P a xs m →
      (k a d hd).Numbers fun b ys n => Q b (xs ++ ys) (m + n)) : (r.andThen k).Numbers Q := by
  obtain ⟨xs, m, hx, hm, hp⟩ := h
  obtain ⟨ys, n, hy, hn, hq⟩ := hk r.node xs m r.next r.size_le hp
  refine ⟨xs ++ ys, m + n, hx.append hy, ?_, hq⟩
  show c.index + (m + n) ≤ (k r.node r.next r.size_le).next.index
  omega

theorem since {t : Token} {h : d.size < c.size ∧ c.Leads d} {r : Read α d}
    (ha : c.ahead = .token t d h) (hr : r.Numbers fun a xs n => P a xs (n + 1)) :
    (Read.since h r).Numbers P := by
  obtain ⟨xs, n, hx, hn, hp⟩ := hr
  have hd : d = c.past t d.pending := (Cursor.ahead_eq_token ha).2
  have hi : d.index = c.index + 1 := congrArg Cursor.index hd
  have hid : d.issued = c.issued := by
    rw [hd]
    rfl
  refine ⟨xs, n + 1, hid ▸ hx, ?_, hp⟩
  show c.index + (n + 1) ≤ r.next.index
  omega

theorem refuse (x : Expectation) : (c.refuse x).Numbers fun _ xs _ => xs = [] :=
  ⟨[], 0, .nothing _, Nat.le_refl _, rfl⟩

theorem expect (kind : TokenKind) : (c.expect kind).Numbers fun _ xs _ => xs = [] := by
  unfold Cursor.expect
  split
  · have hid : c.stepOver.issued = c.issued := by
      unfold Cursor.stepOver
      split <;> rfl
    refine ⟨[], 0, ?_, c.leads_stepOver.index_le, rfl⟩
    show HandsOut c.issued [] c.stepOver.issued
    exact hid ▸ .nothing _
  · exact refuse _

theorem occurrence (t : Token) :
    (Cursor.occurrence t : Read Occurrence c).Numbers fun o xs _ => xs = [o.id] :=
  .fresh fun _ => rfl

end Numbers

end Read

/-- The new ids contain those of a tree in their order, and are at most two for each of `n` tokens
and `spare` more. -/
structure Spends (ids new : List NodeId) (n spare : Nat) : Prop where
  sublist : ids.Sublist new
  length_le : new.length ≤ 2 * n + spare

/-! ### Expressions and parameters -/

namespace Cursor

mutual

theorem expression_numbers (c : Cursor) :
    (expression c).Numbers fun e new n => Spends e.ids new n 0 := by
  rw [expression]
  refine (primary_numbers c).andThen fun left xs m d hd h => ?_
  refine (operands_numbers left d).imp fun e ys n h' => ?_
  obtain ⟨hs, hl⟩ := h
  obtain ⟨hs', hl'⟩ := h'
  exact ⟨hs'.trans (hs.append_right ys), by grind⟩
  termination_by 3 * c.size + 1
  decreasing_by all_goals omega

theorem operands_numbers (left : Expr) (c : Cursor) :
    (operands left c).Numbers fun e new n =>
      e.ids.Sublist (left.ids ++ new) ∧ new.length ≤ 2 * n := by
  rw [operands]
  split
  case h_1 spelling span d h ha =>
    refine .since ha ((Read.Numbers.occurrence _).andThen ?_)
    rintro op _ m e he rfl
    refine (primary_numbers e).andThen fun right xs n f hf h => ?_
    refine (operands_numbers _ f).imp fun e ys k h' => ?_
    obtain ⟨hs, hl⟩ := h
    obtain ⟨hs', hl'⟩ := h'
    have hb : (left.ids ++ op.id :: right.ids).Sublist (left.ids ++ op.id :: xs) :=
      (hs.cons_cons op.id).append_left left.ids
    exact ⟨by simpa using hs'.trans (hb.append_right ys), by grind⟩
  case h_2 => exact .done ⟨by simp, by simp⟩
  termination_by 3 * c.size
  decreasing_by all_goals omega

theorem primary_numbers (c : Cursor) :
    (primary c).Numbers fun e new n => Spends e.ids new n 0 := by
  rw [primary]
  split
  case h_1 ha => exact .since ha (.done ⟨by simp [Expr.ids], by simp⟩)
  case h_2 ha => exact .since ha (.done ⟨by simp [Expr.ids], by simp⟩)
  case h_3 spelling span d h ha =>
    refine .since ha ((Read.Numbers.occurrence _).andThen ?_)
    rintro name _ m e he rfl
    split
    case h_1 f h' ha =>
      refine .since ha ((parameter_numbers f).andThen fun arg xs n g hg h => ?_)
      refine (Read.Numbers.expect _).andThen ?_
      rintro _ _ k g' hg' rfl
      obtain ⟨hs, hl⟩ := h
      exact .done ⟨by simpa [Expr.ids] using hs, by grind⟩
    case h_2 => exact .done ⟨by simp [Expr.ids], by grind⟩
  case h_4 spelling span d h ha =>
    refine .since ha ((Read.Numbers.occurrence _).andThen ?_)
    rintro op _ m e he rfl
    refine (primary_numbers e).andThen fun operand xs n f hf h => .done ?_
    obtain ⟨hs, hl⟩ := h
    exact ⟨by simpa [Expr.ids] using hs, by grind⟩
  case h_5 d h ha =>
    refine .since ha ((expression_numbers d).andThen fun inner xs m e he h => ?_)
    refine (Read.Numbers.expect _).andThen ?_
    rintro _ _ n f hf rfl
    obtain ⟨hs, hl⟩ := h
    exact .done ⟨by simpa using hs, by grind⟩
  case h_6 =>
    refine (Read.Numbers.refuse _).andThen ?_
    rintro _ _ m d hd rfl
    exact .done ⟨by simp [Expr.ids], by simp⟩
  termination_by 3 * c.size
  decreasing_by all_goals omega

theorem parameter_numbers (c : Cursor) :
    (parameter c).Numbers fun q new n => Spends q.ids new n 0 := by
  rw [parameter]
  split
  case h_1 d h ha =>
    refine .since ha ?_
    split
    case h_1 spelling span e h' ha =>
      refine .since ha ((Read.Numbers.occurrence _).andThen ?_)
      rintro name _ m f hf rfl
      exact .done ⟨by simp [Param.ids], by grind⟩
    case h_2 =>
      refine (Read.Numbers.refuse _).andThen ?_
      rintro _ _ m e he rfl
      exact .done ⟨by simp [Param.ids], by simp⟩
  case h_2 => exact .done ⟨by simp [Param.ids], by simp⟩
  case h_3 =>
    split
    case isTrue =>
      refine (expression_numbers c).andThen fun expr xs m d hd h => .done ?_
      obtain ⟨hs, hl⟩ := h
      exact ⟨by simpa [Param.ids] using hs, by grind⟩
    case isFalse =>
      refine (Read.Numbers.refuse _).andThen ?_
      rintro _ _ m d hd rfl
      exact .done ⟨by simp [Param.ids], by simp⟩
  termination_by 3 * c.size + 2
  decreasing_by all_goals omega

end

/-! ### Declarations -/

theorem singleDeclaration_numbers (c : Cursor) :
    (singleDeclaration c).Numbers fun d new n => Spends d.ids new n 1 := by
  rw [singleDeclaration]
  split
  case h_1 start d h ha =>
    refine .since ha ?_
    split
    case h_1 spelling span e h' ha =>
      refine .since ha ((Read.Numbers.occurrence _).andThen ?_)
      rintro name _ m f hf rfl
      refine (Read.Numbers.expect _).andThen ?_
      rintro _ _ n g hg rfl
      refine (expression_numbers g).andThen fun value xs k g' hg' h => .fresh fun id => ?_
      obtain ⟨hs, hl⟩ := h
      exact ⟨by simpa [Decl.ids] using hs.append_right [id], by grind⟩
    case h_2 =>
      refine (Read.Numbers.refuse _).andThen ?_
      rintro _ _ m e he rfl
      exact .fresh fun id => ⟨by simp [Decl.ids], by simp⟩
  case h_2 spelling start d h ha =>
    refine .since ha ((Read.Numbers.occurrence _).andThen ?_)
    rintro type _ m d hd rfl
    split
    case h_1 spelling span e h' ha =>
      refine .since ha ((Read.Numbers.occurrence _).andThen ?_)
      rintro name _ n f hf rfl
      exact .fresh fun id => ⟨by simp [Decl.ids], by grind⟩
    case h_2 =>
      refine (Read.Numbers.refuse _).andThen ?_
      rintro _ _ n e he rfl
      exact .fresh fun id => ⟨by simp [Decl.ids], by grind⟩
  case h_3 =>
    refine (Read.Numbers.refuse _).andThen ?_
    rintro _ _ m d hd rfl
    exact .fresh fun id => ⟨by simp [Decl.ids], by simp⟩

/-- The semicolons in front of declarations make up for an id of their sequence. -/
theorem moreDeclarations_numbers (c : Cursor) :
    (moreDeclarations c).Numbers fun ds new n =>
      (Decl.idsOfList ds).Sublist new ∧ new.length + ds.length ≤ 2 * n := by
  rw [moreDeclarations]
  split
  case h_1 d h ha =>
    split
    case isTrue =>
      refine .since ha ((singleDeclaration_numbers d).andThen fun decl xs m e he h => ?_)
      refine (moreDeclarations_numbers e).andThen fun decls ys n f hf h' => .done ?_
      obtain ⟨hs, hl⟩ := h
      obtain ⟨hs', hl'⟩ := h'
      exact ⟨by simpa [Decl.idsOfList] using hs.append hs', by grind⟩
    case isFalse => exact .done ⟨by simp [Decl.idsOfList], by simp⟩
  case h_2 => exact .done ⟨by simp [Decl.idsOfList], by simp⟩
  termination_by c.size
  decreasing_by all_goals omega

theorem declaration_numbers (c : Cursor) :
    (declaration c).Numbers fun d new n => Spends d.ids new n 1 := by
  rw [declaration]
  refine (singleDeclaration_numbers c).andThen fun first xs m d hd h => ?_
  refine (moreDeclarations_numbers d).andThen fun rest ys n e he h' => ?_
  obtain ⟨hs, hl⟩ := h
  obtain ⟨hs', hl'⟩ := h'
  split
  case h_1 hr =>
    obtain rfl := List.getLast?_eq_none_iff.1 hr
    exact .done ⟨hs.trans (by simp), by grind⟩
  case h_2 last hr =>
    have hpos : 0 < rest.length := List.length_pos_of_ne_nil fun hn => by simp [hn] at hr
    refine .fresh fun id => ⟨?_, by grind⟩
    simpa [Decl.ids, Decl.idsOfList] using (hs.append hs').append_right [id]

/-! ### Commands -/

mutual

theorem singleCommand_numbers (c : Cursor) :
    (singleCommand c).Numbers fun e new n => Spends e.ids new n 0 := by
  rw [singleCommand]
  split
  case h_1 spelling start d h ha =>
    refine .since ha ((Read.Numbers.occurrence _).andThen ?_)
    rintro name _ m d hd rfl
    split
    case h_1 e h' ha =>
      refine .since ha ((expression_numbers e).andThen fun value xs n f hf h => .done ?_)
      obtain ⟨hs, hl⟩ := h
      exact ⟨by simpa [Command.ids] using hs, by grind⟩
    case h_2 e h' ha =>
      refine .since ha ((parameter_numbers e).andThen fun arg xs n f hf h => ?_)
      refine (Read.Numbers.expect _).andThen ?_
      rintro _ _ k g hg rfl
      obtain ⟨hs, hl⟩ := h
      exact .done ⟨by simpa [Command.ids] using hs, by grind⟩
    case h_3 =>
      refine (Read.Numbers.refuse _).andThen ?_
      rintro _ _ n e he rfl
      exact .done ⟨by simp [Command.ids], by grind⟩
  case h_2 d h ha =>
    refine .since ha ((command_numbers d).andThen fun inner xs m e he h => ?_)
    refine (Read.Numbers.expect _).andThen ?_
    rintro _ _ n f hf rfl
    obtain ⟨hs, hl⟩ := h
    exact .done ⟨by simpa using hs, by grind⟩
  case h_3 start d h ha =>
    refine .since ha ((declaration_numbers d).andThen fun decl xs m e he h => ?_)
    refine (Read.Numbers.expect _).andThen ?_
    rintro _ _ n f hf rfl
    refine (singleCommand_numbers f).andThen fun body ys k g hg h' => .done ?_
    obtain ⟨hs, hl⟩ := h
    obtain ⟨hs', hl'⟩ := h'
    exact ⟨by simpa [Command.ids] using hs.append hs', by grind⟩
  case h_4 start d h ha =>
    refine .since ha ((expression_numbers d).andThen fun cond xs m e he h => ?_)
    refine (Read.Numbers.expect _).andThen ?_
    rintro _ _ n f hf rfl
    refine (singleCommand_numbers f).andThen fun thenBranch ys k g hg h' => ?_
    obtain ⟨hs, hl⟩ := h
    obtain ⟨hs', hl'⟩ := h'
    split
    case h_1 g' _ ha =>
      refine .since ha ((singleCommand_numbers g').andThen fun elseBranch zs l e' he' h => .done ?_)
      obtain ⟨hs'', hl''⟩ := h
      exact ⟨by simpa [Command.ids] using hs.append (hs'.append hs''), by grind⟩
    case h_2 g' _ ha =>
      exact .since ha (.done ⟨by simpa [Command.ids] using hs.append hs', by grind⟩)
    case h_3 =>
      refine (Read.Numbers.refuse _).andThen ?_
      rintro _ _ l g' hg' rfl
      exact .done ⟨by simp [Command.ids], by grind⟩
  case h_5 start d h ha =>
    refine .since ha ((expression_numbers d).andThen fun cond xs m e he h => ?_)
    refine (Read.Numbers.expect _).andThen ?_
    rintro _ _ n f hf rfl
    refine (singleCommand_numbers f).andThen fun body ys k g hg h' => .done ?_
    obtain ⟨hs, hl⟩ := h
    obtain ⟨hs', hl'⟩ := h'
    exact ⟨by simpa [Command.ids] using hs.append hs', by grind⟩
  case h_6 start d h ha =>
    refine .since ha ((singleCommand_numbers d).andThen fun body xs m e he h => ?_)
    refine (Read.Numbers.expect _).andThen ?_
    rintro _ _ n f hf rfl
    refine (expression_numbers f).andThen fun cond ys k g hg h' => .done ?_
    obtain ⟨hs, hl⟩ := h
    obtain ⟨hs', hl'⟩ := h'
    exact ⟨by simpa [Command.ids] using hs.append hs', by grind⟩
  case h_7 ha => exact .since ha (.done ⟨by simp [Command.ids], by simp⟩)
  case h_8 =>
    refine (Read.Numbers.refuse _).andThen ?_
    rintro _ _ m d hd rfl
    exact .done ⟨by simp [Command.ids], by simp⟩
  termination_by 2 * c.size
  decreasing_by all_goals omega

theorem moreCommands_numbers (c : Cursor) :
    (moreCommands c).Numbers fun cs new n => Spends (Command.idsOfList cs) new n 0 := by
  rw [moreCommands]
  split
  case h_1 d h ha =>
    split
    case isTrue =>
      refine .since ha ((singleCommand_numbers d).andThen fun first xs m e he h => ?_)
      refine (moreCommands_numbers e).andThen fun rest ys n f hf h' => .done ?_
      obtain ⟨hs, hl⟩ := h
      obtain ⟨hs', hl'⟩ := h'
      exact ⟨by simpa [Command.idsOfList] using hs.append hs', by grind⟩
    case isFalse => exact .done ⟨by simp [Command.idsOfList], by simp⟩
  case h_2 => exact .done ⟨by simp [Command.idsOfList], by simp⟩
  termination_by 2 * c.size
  decreasing_by all_goals omega

theorem command_numbers (c : Cursor) :
    (command c).Numbers fun e new n => Spends e.ids new n 0 := by
  rw [command]
  refine (singleCommand_numbers c).andThen fun first xs m d hd h => ?_
  refine (moreCommands_numbers d).andThen fun rest ys n e he h' => ?_
  obtain ⟨hs, hl⟩ := h
  obtain ⟨hs', hl'⟩ := h'
  split
  case h_1 => exact .done ⟨hs.trans (by simp), by grind⟩
  case h_2 =>
    exact .done ⟨by simpa [Command.ids, Command.idsOfList] using hs.append hs', by grind⟩
  termination_by 2 * c.size + 1
  decreasing_by all_goals omega

end

theorem program_numbers (c : Cursor) :
    c.program.Numbers fun p new n => Spends p.command.ids new n 0 := by
  rw [program]
  refine (singleCommand_numbers c).andThen fun command xs m d hd h => ?_
  refine (Read.Numbers.expect _).andThen ?_
  rintro _ _ n e he rfl
  obtain ⟨hs, hl⟩ := h
  exact .done ⟨by simpa using hs, by grind⟩

/-- Ids are handed out for at most two nodes a token that is passed, and those of the tree are among
them in their order. -/
theorem program_issued (c : Cursor) :
    c.issued ≤ c.program.next.issued ∧
      c.program.next.issued + 2 * c.index ≤ c.issued + 2 * c.program.next.index ∧
      c.program.node.command.ids.Sublist
        ((NodeId.first c.program.next.issued).drop c.issued) := by
  obtain ⟨new, n, hn, hi, hs, hl⟩ := c.program_numbers
  have hstop := hn.stop_eq
  exact ⟨by omega, by omega, hn.eq_drop_first ▸ hs⟩

/-- Reading starts in front of the first token, with the first id. -/
theorem ofTokens_start (ts : List Token) :
    (ofTokens ts).index = 0 ∧ (ofTokens ts).issued = 0 ∧
      (ofTokens ts).pending.length ≤ ts.length := by
  unfold ofTokens
  split
  · simp
  · split <;> simp

/-- No more tokens are passed than there are. -/
theorem Leads.index_le_length {ts : List Token} {c : Cursor} (h : (ofTokens ts).Leads c) :
    c.index ≤ ts.length := by
  obtain ⟨hstart, -, hle⟩ := ofTokens_start ts
  obtain ⟨us, hp, hi, -⟩ := h
  have hl : us.length ≤ (ofTokens ts).pending.length := by simp [hp]
  omega

end Cursor

/-! ## Programs -/

namespace Program

variable {ts : List Token}

/-- The ids of a program are in source order, if it has so few tokens that they do not run out. -/
theorem pairwise_lt_ids (h : 2 * ts.length < UInt32.size) :
    (ofTokens ts).node.command.ids.Pairwise (· < ·) := by
  obtain ⟨hindex, hissued, -⟩ := Cursor.ofTokens_start ts
  obtain ⟨-, hle, hs⟩ := (Cursor.ofTokens ts).program_issued
  have hlength := (ofTokens ts).leads.index_le_length
  have hsize : (ofTokens ts).next.issued ≤ UInt32.size := by
    unfold ofTokens at hlength ⊢
    omega
  exact (NodeId.pairwise_lt_first hsize).sublist (hs.trans (List.drop_sublist ..))

theorem nodup_map_id_labelled (h : 2 * ts.length < UInt32.size) :
    ((ofTokens ts).node.command.labelled.map Labelled.id).Nodup := by
  obtain ⟨ids, hp, hs⟩ := (ofTokens ts).node.command.map_id_labelled_subperm
  have hn : ids.Nodup :=
    ((pairwise_lt_ids h).sublist hs).imp fun hlt he => absurd (he ▸ hlt) (UInt32.lt_irrefl _)
  exact hp.nodup_iff.1 hn

end Program

end TriLang
