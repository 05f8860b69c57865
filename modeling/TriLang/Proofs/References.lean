import TriLang.Proofs.Reordering

/-!
# References between tables

What occurrences are bound to is recorded in one table and the declarations in another, and ids may
collide, so that later entries replace earlier ones.  Even so no reference is left dangling: a name
is bound to declarations only while they are in the table, and nothing is ever taken out of it.  As
declarations are made inside a `let` only, none comes into the scope of the standard environment.
-/

namespace TriLang

/-- The tables of `n` refer to nothing that they do not hold. -/
structure Naming.Linked (n : Naming) : Prop where
  bound : ∀ o i : NodeId, n.bindings[o]? = some (Binding.declared i) → i ∈ n.declarations
  depth_pos : ∀ (i : NodeId) (e : DeclEntry), n.declarations[i]? = some e → 1 ≤ e.depth
  /-- What is declared again has been declared by the program. -/
  previous : ∀ (name : String) (place : Option Span) (span : Span),
    ⟨.alreadyDeclared name place, span⟩ ∈ n.errors → place.isSome

namespace NamingState

/-- The scopes of a program bind names to declarations in the table, and the root to predeclared
entries. -/
structure Linked (s : NamingState) : Prop where
  found : s.found.Linked
  inner : ∀ scope ∈ s.scopes.inner, ∀ q ∈ scope, ∃ i ∈ s.found.declarations, q.2 = .declared i
  root : ∀ q ∈ s.scopes.root, ∃ b, q.2 = .builtin b

theorem linked_initial : initial.Linked where
  found := ⟨by simp [initial, Naming.empty], by simp [initial, Naming.empty],
    by simp [initial, Naming.empty]⟩
  inner := List.forall_mem_nil _
  root q hq := by
    obtain ⟨b, -, rfl⟩ := List.mem_map.1 hq
    exact ⟨b, rfl⟩

namespace Linked

variable {s : NamingState} {name : String} {i : NodeId}

theorem push (h : s.Linked) : Linked { s with scopes := s.scopes.push } :=
  ⟨h.found, List.forall_mem_cons.2 ⟨List.forall_mem_nil _, h.inner⟩, h.root⟩

theorem pop (h : s.Linked) : Linked { s with scopes := s.scopes.pop } :=
  ⟨h.found, fun scope hs => h.inner scope (List.mem_of_mem_tail hs), h.root⟩

/-- A declaration that a name stands for is in the table. -/
theorem mem_declarations (h : s.Linked) (hb : s.scopes.find? name = some (.declared i)) :
    i ∈ s.found.declarations := by
  obtain ⟨scope, hscope, hlookup⟩ := List.exists_of_findSome?_eq_some hb
  obtain ⟨before, after, rfl, -⟩ := List.lookup_eq_some_iff.1 hlookup
  have hq : (name, Binding.declared i) ∈ before ++ (name, .declared i) :: after := by simp
  rcases List.mem_append.1 hscope with hscope | hscope
  · obtain ⟨j, hj, heq⟩ := h.inner _ hscope _ hq
    cases heq
    exact hj
  · rw [List.mem_singleton.1 hscope] at hq
    obtain ⟨b, hb⟩ := h.root _ hq
    cases hb

/-- What a scope above the root has a name for already was declared somewhere. -/
theorem isSome_spanOf? (h : s.Linked) (hs : s.scopes.inner ≠ []) {b : Binding}
    (hb : s.scopes.innermost.lookup name = some b) : (s.spanOf? b).isSome := by
  obtain ⟨before, after, hscope, -⟩ := List.lookup_eq_some_iff.1 hb
  obtain ⟨scope, outer, hinner⟩ := List.exists_cons_of_ne_nil hs
  have hinnermost : s.scopes.innermost = scope := by rw [Scopes.innermost, hinner]; rfl
  have hq : (name, b) ∈ scope := by rw [← hinnermost, hscope]; simp
  obtain ⟨i, hi, rfl⟩ := h.inner scope (by simp [hinner]) _ hq
  rw [spanOf?, Option.isSome_map]
  exact Std.ExtTreeMap.mem_iff_isSome_getElem?.1 hi

theorem fail (h : s.Linked) {fault : NamingFault} {span : Span}
    (hf : ∀ name place, fault = .alreadyDeclared name place → place.isSome) :
    (s.fail fault span).Linked := by
  refine ⟨⟨h.found.bound, h.found.depth_pos, fun name place span he => ?_⟩, h.inner, h.root⟩
  rcases List.mem_append.1 he with he | he
  · exact h.found.previous name place span he
  · have heq := List.mem_singleton.1 he
    exact hf name place (NamingError.mk.inj heq).1.symm

theorem lookUp (h : s.Linked) (o : Occurrence) : (s.lookUp o).Linked := by
  unfold NamingState.lookUp
  split
  case h_1 b hb =>
    refine ⟨⟨fun o' i hi => ?_, h.found.depth_pos, h.found.previous⟩, h.inner, h.root⟩
    rw [Std.ExtTreeMap.getElem?_insert] at hi
    split at hi
    · cases hi
      exact h.mem_declarations hb
    · exact h.found.bound o' i hi
  case h_2 => exact h.fail nofun

/-- A declaration comes into the table together with its name into a scope. -/
theorem enter (h : s.Linked) (hs : s.scopes.inner ≠ []) (name : String) (i : NodeId) {e : DeclEntry}
    (he : 1 ≤ e.depth) :
    Linked ⟨s.scopes.insert name (.declared i),
      { s.found with declarations := s.found.declarations.insert i e }⟩ := by
  have hmem {j : NodeId} (hj : j ∈ s.found.declarations) : j ∈ s.found.declarations.insert i e :=
    Std.ExtTreeMap.mem_insert.2 (.inr hj)
  refine ⟨⟨fun o j hj => hmem (h.found.bound o j hj), fun j e' hj => ?_, h.found.previous⟩, ?_, ?_⟩
  · rw [Std.ExtTreeMap.getElem?_insert] at hj
    split at hj
    · cases hj
      exact he
    · exact h.found.depth_pos j e' hj
  · obtain ⟨⟨_ | ⟨scope, outer⟩, root⟩, found⟩ := s
    · exact absurd rfl hs
    · obtain ⟨hscope, houter⟩ := List.forall_mem_cons.1 h.inner
      have hself : i ∈ found.declarations.insert i e := Std.ExtTreeMap.mem_insert_self
      refine List.forall_mem_cons.2 ⟨List.forall_mem_cons.2 ⟨⟨i, hself, rfl⟩, fun q hq => ?_⟩,
        fun scope' hscope' q hq => ?_⟩
      · obtain ⟨j, hj, heq⟩ := hscope q hq
        exact ⟨j, hmem hj, heq⟩
      · obtain ⟨j, hj, heq⟩ := houter scope' hscope' q hq
        exact ⟨j, hmem hj, heq⟩
  · obtain ⟨⟨_ | ⟨scope, outer⟩, root⟩, found⟩ := s
    · exact absurd rfl hs
    · exact h.root

theorem declare (h : s.Linked) (hs : s.scopes.inner ≠ []) {rightSide : NamingState → NamingState}
    (hr : ∀ s : NamingState, s.Linked → (rightSide s).Linked) (id : NodeId) (span : Span)
    (name : Occurrence) (type : Option String) :
    (s.declare id span name type rightSide).Linked := by
  unfold NamingState.declare
  split
  case h_1 existing hinsert =>
    refine h.fail fun other place heq => ?_
    cases heq
    exact h.isSome_spanOf? hs (Scopes.insertNew_eq_error_iff.1 hinsert)
  case h_2 scopes hinsert =>
    obtain ⟨-, rfl⟩ := Scopes.insertNew_eq_ok_iff.1 hinsert
    have hdepth : 1 ≤ (s.scopes.insert name.spelling (.declared id)).depth :=
      List.length_pos_iff.2 (Scopes.pop_insert hs name.spelling (.declared id)).1
    exact hr _ (h.enter hs name.spelling id hdepth)

end Linked

theorem threads_linked :
    Threads (fun s t _ => t.scopes = s.scopes ∧ (s.Linked → t.Linked))
      (fun s t _ => s.KeepsOuter t ∧ (s.Linked → s.scopes.inner ≠ [] → t.Linked)) where
  refl _ := ⟨rfl, fun h => h⟩
  append h h' := ⟨h'.1.trans h.1, fun hs => h'.2 (h.2 hs)⟩
  lookUp o s := ⟨scopes_lookUp o s, fun h => h.lookUp o⟩
  malformed _ _ _ := ⟨rfl, fun h => h.fail nofun⟩
  letIn h h' :=
    ⟨scopes_letIn h.1 h'.1, fun hs => (h'.2 (h.2 hs.push (List.cons_ne_nil _ _))).pop⟩
  appendDecl h h' := ⟨h.1.trans h'.1, fun hs hne => h'.2 (h.2 hs hne) (h.1 hne).1⟩
  decl h := ⟨.of_eq h.1, fun hs _ => h.2 hs⟩
  declare id span name type s hr :=
    ⟨keepsOuter_declare id span name type s fun s => (hr s).1,
      fun h hs => h.declare hs (fun s => (hr s).2) id span name type⟩

end NamingState

theorem Naming.linked_ofProgram (p : Program) : (ofProgram p).Linked :=
  ((p.command.findNames_threads NamingState.threads_linked .initial).2
    NamingState.linked_initial).found

end TriLang
