import TriLang.Proofs.Leaves
import TriLang.Proofs.LexicalClasses

/-!
# Operators keep their meaning

A program declares names only, and no name is spelled like an operator, also where the text is no
program.  So in whatever scope an operator is looked up, it stands for the predeclared operator of
its spelling, or for nothing.
-/

namespace TriLang

/-- No name in a source is spelled like an operator in it. -/
theorem Tokens.spelling_ne_of_operator {source : String} {t u : Token}
    (ht : t ∈ (ofSource source).toList) (hu : u ∈ (ofSource source).toList)
    (hname : t.kind = .identifier) (hop : u.kind = .operator) : t.spelling ≠ u.spelling := by
  have ht := spells_of_proper ht (by rw [hname]; decide)
  have hu := spells_of_proper hu (by rw [hop]; decide)
  rw [hname] at ht
  rw [hop] at hu
  intro heq
  rw [heq] at ht
  cases ht.functional hu

/-! ## What operators stand for -/

namespace Program

variable {source : String}

/-- The tree that is read from `source`, a program or not. -/
def ofSource (source : String) : Program := (ofTokens (Tokens.ofSource source).toList).node

theorem token_mem_of_mem_leaves {x : Leaf} (h : x ∈ (ofSource source).command.leaves) :
    x.token ∈ (Tokens.ofSource source).toList :=
  (leaves_sublist _).subset (List.mem_map_of_mem h)

/-- A declaration that is accepted somewhere has the name of a leaf. -/
theorem exists_leaf_of_accepted {d : Declared} {name : Occurrence} {p : Program}
    (h : .accepted d name ∈ p.findings) :
    ∃ id span o, .declared id span o ∈ p.command.leaves ∧ o.spelling = d.entry.name := by
  have hm : .declaration d.id d.entry.span d.entry.name ∈ p.command.mentions := by
    rw [← p.command.flatMap_mentions_findings []]
    exact List.mem_flatMap.2 ⟨_, h, List.mem_singleton_self _⟩
  rw [← p.command.filterMap_mention?_leaves_perm.mem_iff, List.mem_filterMap] at hm
  obtain ⟨x, hx, hm⟩ := hm
  cases x with
  | declared id span o =>
    obtain ⟨-, -, hname⟩ := Mention.declaration.inj (Option.some_inj.1 hm)
    exact ⟨id, span, o, hx, hname⟩
  | _ => cases hm

/-- Where an operator is looked up, no declaration has its spelling. -/
theorem find?_eq_none_of_operator {o : Occurrence} {env : Env}
    (ho : .operator o ∈ (ofSource source).command.leaves)
    (hf : .use o env ∈ (ofSource source).findings) : env.find? o.spelling = none := by
  refine Option.eq_none_iff_forall_ne_some.2 fun d hd => ?_
  obtain ⟨ds, hds, hfind⟩ := List.exists_of_findSome?_eq_some hd
  have hname : d.entry.name = o.spelling := by simpa using List.find?_some hfind
  have hcovers : Finding.Covers (ofSource source).findings [] :=
    (ofSource source).command.covers_findings []
  have hmem : d ∈ env.flatten := List.mem_flatten.2 ⟨ds, hds, List.mem_of_find?_eq_some hfind⟩
  rcases hcovers o env hf d hmem with h | ⟨name, ha⟩
  · cases h
  · obtain ⟨i, s, o', ho', heq⟩ := exists_leaf_of_accepted ha
    have hne := Tokens.spelling_ne_of_operator (token_mem_of_mem_leaves ho')
      (token_mem_of_mem_leaves ho) rfl rfl
    exact hne (heq.trans hname)

end Program

namespace Naming

/-- In `n` the occurrence `o` stands for the predeclared entry of its spelling, and is reported if
there is none. -/
structure Predeclares (n : Naming) (o : Occurrence) : Prop where
  bound : ∀ b ∈ Builtin.all, b.name = o.spelling → n.bindings[o.id]? = some (.builtin b)
  unbound : (∀ b ∈ Builtin.all, b.name ≠ o.spelling) →
    n.bindings[o.id]? = none ∧ ⟨.undeclared o.spelling, o.span⟩ ∈ n.errors

theorem Agrees.predeclares {n : Naming} {fs : List Finding} (h : n.Agrees fs) {o : Occurrence}
    {env : Env} (hf : .use o env ∈ fs) (hn : env.find? o.spelling = none) : n.Predeclares o := by
  have hm : env.meaning? o.spelling = (Builtin.find? o.spelling).map .builtin := by
    rw [Env.meaning?, hn]
  have hb := h.bound o env hf
  constructor
  · intro b hmem hname
    rw [hb, hm, Builtin.find?,
      (Builtin.find?_eq_some_of_nodup Builtin.nodup_all_name).2 ⟨hmem, hname⟩]
    rfl
  · intro hnone
    have hm : env.meaning? o.spelling = none := by
      rw [hm, Builtin.find?, List.find?_eq_none.2 (by simpa using hnone)]
      rfl
    refine ⟨hb.trans hm, ?_⟩
    rw [h.errors, List.mem_filterMap]
    exact ⟨_, hf, by simp [Finding.error?, hm]⟩

/-- What is recorded of a source text agrees with lexical scoping, as long as ids do not wrap. -/
theorem agrees_ofSource {source : String} (hs : source.utf8ByteSize < 2 ^ 31 - 1) :
    (ofProgram (.ofSource source)).Agrees (Program.ofSource source).findings := by
  have hl : 2 * (Tokens.ofSource source).toList.length < UInt32.size := by
    have := Tokens.length_toList_le source
    show _ < 2 ^ 32
    omega
  have hd : ((Program.ofSource source).command.labelled.map Labelled.id).Nodup :=
    Program.nodup_map_id_labelled hl
  rw [ofProgram_eq_add _ hd]
  exact Finding.agrees_add ((Program.ofSource source).command.flatMap_labelled_findings [] ▸ hd)

/-- Whatever a source declares and however deep its scopes are, an operator that is looked up
stands for the predeclared one or for nothing.  All operators are looked up, but for those inside
declarations that are rejected. -/
theorem ofSource_operator {source : String} (hs : source.utf8ByteSize < 2 ^ 31 - 1)
    {o : Occurrence} (ho : .operator o ∈ (Program.ofSource source).command.leaves) :
    (∀ env, .use o env ∈ (Program.ofSource source).findings →
      env.find? o.spelling = none ∧ (ofProgram (.ofSource source)).Predeclares o ∧
        ∀ i, (ofProgram (.ofSource source)).bindings[o.id]? ≠ some (.declared i)) ∧
    ((∃ env, .use o env ∈ (Program.ofSource source).findings) ∨
      ∃ decl name previous, .rejected decl name previous ∈ (Program.ofSource source).findings ∧
        .use o ∈ decl.mentions) := by
  have hagrees := agrees_ofSource hs
  refine ⟨fun env hf => ?_, ?_⟩
  · have hn := Program.find?_eq_none_of_operator ho hf
    refine ⟨hn, hagrees.predeclares hf hn, fun i hi => ?_⟩
    rw [hagrees.bound o env hf, Env.meaning?, hn] at hi
    simp at hi
  · have hm : .use o ∈ (Program.ofSource source).command.mentions := by
      rw [← (Program.ofSource source).command.filterMap_mention?_leaves_perm.mem_iff]
      exact List.mem_filterMap.2 ⟨_, ho, rfl⟩
    rw [← (Program.ofSource source).command.flatMap_mentions_findings [], List.mem_flatMap] at hm
    obtain ⟨f, hf, hm⟩ := hm
    cases f with
    | use o' env =>
      obtain rfl : o = o' := by simpa [Finding.mentions] using hm
      exact .inl ⟨env, hf⟩
    | rejected decl name previous => exact .inr ⟨decl, name, previous, hf, hm⟩
    | _ => simp [Finding.mentions] at hm

/-- A sum by the predeclared operator, times what by no operator there is. -/
theorem ofSource_operator_unknownSign :
    let source := "let const n ~ 1 in\n  n := n + 2 *= n"
    let plus : Occurrence := ⟨4, "+", ⟨28, 29⟩⟩
    let times : Occurrence := ⟨5, "*=", ⟨32, 34⟩⟩
    source.utf8ByteSize < 2 ^ 31 - 1 ∧ .operator plus ∈ (Program.ofSource source).command.leaves ∧
      .operator times ∈ (Program.ofSource source).command.leaves ∧
      (ofProgram (.ofSource source)).bindings[plus.id]? =
        some (.builtin (Builtin.integerOperator "+")) ∧
      (ofProgram (.ofSource source)).bindings[times.id]? = none ∧
      ⟨.undeclared "*=", times.span⟩ ∈ (ofProgram (.ofSource source)).errors := by
  intro source plus times
  have hs : source.utf8ByteSize < 2 ^ 31 - 1 := by decide +kernel
  have hplus : .operator plus ∈ (Program.ofSource source).command.leaves := by decide +kernel
  have htimes : .operator times ∈ (Program.ofSource source).command.leaves := by decide +kernel
  have herrors : (Program.ofSource source).findings.filterMap Finding.error? =
      [⟨.undeclared "*=", times.span⟩] := by decide +kernel
  have looked {o : Occurrence} (ho : .operator o ∈ (Program.ofSource source).command.leaves) :
      (ofProgram (.ofSource source)).Predeclares o := by
    obtain ⟨h, ⟨env, hf⟩ | ⟨decl, name, previous, hf, -⟩⟩ := ofSource_operator hs ho
    · exact (h env hf).2.1
    · have hm : ⟨.alreadyDeclared name.spelling (some previous), name.span⟩ ∈
          (Program.ofSource source).findings.filterMap Finding.error? :=
        List.mem_filterMap.2 ⟨_, hf, rfl⟩
      simp [herrors] at hm
  have hunknown : ∀ b ∈ Builtin.all, b.name ≠ times.spelling := by decide
  exact ⟨hs, hplus, htimes, (looked hplus).bound _ (by decide) rfl,
    (looked htimes).unbound hunknown⟩

end Naming

end TriLang
