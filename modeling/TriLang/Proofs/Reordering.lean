import Mathlib.Logic.Relation
import TriLang.Proofs.Naming
import TriLang.Proofs.Traversal

/-!
# Commands in another order

A command leaves the scopes around it as they are: a declaration changes no scope but that of its
`let`, which is closed with it.  So the commands of a sequence know nothing of each other, and their
order makes no difference to what names stand for.
-/

namespace TriLang

/-! ## Scopes around a command -/

namespace Scopes

/-- A name bound in a scope above the root is gone when the scope is closed. -/
theorem pop_insert {ss : Scopes} (h : ss.inner ≠ []) (name : String) (b : Binding) :
    (ss.insert name b).inner ≠ [] ∧ (ss.insert name b).pop = ss.pop := by
  obtain ⟨_ | ⟨scope, outer⟩, root⟩ := ss
  · exact absurd rfl h
  · exact ⟨List.cons_ne_nil _ _, rfl⟩

end Scopes

namespace NamingState

/-- From `s` to `t` no scope changes but the innermost, if `s` is not in the root. -/
def KeepsOuter (s t : NamingState) : Prop :=
  s.scopes.inner ≠ [] → t.scopes.inner ≠ [] ∧ t.scopes.pop = s.scopes.pop

variable {s t u : NamingState}

theorem KeepsOuter.of_eq (h : t.scopes = s.scopes) : s.KeepsOuter t :=
  fun hs => ⟨h ▸ hs, h ▸ rfl⟩

theorem KeepsOuter.trans (h : s.KeepsOuter t) (h' : t.KeepsOuter u) : s.KeepsOuter u := by
  intro hs
  obtain ⟨ht, hst⟩ := h hs
  obtain ⟨hu, htu⟩ := h' ht
  exact ⟨hu, htu.trans hst⟩

theorem scopes_lookUp (o : Occurrence) (s : NamingState) : (s.lookUp o).scopes = s.scopes := by
  unfold lookUp
  split <;> rfl

/-- A declaration is entered into the innermost scope, if it is at all. -/
theorem keepsOuter_declare {rightSide : NamingState → NamingState} (id : NodeId) (span : Span)
    (name : Occurrence) (type : Option String) (s : NamingState)
    (hr : ∀ s : NamingState, (rightSide s).scopes = s.scopes) :
    s.KeepsOuter (s.declare id span name type rightSide) := by
  unfold declare
  split
  case h_1 => exact .of_eq rfl
  case h_2 scopes h =>
    intro hs
    rw [hr, ← (Scopes.insertNew_eq_ok_iff.1 h).2]
    exact Scopes.pop_insert hs name.spelling (.declared id)

/-- Closing the scope of a `let` gives back the scopes in front of it. -/
theorem scopes_letIn (h : KeepsOuter { s with scopes := s.scopes.push } t)
    (h' : u.scopes = t.scopes) : u.scopes.pop = s.scopes := by
  rw [h', (h (List.cons_ne_nil _ _)).2]
  rfl

theorem threads_scopes :
    Threads (fun s t _ => t.scopes = s.scopes) (fun s t _ => s.KeepsOuter t) where
  refl _ := rfl
  append h h' := h'.trans h
  lookUp := scopes_lookUp
  malformed _ _ _ := rfl
  letIn := scopes_letIn
  appendDecl := .trans
  decl := .of_eq
  declare := keepsOuter_declare

end NamingState

theorem Command.scopes_findNames (c : Command) (s : NamingState) :
    (c.findNames s).scopes = s.scopes := c.findNames_threads NamingState.threads_scopes s

/-! ## Other orders -/

/-- The commands differ in the order of the items of one sequence. -/
inductive Command.Reorders : Command → Command → Prop
  | items {s cs ds} (h : cs.Perm ds) : Reorders (.sequence s cs) (.sequence s ds)
  | item {s c d before after} (h : Reorders c d) :
      Reorders (.sequence s (before ++ c :: after)) (.sequence s (before ++ d :: after))
  | thenBranch {s e c d b} (h : Reorders c d) : Reorders (.ifElse s e c b) (.ifElse s e d b)
  | elseBranch {s e a c d} (h : Reorders c d) : Reorders (.ifElse s e a c) (.ifElse s e a d)
  | onlyBranch {s e c d} (h : Reorders c d) : Reorders (.ifNoElse s e c) (.ifNoElse s e d)
  | letBody {s x c d} (h : Reorders c d) : Reorders (.letIn s x c) (.letIn s x d)
  | whileBody {s e c d} (h : Reorders c d) : Reorders (.whileDo s e c) (.whileDo s e d)
  | repeatBody {s c d e} (h : Reorders c d) : Reorders (.repeatUntil s c e) (.repeatUntil s d e)

theorem Command.findingsOfList_eq_flatMap (env : Env) (cs : List Command) :
    Command.findingsOfList env cs = cs.flatMap (·.findings env) := by
  induction cs with
  | nil => rfl
  | cons c cs ih => rw [Command.findingsOfList, ih, List.flatMap_cons]

namespace Command.Reorders

/-- The same is found, as the items of a sequence are all in the environment of the sequence. -/
theorem perm_findings {c d : Command} (h : c.Reorders d) (env : Env) :
    (c.findings env).Perm (d.findings env) := by
  induction h generalizing env with
  | items h =>
    rw [Command.findings, Command.findings, findingsOfList_eq_flatMap, findingsOfList_eq_flatMap]
    exact h.flatMap_right _
  | item _ ih =>
    rw [Command.findings, Command.findings, findingsOfList_eq_flatMap, findingsOfList_eq_flatMap,
      List.flatMap_append, List.flatMap_append, List.flatMap_cons, List.flatMap_cons]
    exact ((ih env).append_right _).append_left _
  | thenBranch _ ih => exact ((ih env).append_right _).append_left _
  | elseBranch _ ih => exact ((ih env).append_left _).append_left _
  | onlyBranch _ ih => exact (ih env).append_left _
  | letBody _ ih => exact (ih _).append_left _
  | whileBody _ ih => exact (ih env).append_left _
  | repeatBody _ ih => exact (ih env).append_right _

theorem perm_findings_of_steps {c d : Command} (h : Relation.ReflTransGen Reorders c d)
    (env : Env) : (c.findings env).Perm (d.findings env) := by
  induction h with
  | refl => exact .refl _
  | tail _ h ih => exact ih.trans (h.perm_findings env)

end Command.Reorders

theorem Finding.nodup_of_perm {fs gs : List Finding} (h : fs.Perm gs)
    (hd : ((fs.flatMap labelled).map Labelled.id).Nodup) :
    ((gs.flatMap labelled).map Labelled.id).Nodup :=
  ((h.flatMap_right labelled).map Labelled.id).nodup_iff.1 hd

/-- Where ids are distinct, findings recorded in another order make the same tables, and errors in
another order. -/
theorem Naming.add_perm {fs gs : List Finding} (h : fs.Perm gs)
    (hd : ((fs.flatMap Finding.labelled).map Labelled.id).Nodup) :
    (empty.add gs).bindings = (empty.add fs).bindings ∧
      (empty.add gs).declarations = (empty.add fs).declarations ∧
      (empty.add gs).errors.Perm (empty.add fs).errors := by
  have hg := Finding.nodup_of_perm h hd
  refine ⟨Std.ExtTreeMap.ext_getElem? fun i => Option.ext fun b => ?_,
    Std.ExtTreeMap.ext_getElem? fun i => Option.ext fun e => ?_, (h.filterMap _).symm.append_left _⟩
  · rw [Finding.bindings_eq_some hg, Finding.bindings_eq_some hd]
    simp only [h.mem_iff]
  · rw [Finding.declarations_eq_some hg, Finding.declarations_eq_some hd]
    simp only [h.mem_iff]

/-- Naming a command leaves the scopes as they are.  So where ids are distinct, commands that follow
each other may change places: their names stand for the same, and the same errors are reported. -/
theorem Command.findNames_independent :
    (∀ (c : Command) (s : NamingState), (c.findNames s).scopes = s.scopes) ∧
      ∀ p q : Program, (p.command.labelled.map Labelled.id).Nodup →
        Relation.ReflTransGen Command.Reorders p.command q.command →
        (Naming.ofProgram q).bindings = (Naming.ofProgram p).bindings ∧
          (Naming.ofProgram q).declarations = (Naming.ofProgram p).declarations ∧
          (Naming.ofProgram q).errors.Perm (Naming.ofProgram p).errors := by
  refine ⟨Command.scopes_findNames, fun p q hp h => ?_⟩
  have hperm : p.findings.Perm q.findings := Reorders.perm_findings_of_steps h []
  have hlabelled (r : Program) : r.findings.flatMap Finding.labelled = r.command.labelled :=
    r.command.flatMap_labelled_findings []
  have hfindings : ((p.findings.flatMap Finding.labelled).map Labelled.id).Nodup := by
    rwa [hlabelled]
  have hq : (q.command.labelled.map Labelled.id).Nodup :=
    hlabelled q ▸ Finding.nodup_of_perm hperm hfindings
  rw [Naming.ofProgram_eq_add p hp, Naming.ofProgram_eq_add q hq]
  exact Naming.add_perm hperm hfindings

/-- The program `let const n ~ m in begin … end` around `commands`, where `m` is not declared. -/
def Program.insideLet (commands : List Command) : Program where
  command :=
    .letIn ⟨0, 63⟩ (.const 1 ⟨4, 15⟩ ⟨2, "n", ⟨10, 11⟩⟩ (.name ⟨14, 15⟩ ⟨3, "m", ⟨14, 15⟩⟩))
      (.sequence ⟨25, 59⟩ commands)
  span := ⟨0, 63⟩

/-- The command `x := n`, where `x` is not declared. -/
def Command.assignsUndeclared : Command :=
  .assign ⟨25, 31⟩ ⟨4, "x", ⟨25, 26⟩⟩ (.name ⟨30, 31⟩ ⟨5, "n", ⟨30, 31⟩⟩)

/-- The command `let const n ~ k in nothing`, where `k` is not declared. -/
def Command.declaresAgain : Command :=
  .letIn ⟨33, 59⟩ (.const 6 ⟨37, 48⟩ ⟨7, "n", ⟨43, 44⟩⟩ (.name ⟨47, 48⟩ ⟨8, "k", ⟨47, 48⟩⟩))
    (.blank ⟨52, 59⟩)

/-- The declaration in one command is out of scope in the other, whichever is first. -/
theorem Command.findNames_independent_insideLet :
    let p := Program.insideLet [assignsUndeclared, declaresAgain]
    let q := Program.insideLet [declaresAgain, assignsUndeclared]
    (p.command.labelled.map Labelled.id).Nodup ∧
      Relation.ReflTransGen Reorders p.command q.command ∧
      (Naming.ofProgram q).bindings = (Naming.ofProgram p).bindings ∧
      (Naming.ofProgram p).bindings[(5 : NodeId)]? = some (.declared 1) ∧
      (Naming.ofProgram p).errors.map NamingError.span = [⟨14, 15⟩, ⟨25, 26⟩, ⟨47, 48⟩] ∧
      (Naming.ofProgram q).errors.map NamingError.span = [⟨14, 15⟩, ⟨47, 48⟩, ⟨25, 26⟩] := by
  intro p q
  have hp : (p.command.labelled.map Labelled.id).Nodup := by decide
  have hreorders : Reorders p.command q.command := .letBody (.items (.swap ..))
  have hsteps := Relation.ReflTransGen.single hreorders
  exact ⟨hp, hsteps, (findNames_independent.2 p q hp hsteps).1, by decide +kernel,
    by decide +kernel, by decide +kernel⟩

end TriLang
