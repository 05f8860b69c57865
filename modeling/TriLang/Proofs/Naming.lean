import Mathlib.Data.List.Basic
import Mathlib.Data.List.Nodup
import Mathlib.Data.List.Pairwise
import TriLang.Proofs.Scoping

/-!
# Naming agrees with lexical scoping

The naming of a program goes through it with a stack of scopes that it changes on the way.  At each
place the stack is the environment of that place, and what is recorded there is the finding made in
that environment.  So the tables hold what lexical scoping says, each entry under its own id.
-/

namespace TriLang

/-! ## Tables -/

theorem NodeMap.getElem?_insertMany_eq_some {α : Type} {ps : List (NodeId × α)}
    (h : (ps.map Prod.fst).Nodup) {i : NodeId} {v : α} :
    ((∅ : NodeMap α).insertMany ps)[i]? = some v ↔ (i, v) ∈ ps := by
  have hd : ps.Pairwise fun p q => ¬compare p.1 q.1 = .eq := by
    refine (List.pairwise_map.1 h).imp fun hn hc => hn ?_
    exact Std.LawfulEqCmp.eq_of_compare hc
  constructor
  · intro hv
    by_cases hi : i ∈ ps.map Prod.fst
    · obtain ⟨⟨j, w⟩, hm, rfl⟩ := List.mem_map.1 hi
      rw [Std.ExtTreeMap.getElem?_insertMany_list_of_mem Std.ReflCmp.compare_self hd hm] at hv
      cases hv
      exact hm
    · rw [Std.ExtTreeMap.getElem?_insertMany_list_of_contains_eq_false (by simpa using hi)] at hv
      simp at hv
  · exact Std.ExtTreeMap.getElem?_insertMany_list_of_mem Std.ReflCmp.compare_self hd

/-! ## The standard environment -/

namespace Builtin

theorem find?_eq_some_of_nodup {bs : List Builtin} (h : (bs.map Builtin.name).Nodup) {name : String}
    {b : Builtin} : bs.find? (·.name == name) = some b ↔ b ∈ bs ∧ b.name = name := by
  constructor
  · intro hb
    exact ⟨List.mem_of_find?_eq_some hb, by simpa using List.find?_some hb⟩
  · rintro ⟨hb, rfl⟩
    rcases hf : bs.find? (·.name == b.name) with _ | c
    · exact absurd BEq.rfl (List.find?_eq_none.1 hf b hb)
    · have hc := List.mem_of_find?_eq_some hf
      have hn : c.name = b.name := by simpa using List.find?_some hf
      rw [hf, List.inj_on_of_nodup_map h hc hb hn]

theorem lookup_map (bs : List Builtin) (name : String) :
    (bs.map fun b => (b.name, Binding.builtin b)).lookup name =
      (bs.find? (·.name == name)).map .builtin := by
  induction bs with
  | nil => rfl
  | cons b bs ih =>
    rw [List.map_cons, List.lookup_cons, List.find?_cons, ih, Bool.beq_comm]
    cases b.name == name <;> rfl

end Builtin

theorem Scopes.lookup_standard (name : String) :
    Scopes.standard.root.lookup name = (Builtin.find? name).map .builtin := by
  have hr : (Builtin.all.reverse.map Builtin.name).Nodup := by
    rw [List.map_reverse]
    exact List.nodup_reverse.2 Builtin.nodup_all_name
  have hf : Builtin.all.reverse.find? (·.name == name) = Builtin.find? name := by
    ext b
    rw [Builtin.find?_eq_some_of_nodup hr, Builtin.find?,
      Builtin.find?_eq_some_of_nodup Builtin.nodup_all_name, List.mem_reverse]
  rw [Scopes.standard, Builtin.lookup_map, hf]

/-! ## Scopes of an environment -/

namespace Declared

/-- The scope of a `let` that declares `ds`. -/
def scope (ds : List Declared) : Scope := ds.map fun d => (d.entry.name, .declared d.id)

theorem lookup_scope (ds : List Declared) (name : String) :
    (scope ds).lookup name = (find? ds name).map (.declared ·.id) := by
  unfold scope find?
  induction ds with
  | nil => rfl
  | cons d ds ih =>
    rw [List.map_cons, List.lookup_cons, List.find?_cons]
    by_cases h : d.entry.name = name
    · simp [h]
    · simpa [h, beq_eq_false_iff_ne.2 (Ne.symm h)] using ih

end Declared

namespace Env

/-- The scopes open where `env` is in force. -/
def scopes (env : Env) : Scopes := ⟨env.map Declared.scope, Scopes.standard.root⟩

theorem findSome?_lookup_scope (env : Env) (name : String) :
    (env.map Declared.scope).findSome? (·.lookup name) = (env.find? name).map (.declared ·.id) := by
  unfold find?
  induction env with
  | nil => rfl
  | cons ds env ih =>
    rw [List.map_cons, List.findSome?_cons, List.findSome?_cons, Declared.lookup_scope, ih]
    cases Declared.find? ds name <;> rfl

theorem find?_scopes (env : Env) (name : String) : env.scopes.find? name = env.meaning? name := by
  rw [Scopes.find?, Scopes.toList, List.findSome?_append, scopes, findSome?_lookup_scope, meaning?,
    List.findSome?_singleton, Scopes.lookup_standard]
  cases env.find? name <;> rfl

theorem push_scopes (env : Env) : env.scopes.push = scopes ([] :: env) := rfl

theorem pop_scopes_cons (ds : List Declared) (env : Env) :
    (scopes (ds :: env)).pop = env.scopes := rfl

theorem depth_scopes (env : Env) : env.scopes.depth = env.length := by
  simp [scopes, Scopes.depth]

end Env

/-! ## Recording findings -/

namespace Naming

/-- What is found once the findings `fs` are added. -/
def add (n : Naming) (fs : List Finding) : Naming where
  bindings := n.bindings.insertMany (fs.filterMap Finding.binding?)
  declarations := n.declarations.insertMany (fs.filterMap Finding.declares?)
  errors := n.errors ++ fs.filterMap Finding.error?

@[simp] theorem add_nil (n : Naming) : n.add [] = n := by
  simp [add]

theorem add_singleton (n : Naming) (f : Finding) :
    n.add [f] = ⟨n.bindings.insertMany f.binding?.toList,
      n.declarations.insertMany f.declares?.toList, n.errors ++ f.error?.toList⟩ := by
  have h {α : Type} (g : Finding → Option α) : [f].filterMap g = (g f).toList := by
    rw [List.filterMap_cons]
    cases g f <;> rfl
  rw [add, h, h, h]

theorem add_accepted (n : Naming) (d : Declared) (name : Occurrence) :
    n.add [.accepted d name] = { n with declarations := n.declarations.insert d.id d.entry } := by
  simp [add_singleton, Finding.binding?, Finding.declares?, Finding.error?]

theorem add_append (n : Naming) (fs gs : List Finding) : n.add (fs ++ gs) = (n.add fs).add gs := by
  simp [add, Std.ExtTreeMap.insertMany_append]

theorem add_cons (n : Naming) (f : Finding) (fs : List Finding) :
    n.add (f :: fs) = (n.add [f]).add fs := add_append n [f] fs

/-- Findings that declare nothing leave the declarations as they are. -/
theorem declarations_add {n : Naming} {fs : List Finding}
    (h : fs.filterMap Finding.declares? = []) : (n.add fs).declarations = n.declarations := by
  simp [add, h]

end Naming

namespace NamingState

variable {env : Env} {n : Naming}

theorem lookUp_eq (o : Occurrence) :
    lookUp o ⟨env.scopes, n⟩ = ⟨env.scopes, n.add [.use o env]⟩ := by
  rw [lookUp, Env.find?_scopes]
  rcases h : env.meaning? o.spelling with _ | b
  · simp [Naming.add_singleton, Finding.binding?, Finding.declares?, Finding.error?, h, fail]
  · simp [Naming.add_singleton, Finding.binding?, Finding.declares?, Finding.error?, h]

theorem fail_malformed (what : String) (span : Span) :
    fail (.malformed what) span ⟨env.scopes, n⟩ =
      ⟨env.scopes, n.add [.malformed what span]⟩ := by
  simp [Naming.add_singleton, Finding.binding?, Finding.declares?, Finding.error?, fail]

end NamingState

mutual

theorem Expr.findNames_eq (env : Env) : ∀ (e : Expr) (n : Naming),
    e.findNames ⟨env.scopes, n⟩ = ⟨env.scopes, n.add (e.findings env)⟩
  | .binary _ left op right, n => by
    rw [Expr.findNames, left.findNames_eq env, NamingState.lookUp_eq, right.findNames_eq env,
      Expr.findings, Naming.add_append, Naming.add_cons _ _ (right.findings env)]
  | .character .., n | .integer .., n => by rw [Expr.findNames, Expr.findings, Naming.add_nil]
  | .name _ name, n => NamingState.lookUp_eq name
  | .apply _ name arg, n => by
    rw [Expr.findNames, NamingState.lookUp_eq, arg.findNames_eq env, Expr.findings,
      Naming.add_cons _ _ (arg.findings env)]
  | .unary _ op operand, n => by
    rw [Expr.findNames, NamingState.lookUp_eq, operand.findNames_eq env, Expr.findings,
      Naming.add_cons _ _ (operand.findings env)]
  | .error span, n => NamingState.fail_malformed "expression" span

theorem Param.findNames_eq (env : Env) : ∀ (q : Param) (n : Naming),
    q.findNames ⟨env.scopes, n⟩ = ⟨env.scopes, n.add (q.findings env)⟩
  | .blank _, n => by rw [Param.findNames, Param.findings, Naming.add_nil]
  | .value _ expr, n => expr.findNames_eq env n
  | .var _ name, n => NamingState.lookUp_eq name
  | .error span, n => NamingState.fail_malformed "parameter" span

end

mutual

theorem Expr.filterMap_declares?_findings (env : Env) :
    ∀ e : Expr, (e.findings env).filterMap Finding.declares? = []
  | .binary _ left _ right => by
    rw [Expr.findings, List.filterMap_append, left.filterMap_declares?_findings env]
    exact right.filterMap_declares?_findings env
  | .character .. | .integer .. | .name .. | .error _ => rfl
  | .apply _ name arg => arg.filterMap_declares?_findings env
  | .unary _ op operand => operand.filterMap_declares?_findings env

theorem Param.filterMap_declares?_findings (env : Env) :
    ∀ q : Param, (q.findings env).filterMap Finding.declares? = []
  | .blank _ | .var .. | .error _ => rfl
  | .value _ expr => expr.filterMap_declares?_findings env

end

/-! ### Declarations -/

theorem Declared.mem_accept {ds : List Declared} {d e : Declared} (h : e ∈ accept ds d) :
    e ∈ ds ∨ e = d := by
  unfold accept at h
  split at h
  · exact .inl h
  · exact (List.mem_cons.1 h).symm

mutual

/-- What is in scope behind a declaration was so in front of it or is declared in it. -/
theorem Decl.mem_accepted {outer : Env} {e : Declared} : ∀ (d : Decl) {ds : List Declared},
    e ∈ d.accepted outer ds → e ∈ ds ∨ .declaration e.id ∈ d.labelled
  | .const .., _, h | .var .., _, h => by
    rcases Declared.mem_accept h with h | rfl
    · exact .inl h
    · exact .inr List.mem_cons_self
  | .sequence _ _ items, _, h => Decl.mem_acceptedOfList items h
  | .error .., _, h => .inl h

theorem Decl.mem_acceptedOfList {outer : Env} {e : Declared} :
    ∀ (rest : List Decl) {ds : List Declared},
      e ∈ Decl.acceptedOfList outer ds rest → e ∈ ds ∨ .declaration e.id ∈ Decl.labelledOfList rest
  | [], _, h => .inl h
  | d :: rest, _, h => by
    rw [Decl.labelledOfList, List.mem_append]
    rcases Decl.mem_acceptedOfList rest h with h | h
    · exact (d.mem_accepted h).imp_right .inl
    · exact .inr (.inr h)

end

/-- The table holds the declarations `ds`. -/
def Naming.Holds (n : Naming) (ds : List Declared) : Prop :=
  ∀ d ∈ ds, n.declarations[d.id]? = some d.entry

theorem Naming.holds_nil (n : Naming) : n.Holds [] := List.forall_mem_nil _

namespace NamingState

variable {outer : Env} {ds : List Declared} {n : Naming}

/-- A declaration is recorded as it is found, if the table holds those in front of it. -/
theorem declare_eq {id : NodeId} {span : Span} {name : Occurrence} {type : Option String}
    {rightSide : NamingState → NamingState} {decl : Decl} {found : Env → List Finding}
    (hr : ∀ (env : Env) n, rightSide ⟨env.scopes, n⟩ = ⟨env.scopes, n.add (found env)⟩)
    (hn : n.Holds ds) :
    declare id span name type rightSide ⟨Env.scopes (ds :: outer), n⟩ =
      ⟨Env.scopes (Declared.accept ds (.inside outer id span name type) :: outer),
        n.add (Finding.ofDeclared outer ds (.inside outer id span name type) decl name found)⟩ := by
  have hl : (Env.scopes (ds :: outer)).innermost.lookup name.spelling =
      (Declared.find? ds name.spelling).map (.declared ·.id) :=
    Declared.lookup_scope ds name.spelling
  have hname : (Declared.inside outer id span name type).entry.name = name.spelling := rfl
  rw [declare, Scopes.insertNew, hl, Declared.accept, Finding.ofDeclared, hname]
  rcases hf : Declared.find? ds name.spelling with _ | previous
  · simp only [Option.map_none]
    have hdepth : ((Env.scopes (ds :: outer)).insert name.spelling (.declared id)).depth =
        outer.length + 1 :=
      Env.depth_scopes ((Declared.inside outer id span name type :: ds) :: outer)
    rw [Naming.add_cons, ← hr, Naming.add_accepted, hdepth]
    rfl
  · -- The entry of the earlier declaration is still its own, so its span is the one reported.
    have hp : n.declarations[previous.id]? = some previous.entry :=
      hn previous (List.mem_of_find?_eq_some hf)
    simp [spanOf?, hp, fail, Naming.add_singleton, Finding.binding?, Finding.declares?,
      Finding.error?]

/-- The table holds the declaration behind itself as well. -/
theorem holds_accept {d : Declared} {decl : Decl} {name : Occurrence} {found : Env → List Finding}
    (hf : ∀ env, (found env).filterMap Finding.declares? = []) (hd : ∀ e ∈ ds, e.id ≠ d.id)
    (hn : n.Holds ds) :
    (n.add (Finding.ofDeclared outer ds d decl name found)).Holds (Declared.accept ds d) := by
  unfold Finding.ofDeclared Declared.accept
  split
  case h_1 previous h =>
    intro e he
    rw [Naming.declarations_add rfl]
    exact hn e he
  case h_2 h =>
    intro e he
    rw [Naming.add_cons, Naming.declarations_add (hf _), Naming.add_accepted]
    rcases List.mem_cons.1 he with rfl | he
    · exact Std.ExtTreeMap.getElem?_insert_self
    · have hne : ¬compare d.id e.id = .eq := fun hc =>
        hd e he (Std.LawfulEqCmp.eq_of_compare hc).symm
      rw [Std.ExtTreeMap.getElem?_insert, if_neg hne]
      exact hn e he

end NamingState

mutual

theorem Decl.findNames_eq (outer : Env) : ∀ (d : Decl) {ds : List Declared} {n : Naming},
    (d.labelled.map Labelled.id).Nodup → (∀ e ∈ ds, .declaration e.id ∉ d.labelled) → n.Holds ds →
    d.findNames ⟨Env.scopes (ds :: outer), n⟩ =
      ⟨Env.scopes (d.accepted outer ds :: outer), n.add (d.findings outer ds)⟩ ∧
    (n.add (d.findings outer ds)).Holds (d.accepted outer ds)
  | .const id span name value, ds, n, _, hds, hn => by
    refine ⟨NamingState.declare_eq (fun env n => value.findNames_eq env n) hn,
      NamingState.holds_accept (fun env => value.filterMap_declares?_findings env) ?_ hn⟩
    intro e he hi
    exact hds e he (by rw [hi]; exact List.mem_cons_self)
  | .var id span type name, ds, n, _, hds, hn => by
    have hf : ∀ env, [Finding.use type env].filterMap Finding.declares? = [] := fun _ => rfl
    refine ⟨NamingState.declare_eq (fun env n => NamingState.lookUp_eq type) hn,
      NamingState.holds_accept hf ?_ hn⟩
    intro e he hi
    exact hds e he (by rw [hi]; exact List.mem_cons_self)
  | .sequence _ _ items, _, _, hd, hds, hn => Decl.findNamesOfList_eq outer items hd hds hn
  | .error _ span, ds, n, _, _, hn => by
    refine ⟨NamingState.fail_malformed "declaration" span, fun e he => ?_⟩
    rw [Naming.declarations_add rfl]
    exact hn e he

theorem Decl.findNamesOfList_eq (outer : Env) :
    ∀ (rest : List Decl) {ds : List Declared} {n : Naming},
      ((Decl.labelledOfList rest).map Labelled.id).Nodup →
      (∀ e ∈ ds, .declaration e.id ∉ Decl.labelledOfList rest) → n.Holds ds →
      Decl.findNamesOfList rest ⟨Env.scopes (ds :: outer), n⟩ =
        ⟨Env.scopes (Decl.acceptedOfList outer ds rest :: outer),
          n.add (Decl.findingsOfList outer ds rest)⟩ ∧
      (n.add (Decl.findingsOfList outer ds rest)).Holds (Decl.acceptedOfList outer ds rest)
  | [], _, _, _, _, hn => by
    rw [Decl.findNamesOfList, Decl.acceptedOfList, Decl.findingsOfList, Naming.add_nil]
    exact ⟨rfl, hn⟩
  | d :: rest, ds, n, hd, hds, hn => by
    rw [Decl.labelledOfList] at hd hds
    rw [List.map_append, List.nodup_append] at hd
    obtain ⟨hd, hrest, hne⟩ := hd
    obtain ⟨he, hn⟩ := d.findNames_eq outer hd
      (fun e he hm => hds e he (List.mem_append_left _ hm)) hn
    rw [Decl.findNamesOfList, he, Decl.findingsOfList, Naming.add_append, Decl.acceptedOfList]
    -- No id of `d` comes back in `rest`, so `rest` overwrites no entry that is in scope.
    refine Decl.findNamesOfList_eq outer rest hrest (fun e he hm => ?_) hn
    rcases d.mem_accepted he with he | he
    · exact hds e he (List.mem_append_right _ hm)
    · exact hne e.id (List.mem_map.2 ⟨_, he, rfl⟩) e.id (List.mem_map.2 ⟨_, hm, rfl⟩) rfl

end

mutual

theorem Command.findNames_eq : ∀ (c : Command) (env : Env) (n : Naming),
    (c.labelled.map Labelled.id).Nodup →
    c.findNames ⟨env.scopes, n⟩ = ⟨env.scopes, n.add (c.findings env)⟩
  | .assign _ target value, env, n, _ => by
    rw [Command.findNames, NamingState.lookUp_eq, value.findNames_eq env, Command.findings,
      Naming.add_cons _ _ (value.findings env)]
  | .blank _, env, n, _ => by rw [Command.findNames, Command.findings, Naming.add_nil]
  | .call _ callee arg, env, n, _ => by
    rw [Command.findNames, NamingState.lookUp_eq, arg.findNames_eq env, Command.findings,
      Naming.add_cons _ _ (arg.findings env)]
  | .ifElse _ cond a b, env, n, h => by
    rw [Command.labelled, List.map_append, List.map_append] at h
    have hab := (List.nodup_append.1 h).2.1
    rw [Command.findNames, cond.findNames_eq env, a.findNames_eq env _ (List.nodup_append.1 hab).1,
      b.findNames_eq env _ (List.nodup_append.1 hab).2.1, Command.findings, Naming.add_append,
      Naming.add_append]
  | .ifNoElse _ cond a, env, n, h => by
    rw [Command.labelled, List.map_append] at h
    rw [Command.findNames, cond.findNames_eq env, a.findNames_eq env _ (List.nodup_append.1 h).2.1,
      Command.findings, Naming.add_append]
  | .letIn _ decl body, env, n, h => by
    rw [Command.labelled, List.map_append] at h
    obtain ⟨hd, hb, -⟩ := List.nodup_append.1 h
    obtain ⟨he, -⟩ := decl.findNames_eq env hd (List.forall_mem_nil _) n.holds_nil
    rw [Command.findNames, NamingState.inScope, Env.push_scopes, he, body.findNames_eq _ _ hb,
      Env.pop_scopes_cons, Command.findings, Naming.add_append]
  | .sequence _ items, env, n, h => Command.findNamesOfList_eq items env n h
  | .whileDo _ cond body, env, n, h => by
    rw [Command.labelled, List.map_append] at h
    rw [Command.findNames, cond.findNames_eq env,
      body.findNames_eq env _ (List.nodup_append.1 h).2.1, Command.findings, Naming.add_append]
  | .repeatUntil _ body cond, env, n, h => by
    rw [Command.labelled, List.map_append] at h
    rw [Command.findNames, body.findNames_eq env _ (List.nodup_append.1 h).1,
      cond.findNames_eq env, Command.findings, Naming.add_append]
  | .error span, env, n, _ => NamingState.fail_malformed "command" span

theorem Command.findNamesOfList_eq : ∀ (cs : List Command) (env : Env) (n : Naming),
    ((Command.labelledOfList cs).map Labelled.id).Nodup →
    Command.findNamesOfList cs ⟨env.scopes, n⟩ =
      ⟨env.scopes, n.add (Command.findingsOfList env cs)⟩
  | [], env, n, _ => by
    rw [Command.findNamesOfList, Command.findingsOfList, Naming.add_nil]
  | c :: cs, env, n, h => by
    rw [Command.labelledOfList, List.map_append] at h
    obtain ⟨hc, hcs, -⟩ := List.nodup_append.1 h
    rw [Command.findNamesOfList, c.findNames_eq env n hc, Command.findNamesOfList_eq cs env _ hcs,
      Command.findingsOfList, Naming.add_append]

end

/-- The naming of a program adds up its findings. -/
theorem Naming.ofProgram_eq_add (p : Program) (h : (p.command.labelled.map Labelled.id).Nodup) :
    ofProgram p = empty.add p.findings :=
  congrArg NamingState.found (p.command.findNames_eq [] empty h)

/-! ## Agreement -/

namespace Finding

variable {fs : List Finding}

/-- Where all ids are distinct, an id tells which finding it belongs to. -/
theorem eq_of_id (h : ((fs.flatMap labelled).map Labelled.id).Nodup) {f g : Finding} (hf : f ∈ fs)
    (hg : g ∈ fs) {x y : Labelled} (hx : x ∈ f.labelled) (hy : y ∈ g.labelled)
    (hi : x.id = y.id) : f = g := by
  rw [List.map_flatMap, List.nodup_flatMap] at h
  by_contra hne
  have : Std.Symm (Function.onFun List.Disjoint fun f : Finding => f.labelled.map Labelled.id) :=
    ⟨fun _ _ hd _ ha hb => hd hb ha⟩
  exact h.2.forall hf hg hne (List.mem_map_of_mem hx) (hi ▸ List.mem_map_of_mem hy)

theorem passedOver_subset_labelled (f : Finding) : f.passedOver ⊆ f.labelled := by
  cases f <;> simp [passedOver, labelled]

/-- The ids of a table's entries are among those that findings are about. -/
theorem map_fst_filterMap_sublist {α : Type} {g : Finding → Option (NodeId × α)}
    (hg : ∀ f q, g f = some q → q.1 ∈ f.labelled.map Labelled.id) (fs : List Finding) :
    ((fs.filterMap g).map Prod.fst).Sublist ((fs.flatMap labelled).map Labelled.id) := by
  induction fs with
  | nil => exact .slnil
  | cons f fs ih =>
    rw [List.filterMap_cons, List.flatMap_cons, List.map_append]
    rcases hf : g f with _ | q
    · exact ih.trans (List.sublist_append_right _ _)
    · exact (List.singleton_sublist.2 (hg f q hf)).append ih

theorem getElem?_insertMany_filterMap {α : Type} {g : Finding → Option (NodeId × α)}
    (hg : ∀ f q, g f = some q → q.1 ∈ f.labelled.map Labelled.id)
    (h : ((fs.flatMap labelled).map Labelled.id).Nodup) {i : NodeId} {v : α} :
    ((∅ : NodeMap α).insertMany (fs.filterMap g))[i]? = some v ↔ ∃ f ∈ fs, g f = some (i, v) := by
  rw [NodeMap.getElem?_insertMany_eq_some (h.sublist (map_fst_filterMap_sublist hg fs)),
    List.mem_filterMap]

theorem binding?_eq_some {f : Finding} {q : NodeId × Binding} :
    f.binding? = some q ↔ ∃ o env, f = use o env ∧ q.1 = o.id ∧
      env.meaning? o.spelling = some q.2 := by
  obtain ⟨i, b⟩ := q
  cases f with
  | use o env =>
    rw [binding?, Option.map_eq_some_iff]
    constructor
    · rintro ⟨b, hm, ⟨⟩⟩
      exact ⟨o, env, rfl, rfl, hm⟩
    · rintro ⟨o, env, ⟨⟩, rfl, hm⟩
      exact ⟨b, hm, rfl⟩
  | _ => simp [binding?]

theorem declares?_eq_some {f : Finding} {q : NodeId × DeclEntry} :
    f.declares? = some q ↔ ∃ name, f = accepted ⟨q.1, q.2⟩ name := by
  obtain ⟨i, e⟩ := q
  cases f with
  | accepted d name => cases d; simp [declares?]
  | _ => simp [declares?]

end Finding

/-- The tables and errors of `n` are what the findings `fs` say. -/
structure Naming.Agrees (n : Naming) (fs : List Finding) : Prop where
  bound : ∀ o env, .use o env ∈ fs → n.bindings[o.id]? = env.meaning? o.spelling
  unbound : ∀ i, (∀ o env, .use o env ∈ fs → o.id ≠ i) → n.bindings[i]? = none
  passedOver : ∀ f ∈ fs, ∀ x ∈ f.passedOver, n.bindings[x.id]? = none
  declared : ∀ i e, n.declarations[i]? = some e ↔ ∃ name, .accepted ⟨i, e⟩ name ∈ fs
  errors : n.errors = fs.filterMap Finding.error?

namespace Finding

variable {fs : List Finding} (h : ((fs.flatMap labelled).map Labelled.id).Nodup)
include h

theorem bindings_eq_some {i : NodeId} {b : Binding} :
    (Naming.empty.add fs).bindings[i]? = some b ↔
      ∃ o env, use o env ∈ fs ∧ i = o.id ∧ env.meaning? o.spelling = some b := by
  have hb : ∀ f q, binding? f = some q → q.1 ∈ f.labelled.map Labelled.id := by
    intro f q hq
    obtain ⟨o, env, rfl, hi, -⟩ := binding?_eq_some.1 hq
    rw [hi]
    exact List.mem_singleton_self _
  refine (getElem?_insertMany_filterMap hb h).trans ⟨?_, ?_⟩
  · rintro ⟨f, hf, hq⟩
    obtain ⟨o, env, rfl, hi, hm⟩ := binding?_eq_some.1 hq
    exact ⟨o, env, hf, hi, hm⟩
  · rintro ⟨o, env, hf, hi, hm⟩
    exact ⟨_, hf, binding?_eq_some.2 ⟨o, env, rfl, hi, hm⟩⟩

theorem declarations_eq_some {i : NodeId} {e : DeclEntry} :
    (Naming.empty.add fs).declarations[i]? = some e ↔ ∃ name, accepted ⟨i, e⟩ name ∈ fs := by
  have he : ∀ f q, declares? f = some q → q.1 ∈ f.labelled.map Labelled.id := by
    intro f q hq
    obtain ⟨name, rfl⟩ := declares?_eq_some.1 hq
    exact List.mem_cons_self
  refine (getElem?_insertMany_filterMap he h).trans ⟨?_, ?_⟩
  · rintro ⟨f, hf, hq⟩
    obtain ⟨name, rfl⟩ := declares?_eq_some.1 hq
    exact ⟨name, hf⟩
  · rintro ⟨name, hf⟩
    exact ⟨_, hf, declares?_eq_some.2 ⟨name, rfl⟩⟩

/-- What is recorded of findings with distinct ids agrees with them. -/
theorem agrees_add : (Naming.empty.add fs).Agrees fs where
  bound o env hf := by
    refine Option.ext fun b => (bindings_eq_some h).trans ⟨?_, fun hm => ⟨o, env, hf, rfl, hm⟩⟩
    rintro ⟨o', env', hf', hi, hm⟩
    have := eq_of_id h hf hf' List.mem_cons_self List.mem_cons_self hi
    cases this
    exact hm
  unbound i hi := by
    refine Option.eq_none_iff_forall_ne_some.2 fun b hb => ?_
    obtain ⟨o, env, hf, rfl, -⟩ := (bindings_eq_some h).1 hb
    exact hi o env hf rfl
  passedOver f hf x hx := by
    refine Option.eq_none_iff_forall_ne_some.2 fun b hb => ?_
    obtain ⟨o, env, hg, hi, -⟩ := (bindings_eq_some h).1 hb
    have hl : x ∈ f.labelled := passedOver_subset_labelled f hx
    obtain rfl := eq_of_id h hf hg hl List.mem_cons_self hi
    cases hx
  declared i e := declarations_eq_some h
  errors := List.nil_append _

end Finding

/-- The naming of a program whose ids are distinct is lexical scoping. -/
theorem Naming.ofProgram_agrees (p : Program) (h : (p.command.labelled.map Labelled.id).Nodup) :
    (ofProgram p).Agrees p.findings ∧
      p.findings.flatMap Finding.labelled = p.command.labelled := by
  have hf : p.findings.flatMap Finding.labelled = p.command.labelled :=
    p.command.flatMap_labelled_findings []
  rw [ofProgram_eq_add p h]
  exact ⟨Finding.agrees_add (hf ▸ h), hf⟩

/-- The program `let const n ~ n; const n ~ y in putint(n + z)`. -/
def Program.declaredTwice : Program where
  command :=
    .letIn ⟨0, 45⟩
      (.sequence 0 ⟨4, 28⟩
        [.const 1 ⟨4, 15⟩ ⟨2, "n", ⟨10, 11⟩⟩ (.name ⟨14, 15⟩ ⟨3, "n", ⟨14, 15⟩⟩),
          .const 4 ⟨17, 28⟩ ⟨5, "n", ⟨23, 24⟩⟩ (.name ⟨27, 28⟩ ⟨6, "y", ⟨27, 28⟩⟩)])
      (.call ⟨32, 45⟩ ⟨7, "putint", ⟨32, 38⟩⟩
        (.value ⟨39, 44⟩
          (.binary ⟨39, 44⟩ (.name ⟨39, 40⟩ ⟨8, "n", ⟨39, 40⟩⟩) ⟨9, "+", ⟨41, 42⟩⟩
            (.name ⟨43, 44⟩ ⟨10, "z", ⟨43, 44⟩⟩))))
  span := ⟨0, 45⟩

/-- The constant is bound in its own right-hand side and in the body, and the second declaration of
its name is left alone. -/
theorem Naming.ofProgram_agrees_declaredTwice :
    (Program.declaredTwice.command.labelled.map Labelled.id).Nodup ∧
      (ofProgram .declaredTwice).bindings[(3 : NodeId)]? = some (.declared 1) ∧
      (ofProgram .declaredTwice).bindings[(6 : NodeId)]? = none ∧
      (ofProgram .declaredTwice).bindings[(8 : NodeId)]? = some (.declared 1) ∧
      (ofProgram .declaredTwice).errors =
        [⟨.alreadyDeclared "n" (some ⟨4, 15⟩), ⟨23, 24⟩⟩, ⟨.undeclared "z", ⟨43, 44⟩⟩] := by
  have hd : (Program.declaredTwice.command.labelled.map Labelled.id).Nodup := by decide
  have ha := (ofProgram_agrees .declaredTwice hd).1
  let n : Declared := ⟨1, "n", none, ⟨4, 15⟩, 1⟩
  have hn : .use ⟨3, "n", ⟨14, 15⟩⟩ [[n]] ∈ Program.declaredTwice.findings := .tail _ (.head _)
  have hy : .rejected (.const 4 ⟨17, 28⟩ ⟨5, "n", ⟨23, 24⟩⟩ (.name ⟨27, 28⟩ ⟨6, "y", ⟨27, 28⟩⟩))
      ⟨5, "n", ⟨23, 24⟩⟩ ⟨4, 15⟩ ∈ Program.declaredTwice.findings := .tail _ (.tail _ (.head _))
  have hb : .use ⟨8, "n", ⟨39, 40⟩⟩ [[n]] ∈ Program.declaredTwice.findings :=
    .tail _ (.tail _ (.tail _ (.tail _ (.head _))))
  exact ⟨hd, ha.bound _ _ hn, ha.passedOver _ hy (.occurrence ⟨6, "y", ⟨27, 28⟩⟩)
    (.tail _ (.tail _ (.head _))), ha.bound _ _ hb, ha.errors⟩

end TriLang
