import TriLang.Proofs.Naming
import TriLang.Proofs.Numbering
import TriLang.Proofs.Stages
import TriLang.Proofs.Writing

/-!
# Runs without errors

A run without errors leaves nothing open.  Its tree has no errors in it, every name and every
operator that stands for something is bound, every declaration is entered as it is written, and the
tables hold nothing else.
-/

namespace TriLang

/-! ## Mentions -/

/-- A place of a program that the tables of a naming are about. -/
inductive Mention
  /-- A name or an operator that stands for something. -/
  | use (o : Occurrence)
  /-- A constant or a variable of the name `name`. -/
  | declaration (id : NodeId) (span : Span) (name : String)
  deriving DecidableEq

mutual

def Expr.mentions : Expr → List Mention
  | .binary _ left op right => left.mentions ++ .use op :: right.mentions
  | .character .. | .integer .. | .error _ => []
  | .name _ name => [.use name]
  | .apply _ name arg => .use name :: arg.mentions
  | .unary _ op operand => .use op :: operand.mentions

def Param.mentions : Param → List Mention
  | .blank _ | .error _ => []
  | .value _ expr => expr.mentions
  | .var _ name => [.use name]

end

mutual

def Decl.mentions : Decl → List Mention
  | .const id span name value => .declaration id span name.spelling :: value.mentions
  | .var id span type name => [.declaration id span name.spelling, .use type]
  | .sequence _ _ items => Decl.mentionsOfList items
  | .error .. => []

def Decl.mentionsOfList : List Decl → List Mention
  | [] => []
  | d :: ds => d.mentions ++ Decl.mentionsOfList ds

end

mutual

def Command.mentions : Command → List Mention
  | .assign _ target value => .use target :: value.mentions
  | .blank _ | .error _ => []
  | .call _ callee arg => .use callee :: arg.mentions
  | .ifElse _ cond thenBranch elseBranch =>
    cond.mentions ++ (thenBranch.mentions ++ elseBranch.mentions)
  | .ifNoElse _ cond thenBranch => cond.mentions ++ thenBranch.mentions
  | .letIn _ decl body => decl.mentions ++ body.mentions
  | .sequence _ items => Command.mentionsOfList items
  | .whileDo _ cond body => cond.mentions ++ body.mentions
  | .repeatUntil _ body cond => body.mentions ++ cond.mentions

def Command.mentionsOfList : List Command → List Mention
  | [] => []
  | c :: cs => c.mentions ++ Command.mentionsOfList cs

end

/-- What a finding mentions. -/
def Finding.mentions : Finding → List Mention
  | use o _ => [.use o]
  | accepted d _ => [.declaration d.id d.entry.span d.entry.name]
  | rejected decl .. => decl.mentions
  | malformed .. => []

mutual

/-- The findings mention what the tree mentions. -/
theorem Expr.flatMap_mentions_findings (env : Env) :
    ∀ e : Expr, (e.findings env).flatMap Finding.mentions = e.mentions
  | .binary _ left op right => by
    simp [Expr.findings, Expr.mentions, Finding.mentions, left.flatMap_mentions_findings env,
      right.flatMap_mentions_findings env]
  | .character .. | .integer .. | .name .. | .error _ => rfl
  | .apply _ name arg => by
    simp [Expr.findings, Expr.mentions, Finding.mentions, arg.flatMap_mentions_findings env]
  | .unary _ op operand => by
    simp [Expr.findings, Expr.mentions, Finding.mentions, operand.flatMap_mentions_findings env]

theorem Param.flatMap_mentions_findings (env : Env) :
    ∀ q : Param, (q.findings env).flatMap Finding.mentions = q.mentions
  | .blank _ | .var .. | .error _ => rfl
  | .value _ expr => expr.flatMap_mentions_findings env

end

theorem Finding.flatMap_mentions_ofDeclared {outer : Env} {ds : List Declared} {d : Declared}
    {decl : Decl} {name : Occurrence} {rightSide : Env → List Finding} {xs : List Mention}
    (hr : ∀ env, (rightSide env).flatMap Finding.mentions = xs)
    (hd : decl.mentions = .declaration d.id d.entry.span d.entry.name :: xs) :
    (ofDeclared outer ds d decl name rightSide).flatMap Finding.mentions = decl.mentions := by
  unfold ofDeclared
  split <;> simp [Finding.mentions, hr, hd]

mutual

theorem Decl.flatMap_mentions_findings (outer : Env) :
    ∀ (d : Decl) (ds : List Declared),
      (d.findings outer ds).flatMap Finding.mentions = d.mentions
  | .const _ _ _ value, _ =>
    Finding.flatMap_mentions_ofDeclared (fun env => value.flatMap_mentions_findings env) rfl
  | .var _ _ type _, _ =>
    have h : ∀ env, [Finding.use type env].flatMap Finding.mentions = [.use type] := fun _ => rfl
    Finding.flatMap_mentions_ofDeclared h rfl
  | .sequence _ _ items, ds => Decl.flatMap_mentions_findingsOfList outer items ds
  | .error .., _ => rfl

theorem Decl.flatMap_mentions_findingsOfList (outer : Env) :
    ∀ (ds : List Decl) (es : List Declared),
      (Decl.findingsOfList outer es ds).flatMap Finding.mentions = Decl.mentionsOfList ds
  | [], _ => rfl
  | d :: ds, es => by
    rw [Decl.findingsOfList, List.flatMap_append, d.flatMap_mentions_findings outer es,
      Decl.flatMap_mentions_findingsOfList outer ds, Decl.mentionsOfList]

end

mutual

theorem Command.flatMap_mentions_findings :
    ∀ (c : Command) (env : Env), (c.findings env).flatMap Finding.mentions = c.mentions
  | .assign _ _ value, env => by
    simp [Command.findings, Command.mentions, Finding.mentions, value.flatMap_mentions_findings env]
  | .blank _, _ | .error _, _ => rfl
  | .call _ _ arg, env => by
    simp [Command.findings, Command.mentions, Finding.mentions, arg.flatMap_mentions_findings env]
  | .ifElse _ cond a b, env => by
    simp [Command.findings, Command.mentions, cond.flatMap_mentions_findings env,
      a.flatMap_mentions_findings env, b.flatMap_mentions_findings env]
  | .ifNoElse _ cond a, env => by
    simp [Command.findings, Command.mentions, cond.flatMap_mentions_findings env,
      a.flatMap_mentions_findings env]
  | .letIn _ decl body, env => by
    simp [Command.findings, Command.mentions, decl.flatMap_mentions_findings env,
      body.flatMap_mentions_findings]
  | .sequence _ items, env => Command.flatMap_mentions_findingsOfList items env
  | .whileDo _ cond body, env => by
    simp [Command.findings, Command.mentions, cond.flatMap_mentions_findings env,
      body.flatMap_mentions_findings env]
  | .repeatUntil _ body cond, env => by
    simp [Command.findings, Command.mentions, cond.flatMap_mentions_findings env,
      body.flatMap_mentions_findings env]

theorem Command.flatMap_mentions_findingsOfList :
    ∀ (cs : List Command) (env : Env),
      (Command.findingsOfList env cs).flatMap Finding.mentions = Command.mentionsOfList cs
  | [], _ => rfl
  | c :: cs, env => by
    rw [Command.findingsOfList, List.flatMap_append, c.flatMap_mentions_findings env,
      Command.flatMap_mentions_findingsOfList cs env, Command.mentionsOfList]

end

/-! ## Declarations around a use -/

namespace Finding

/-- All that is declared around a use is in `base` or accepted among the findings. -/
def Covers (fs : List Finding) (base : List Declared) : Prop :=
  ∀ o env, use o env ∈ fs → ∀ d ∈ env.flatten, d ∈ base ∨ ∃ name, accepted d name ∈ fs

variable {fs gs : List Finding} {base base' : List Declared}

theorem covers_nil (base : List Declared) : Covers [] base := nofun

theorem covers_use (o : Occurrence) (env : Env) : Covers [use o env] env.flatten := by
  intro o' env' h d hd
  obtain ⟨rfl, rfl⟩ : o' = o ∧ env' = env := by simpa using h
  exact .inl hd

/-- What comes next may be in the scope of what is accepted before. -/
theorem Covers.append (h : Covers fs base) (h' : Covers gs base')
    (hb : ∀ d ∈ base', d ∈ base ∨ ∃ name, accepted d name ∈ fs) : Covers (fs ++ gs) base := by
  intro o env hm d hd
  rcases List.mem_append.1 hm with hm | hm
  · exact (h o env hm d hd).imp_right fun ⟨name, hf⟩ => ⟨name, List.mem_append_left _ hf⟩
  · rcases h' o env hm d hd with hd | ⟨name, hf⟩
    · exact (hb d hd).imp_right fun ⟨name, hf⟩ => ⟨name, List.mem_append_left _ hf⟩
    · exact .inr ⟨name, List.mem_append_right _ hf⟩

theorem Covers.append_same (h : Covers fs base) (h' : Covers gs base) : Covers (fs ++ gs) base :=
  h.append h' fun _ => .inl

theorem covers_cons_use {o : Occurrence} {env : Env} (h : Covers fs env.flatten) :
    Covers (use o env :: fs) env.flatten := (covers_use o env).append_same h

theorem covers_of_malformed (what : String) (span : Span) (base : List Declared) :
    Covers [malformed what span] base := by
  intro o env h
  simp at h

end Finding

mutual

theorem Expr.covers_findings (env : Env) : ∀ e : Expr,
    Finding.Covers (e.findings env) env.flatten
  | .binary _ left _ right =>
    (left.covers_findings env).append_same (Finding.covers_cons_use (right.covers_findings env))
  | .character .. | .integer .. => Finding.covers_nil _
  | .name _ name => Finding.covers_use name env
  | .apply _ _ arg => Finding.covers_cons_use (arg.covers_findings env)
  | .unary _ _ operand => Finding.covers_cons_use (operand.covers_findings env)
  | .error span => Finding.covers_of_malformed "expression" span _

theorem Param.covers_findings (env : Env) : ∀ q : Param,
    Finding.Covers (q.findings env) env.flatten
  | .blank _ => Finding.covers_nil _
  | .value _ expr => expr.covers_findings env
  | .var _ name => Finding.covers_use name env
  | .error span => Finding.covers_of_malformed "parameter" span _

end

namespace Finding

variable {outer : Env} {ds : List Declared} {d : Declared} {decl : Decl} {name : Occurrence}
  {rightSide : Env → List Finding}

theorem covers_ofDeclared (hr : ∀ env, Covers (rightSide env) env.flatten) :
    Covers (ofDeclared outer ds d decl name rightSide) (ds ++ outer.flatten) := by
  unfold ofDeclared
  split
  · intro o env h
    simp at h
  · have ha : Covers [accepted d name] (ds ++ outer.flatten) := by
      intro o env h
      simp at h
    refine ha.append (hr ((d :: ds) :: outer)) fun e he => ?_
    rw [List.flatten_cons, List.cons_append, List.mem_cons] at he
    rcases he with rfl | he
    · exact .inr ⟨name, List.mem_singleton_self _⟩
    · exact .inl he

theorem of_mem_accept {e : Declared} (h : e ∈ Declared.accept ds d) :
    e ∈ ds ∨ ∃ name', accepted e name' ∈ ofDeclared outer ds d decl name rightSide := by
  unfold Declared.accept at h
  unfold ofDeclared
  split at h
  · exact .inl h
  · rcases List.mem_cons.1 h with rfl | h
    · exact .inr ⟨name, List.mem_cons_self⟩
    · exact .inl h

end Finding

mutual

/-- What is in scope behind a declaration was so in front of it or is accepted in it. -/
theorem Decl.accepted_mem_findings {outer : Env} {e : Declared} : ∀ (d : Decl) {ds : List Declared},
    e ∈ d.accepted outer ds → e ∈ ds ∨ ∃ name, .accepted e name ∈ d.findings outer ds
  | .const .., _, h | .var .., _, h => by
    rw [Decl.findings]
    exact Finding.of_mem_accept h
  | .sequence _ _ items, _, h => Decl.acceptedOfList_mem_findings items h
  | .error .., _, h => .inl h

theorem Decl.acceptedOfList_mem_findings {outer : Env} {e : Declared} :
    ∀ (rest : List Decl) {ds : List Declared}, e ∈ Decl.acceptedOfList outer ds rest →
      e ∈ ds ∨ ∃ name, .accepted e name ∈ Decl.findingsOfList outer ds rest
  | [], _, h => .inl h
  | d :: rest, ds, h => by
    rw [Decl.findingsOfList]
    rcases Decl.acceptedOfList_mem_findings rest h with h | ⟨name, hf⟩
    · exact (d.accepted_mem_findings h).imp_right fun ⟨name, hf⟩ =>
        ⟨name, List.mem_append_left _ hf⟩
    · exact .inr ⟨name, List.mem_append_right _ hf⟩

end

mutual

theorem Decl.covers_findings (outer : Env) : ∀ (d : Decl) (ds : List Declared),
    Finding.Covers (d.findings outer ds) (ds ++ outer.flatten)
  | .const _ _ _ value, _ => Finding.covers_ofDeclared fun env => value.covers_findings env
  | .var _ _ type _, _ => Finding.covers_ofDeclared fun env => Finding.covers_use type env
  | .sequence _ _ items, ds => Decl.covers_findingsOfList outer items ds
  | .error _ span, _ => Finding.covers_of_malformed "declaration" span _

theorem Decl.covers_findingsOfList (outer : Env) : ∀ (rest : List Decl) (ds : List Declared),
    Finding.Covers (Decl.findingsOfList outer ds rest) (ds ++ outer.flatten)
  | [], _ => Finding.covers_nil _
  | d :: rest, ds => by
    refine (d.covers_findings outer ds).append (Decl.covers_findingsOfList outer rest _) ?_
    intro e he
    rcases List.mem_append.1 he with he | he
    · exact (d.accepted_mem_findings he).imp_left (List.mem_append_left _)
    · exact .inl (List.mem_append_right _ he)

end

mutual

/-- All that is declared around a use in a command is declared around the command or accepted in
it. -/
theorem Command.covers_findings : ∀ (c : Command) (env : Env),
    Finding.Covers (c.findings env) env.flatten
  | .assign _ _ value, env => Finding.covers_cons_use (value.covers_findings env)
  | .blank _, _ => Finding.covers_nil _
  | .call _ _ arg, env => Finding.covers_cons_use (arg.covers_findings env)
  | .ifElse _ cond a b, env =>
    (cond.covers_findings env).append_same
      ((a.covers_findings env).append_same (b.covers_findings env))
  | .ifNoElse _ cond a, env => (cond.covers_findings env).append_same (a.covers_findings env)
  | .letIn _ decl body, env => by
    refine (decl.covers_findings env []).append (body.covers_findings _) fun d hd => ?_
    rw [List.flatten_cons, List.mem_append] at hd
    rcases hd with hd | hd
    · exact (decl.accepted_mem_findings hd).imp_left nofun
    · exact .inl hd
  | .sequence _ items, env => Command.covers_findingsOfList items env
  | .whileDo _ cond body, env => (cond.covers_findings env).append_same (body.covers_findings env)
  | .repeatUntil _ body cond, env =>
    (body.covers_findings env).append_same (cond.covers_findings env)
  | .error span, _ => Finding.covers_of_malformed "command" span _

theorem Command.covers_findingsOfList : ∀ (cs : List Command) (env : Env),
    Finding.Covers (Command.findingsOfList env cs) env.flatten
  | [], _ => Finding.covers_nil _
  | c :: cs, env => (c.covers_findings env).append_same (Command.covers_findingsOfList cs env)

end

/-- A name that stands for a declaration has its spelling. -/
theorem Env.exists_of_meaning?_eq_declared {env : Env} {name : String} {i : NodeId}
    (h : env.meaning? name = some (.declared i)) :
    ∃ d ∈ env.flatten, d.id = i ∧ d.entry.name = name := by
  unfold meaning? at h
  split at h
  case h_1 d hd =>
    cases h
    obtain ⟨ds, hds, hf⟩ := List.exists_of_findSome?_eq_some hd
    exact ⟨d, List.mem_flatten.2 ⟨ds, hds, List.mem_of_find?_eq_some hf⟩, rfl,
      by simpa using List.find?_some hf⟩
  case h_2 => simp at h

/-! ## Findings without errors -/

namespace Finding

variable {fs : List Finding} (h : fs.filterMap error? = [])
include h

theorem error?_eq_none {f : Finding} (hf : f ∈ fs) : f.error? = none :=
  List.filterMap_eq_nil_iff.1 h f hf

/-- Nothing is rejected, so the uses that are mentioned are those found. -/
theorem use_mem_mentions_iff {o : Occurrence} :
    .use o ∈ fs.flatMap mentions ↔ ∃ env, use o env ∈ fs := by
  rw [List.mem_flatMap]
  constructor
  · rintro ⟨f, hf, hm⟩
    have he := error?_eq_none h hf
    cases f with
    | use o' env =>
      obtain rfl : o = o' := by simpa [mentions] using hm
      exact ⟨env, hf⟩
    | rejected => simp [error?] at he
    | _ => simp [mentions] at hm
  · rintro ⟨env, hf⟩
    exact ⟨_, hf, List.mem_singleton_self _⟩

/-- The declarations that are mentioned are all accepted. -/
theorem declaration_mem_mentions_iff {i : NodeId} {span : Span} {name : String} :
    .declaration i span name ∈ fs.flatMap mentions ↔
      ∃ e o, accepted ⟨i, e⟩ o ∈ fs ∧ e.span = span ∧ e.name = name := by
  rw [List.mem_flatMap]
  constructor
  · rintro ⟨f, hf, hm⟩
    have he := error?_eq_none h hf
    cases f with
    | accepted d o =>
      obtain ⟨rfl, rfl, rfl⟩ : i = d.id ∧ span = d.entry.span ∧ name = d.entry.name := by
        simpa [mentions] using hm
      exact ⟨d.entry, o, hf, rfl, rfl⟩
    | rejected => simp [error?] at he
    | _ => simp [mentions] at hm
  · rintro ⟨e, o, hf, rfl, rfl⟩
    exact ⟨_, hf, List.mem_singleton_self _⟩

/-- All uses stand for something. -/
theorem exists_meaning?_eq_some {o : Occurrence} {env : Env} (hf : use o env ∈ fs) :
    ∃ b, env.meaning? o.spelling = some b := by
  have he := error?_eq_none h hf
  rw [error?] at he
  split at he
  case h_1 b hb => exact ⟨b, hb⟩
  case h_2 => cases he

end Finding

/-! ## Complete tables -/

/-- The tables of `n` hold what `c` mentions and nothing else. -/
structure Naming.Complete (n : Naming) (c : Command) : Prop where
  bindings : ∀ i, i ∈ n.bindings ↔ ∃ o, .use o ∈ c.mentions ∧ o.id = i
  declarations : ∀ i, i ∈ n.declarations ↔ ∃ span name, .declaration i span name ∈ c.mentions
  entry : ∀ i span name, .declaration i span name ∈ c.mentions →
    ∃ e, n.declarations[i]? = some e ∧ e.name = name ∧ e.span = span
  /-- A declaration that a use is bound to has the name that is used. -/
  entryOf : ∀ o i, .use o ∈ c.mentions → n.bindings[o.id]? = some (.declared i) →
    ∃ e, n.declarations[i]? = some e ∧ e.name = o.spelling

/-- Without errors, the naming of a program with distinct ids is complete. -/
theorem Naming.complete_ofProgram {p : Program} (hd : (p.command.labelled.map Labelled.id).Nodup)
    (he : (ofProgram p).errors = []) : (ofProgram p).Complete p.command := by
  have hl : p.findings.flatMap Finding.labelled = p.command.labelled :=
    p.command.flatMap_labelled_findings []
  have ha : (ofProgram p).Agrees p.findings := by
    rw [ofProgram_eq_add p hd]
    exact Finding.agrees_add (hl ▸ hd)
  have hc : Finding.Covers p.findings [] := p.command.covers_findings []
  rw [ha.errors] at he
  have hu {o : Occurrence} : .use o ∈ p.command.mentions ↔ ∃ env, .use o env ∈ p.findings := by
    rw [← p.command.flatMap_mentions_findings []]
    exact Finding.use_mem_mentions_iff he
  have hm {i : NodeId} {span : Span} {name : String} :
      .declaration i span name ∈ p.command.mentions ↔
        ∃ e o, .accepted ⟨i, e⟩ o ∈ p.findings ∧ e.span = span ∧ e.name = name := by
    rw [← p.command.flatMap_mentions_findings []]
    exact Finding.declaration_mem_mentions_iff he
  refine ⟨fun i => ⟨fun hi => ?_, ?_⟩, fun i => ⟨fun hi => ?_, ?_⟩, fun i span name h => ?_,
    fun o i h hb => ?_⟩
  · by_contra hn
    have hi := Std.ExtTreeMap.mem_iff_isSome_getElem?.1 hi
    rw [ha.unbound i fun o env hf ho => hn ⟨o, hu.2 ⟨env, hf⟩, ho⟩] at hi
    cases hi
  · rintro ⟨o, h, rfl⟩
    obtain ⟨env, hf⟩ := hu.1 h
    obtain ⟨b, hb⟩ := Finding.exists_meaning?_eq_some he hf
    rw [Std.ExtTreeMap.mem_iff_isSome_getElem?, ha.bound o env hf, hb]
    rfl
  · obtain ⟨e, he⟩ := Option.isSome_iff_exists.1 (Std.ExtTreeMap.mem_iff_isSome_getElem?.1 hi)
    obtain ⟨name, hf⟩ := (ha.declared i e).1 he
    exact ⟨e.span, e.name, hm.2 ⟨e, name, hf, rfl, rfl⟩⟩
  · rintro ⟨span, name, h⟩
    obtain ⟨e, o, hf, -, -⟩ := hm.1 h
    rw [Std.ExtTreeMap.mem_iff_isSome_getElem?, (ha.declared i e).2 ⟨o, hf⟩]
    rfl
  · obtain ⟨e, o, hf, hs, hn⟩ := hm.1 h
    exact ⟨e, (ha.declared i e).2 ⟨o, hf⟩, hn, hs⟩
  · obtain ⟨env, hf⟩ := hu.1 h
    rw [ha.bound o env hf] at hb
    obtain ⟨d, hd, rfl, hn⟩ := Env.exists_of_meaning?_eq_declared hb
    rcases hc o env hf d hd with hd | ⟨name, hd⟩
    · cases hd
    · exact ⟨d.entry, (ha.declared d.id d.entry).2 ⟨name, hd⟩, hn⟩

namespace Run

/-- A run without errors over a text so short that ids do not run out gives a normal tree and a
complete naming of it. -/
theorem ofSource_complete {source : String} {o : Options} (hs : source.utf8ByteSize < 2 ^ 31 - 1)
    (h : (ofSource source o).isOk) :
    ∃ p n, (ofSource source o).program = some p ∧ (ofSource source o).naming = some n ∧
      p.command.isNormal ∧ n.Complete p.command := by
  obtain ⟨-, hp, p, n, rfl, rfl, hn, hprogram, hnaming⟩ := ofSource_of_isOk h
  have hl : 2 * (Tokens.ofSource source).toList.length < UInt32.size := by
    have := Tokens.length_toList_le source
    show _ < 2 ^ 32
    omega
  obtain ⟨us, e, -, hd, -⟩ :=
    Program.isProgram_of_faults_eq_nil (Tokens.endsOnce_ofSource source)
      (Program.ofTokens_errors_eq_nil.1 hp)
  exact ⟨_, _, hprogram, hnaming, hd.isNormal,
    Naming.complete_ofProgram (Program.nodup_map_id_labelled hl) hn⟩

/-- The variable is entered with its name, and `getint` and the variable that it is to change are
bound. -/
theorem ofSource_complete_getint :
    let run := ofSource "let integer n in getint(var n)" {}
    run.isOk ∧ ∃ p n, run.program = some p ∧ run.naming = some n ∧ p.command.isNormal ∧
      (∃ e, n.declarations[(2 : NodeId)]? = some e ∧ e.name = "n" ∧ e.span = ⟨4, 13⟩) ∧
      (3 : NodeId) ∈ n.bindings ∧ (4 : NodeId) ∈ n.bindings := by
  intro run
  have hs : "let integer n in getint(var n)".utf8ByteSize < 2 ^ 31 - 1 := by decide +kernel
  have hok : run.isOk := by decide +kernel
  have hm : run.program.map (·.command.mentions) =
      some [.declaration 2 ⟨4, 13⟩ "n", .use ⟨0, "integer", ⟨4, 11⟩⟩,
        .use ⟨3, "getint", ⟨17, 23⟩⟩, .use ⟨4, "n", ⟨28, 29⟩⟩] := by
    decide +kernel
  obtain ⟨p, n, hp, hn, hnormal, hc⟩ := ofSource_complete hs hok
  rw [hp, Option.map_some, Option.some_inj] at hm
  refine ⟨hok, p, n, hp, hn, hnormal, hc.entry 2 ⟨4, 13⟩ "n" (by simp [hm]), ?_, ?_⟩
  · exact (hc.bindings 3).2 ⟨⟨3, "getint", ⟨17, 23⟩⟩, by simp [hm], rfl⟩
  · exact (hc.bindings 4).2 ⟨⟨4, "n", ⟨28, 29⟩⟩, by simp [hm], rfl⟩

end Run

end TriLang
