import TriLang.Proofs.References

/-!
# The `let` of a declaration

Where every id is given once, what a table holds of a declaration tells of its place in the tree:
its `let`, the `let`s around that one, and whether another declaration of its name is in front.
-/

namespace TriLang

/-! ## Declarations of a `let` -/

namespace Decl

mutual

/-- The constants and variables of a declaration in source order. -/
def singles : Decl → List Decl
  | .const id span name value => [.const id span name value]
  | .var id span type name => [.var id span type name]
  | .sequence _ _ items => singlesOfList items
  | .error .. => []

def singlesOfList : List Decl → List Decl
  | [] => []
  | d :: ds => d.singles ++ singlesOfList ds

end

/-- The name of the type of a variable. -/
def type? : Decl → Option String
  | .var _ _ type _ => some type.spelling
  | .const .. | .sequence .. | .error .. => none

/-- What the declaration of `name` inside `depth` scopes above the root is entered as. -/
def entry (d : Decl) (name : Occurrence) (depth : Nat) : DeclEntry :=
  ⟨name.spelling, d.type?, d.span, depth⟩

/-- The first of the declarations that declares `name`. -/
def find? (ds : List Decl) (name : String) : Option Decl :=
  List.find? (·.name?.any (·.spelling = name)) ds

variable {ds before rest : List Decl} {x : Decl}

theorem find?_eq_some_iff {name : Occurrence} (hname : x.name? = some name) :
    find? ds name.spelling = some x ↔
      ∃ before after, ds = before ++ x :: after ∧ find? before name.spelling = none := by
  simp [find?, List.find?_eq_some_iff_append, hname]

/-- The first declaration of a name is in front of another if one is. -/
theorem find?_eq_some_iff_mem {name : String} :
    find? before name = some x ↔ find? (before ++ rest) name = some x ∧ x ∈ before := by
  rw [find?, find?, List.find?_append]
  constructor
  · intro h
    rw [h]
    exact ⟨rfl, List.mem_of_find?_eq_some h⟩
  · rintro ⟨h, hx⟩
    rcases hb : List.find? _ before with _ | y
    · rw [hb, Option.none_or] at h
      exact absurd (List.find?_some h) (List.find?_eq_none.1 hb x hx)
    · rwa [hb, Option.some_or] at h

end Decl

/-- The command has a `let` that declares `own`, in the bodies of the `let`s that declare `around`,
the innermost first. -/
inductive Command.HasLet : Command → List Decl → Decl → Prop
  | here {s own body} : HasLet (.letIn s own body) [] own
  | letBody {s d body around own} (h : HasLet body around own) :
      HasLet (.letIn s d body) (around ++ [d]) own
  | item {s c items around own} (hc : c ∈ items) (h : HasLet c around own) :
      HasLet (.sequence s items) around own
  | thenBranch {s e a b around own} (h : HasLet a around own) :
      HasLet (.ifElse s e a b) around own
  | elseBranch {s e a b around own} (h : HasLet b around own) :
      HasLet (.ifElse s e a b) around own
  | onlyBranch {s e a around own} (h : HasLet a around own) : HasLet (.ifNoElse s e a) around own
  | whileBody {s e c around own} (h : HasLet c around own) : HasLet (.whileDo s e c) around own
  | repeatBody {s c e around own} (h : HasLet c around own) : HasLet (.repeatUntil s c e) around own

/-! ## Findings of a `let` -/

/-- Whether a finding is made at a constant or a variable. -/
def Finding.isOfSingle : Finding → Bool
  | accepted .. | rejected .. => true
  | use .. | malformed .. => false

mutual

theorem Expr.not_isOfSingle_findings (env : Env) : ∀ e : Expr, ∀ f ∈ e.findings env, ¬f.isOfSingle
  | .binary _ left _ right => List.forall_mem_append.2 ⟨left.not_isOfSingle_findings env,
      List.forall_mem_cons.2 ⟨Bool.false_ne_true, right.not_isOfSingle_findings env⟩⟩
  | .character .. | .integer .. => List.forall_mem_nil _
  | .name .. | .error _ => List.forall_mem_singleton.2 Bool.false_ne_true
  | .apply _ _ arg => List.forall_mem_cons.2 ⟨Bool.false_ne_true, arg.not_isOfSingle_findings env⟩
  | .unary _ _ operand =>
    List.forall_mem_cons.2 ⟨Bool.false_ne_true, operand.not_isOfSingle_findings env⟩

theorem Param.not_isOfSingle_findings (env : Env) : ∀ q : Param, ∀ f ∈ q.findings env, ¬f.isOfSingle
  | .blank _ => List.forall_mem_nil _
  | .value _ expr => expr.not_isOfSingle_findings env
  | .var .. | .error _ => List.forall_mem_singleton.2 Bool.false_ne_true

end

namespace Decl

variable {outer : Env} {ds : List Declared} {f : Finding}

theorem acceptedOfList_append (xs ys : List Decl) :
    acceptedOfList outer ds (xs ++ ys) = acceptedOfList outer (acceptedOfList outer ds xs) ys := by
  induction xs generalizing ds with
  | nil => rfl
  | cons x xs ih => exact ih

theorem findingsOfList_append (xs ys : List Decl) :
    findingsOfList outer ds (xs ++ ys) =
      findingsOfList outer ds xs ++ findingsOfList outer (acceptedOfList outer ds xs) ys := by
  induction xs generalizing ds with
  | nil => rfl
  | cons x xs ih =>
    rw [List.cons_append, findingsOfList, ih, findingsOfList, List.append_assoc, acceptedOfList]

/-- A finding in declarations one behind the other is made in one of them. -/
theorem mem_findingsOfList {xs : List Decl} : f ∈ findingsOfList outer ds xs ↔
    ∃ before x after, xs = before ++ x :: after ∧
      f ∈ x.findings outer (acceptedOfList outer ds before) := by
  constructor
  · intro h
    induction xs generalizing ds with
    | nil => cases h
    | cons x xs ih =>
      rcases List.mem_append.1 h with h | h
      · exact ⟨[], x, xs, rfl, h⟩
      · obtain ⟨before, y, after, rfl, hy⟩ := ih h
        exact ⟨x :: before, y, after, rfl, hy⟩
  · rintro ⟨before, x, after, rfl, h⟩
    rw [findingsOfList_append]
    exact List.mem_append_right _ (List.mem_append_left _ h)

mutual

theorem acceptedOfList_singles (outer : Env) : ∀ (d : Decl) (ds : List Declared),
    acceptedOfList outer ds d.singles = d.accepted outer ds
  | .const .., _ | .var .., _ | .error .., _ => rfl
  | .sequence _ _ items, ds => acceptedOfList_singlesOfList outer items ds

theorem acceptedOfList_singlesOfList (outer : Env) : ∀ (xs : List Decl) (ds : List Declared),
    acceptedOfList outer ds (singlesOfList xs) = acceptedOfList outer ds xs
  | [], _ => rfl
  | x :: xs, ds => by
    rw [singlesOfList, acceptedOfList_append, x.acceptedOfList_singles outer,
      acceptedOfList_singlesOfList outer xs, acceptedOfList]

end

mutual

/-- A sequence and an `error` node have no finding of their own that is of a constant or a
variable. -/
theorem mem_findingsOfList_singles (outer : Env) (hf : f.isOfSingle) :
    ∀ (d : Decl) (ds : List Declared),
      f ∈ findingsOfList outer ds d.singles ↔ f ∈ d.findings outer ds
  | .const .., _ | .var .., _ => by rw [singles, findingsOfList, findingsOfList, List.append_nil]
  | .sequence _ _ items, ds => mem_findingsOfList_singlesOfList outer hf items ds
  | .error .., _ => by
    refine iff_of_false List.not_mem_nil fun h => ?_
    rw [List.mem_singleton.1 h] at hf
    cases hf

theorem mem_findingsOfList_singlesOfList (outer : Env) (hf : f.isOfSingle) :
    ∀ (xs : List Decl) (ds : List Declared),
      f ∈ findingsOfList outer ds (singlesOfList xs) ↔ f ∈ findingsOfList outer ds xs
  | [], _ => .rfl
  | x :: xs, ds => by
    rw [singlesOfList, findingsOfList_append, findingsOfList, List.mem_append, List.mem_append,
      x.mem_findingsOfList_singles outer hf, x.acceptedOfList_singles outer,
      mem_findingsOfList_singlesOfList outer hf xs]

end

mutual

theorem isSome_name?_of_mem_singles : ∀ d : Decl, ∀ x ∈ d.singles, x.name?.isSome
  | .const .. | .var .. => List.forall_mem_singleton.2 rfl
  | .sequence _ _ items => isSome_name?_of_mem_singlesOfList items
  | .error .. => List.forall_mem_nil _

theorem isSome_name?_of_mem_singlesOfList : ∀ ds : List Decl, ∀ x ∈ singlesOfList ds, x.name?.isSome
  | [] => List.forall_mem_nil _
  | d :: ds => List.forall_mem_append.2
      ⟨d.isSome_name?_of_mem_singles, isSome_name?_of_mem_singlesOfList ds⟩

end

/-- What a constant or a variable inside `outer` declares. -/
def declared (outer : Env) (d : Decl) (name : Occurrence) : Declared :=
  ⟨d.id, d.entry name (outer.length + 1)⟩

variable {x : Decl} {name : Occurrence}

theorem exists_findings_eq (h : x.name? = some name) (outer : Env) (ds : List Declared) :
    x.accepted outer ds = Declared.accept ds (x.declared outer name) ∧
      ∃ rightSide : Env → List Finding, (∀ env, ∀ f ∈ rightSide env, ¬f.isOfSingle) ∧
        x.findings outer ds =
          Finding.ofDeclared outer ds (x.declared outer name) x name rightSide := by
  cases x with
  | const id span _ value =>
    cases h
    exact ⟨rfl, _, fun env => value.not_isOfSingle_findings env, rfl⟩
  | var id span type _ =>
    cases h
    exact ⟨rfl, _, fun env => (Expr.name span type).not_isOfSingle_findings env, rfl⟩
  | sequence _ _ _ => cases h
  | error _ _ => cases h

/-- A constant or a variable is rejected or accepted, according to what is in front of it. -/
theorem mem_findings_iff (h : x.name? = some name) (hf : f.isOfSingle) :
    f ∈ x.findings outer ds ↔
      (∃ previous, Declared.find? ds name.spelling = some previous ∧
        f = .rejected x name previous.entry.span) ∨
      Declared.find? ds name.spelling = none ∧ f = .accepted (x.declared outer name) name := by
  obtain ⟨-, rightSide, hright, heq⟩ := exists_findings_eq h outer ds
  have hentry : (x.declared outer name).entry.name = name.spelling := rfl
  have hnot (env : Env) : f ∉ rightSide env := fun hm => hright env f hm hf
  rw [heq, Finding.ofDeclared, hentry]
  cases Declared.find? ds name.spelling <;> simp [hnot]

end Decl

theorem Declared.find?_accept (ds : List Declared) (d : Declared) (name : String) :
    find? (accept ds d) name =
      (find? ds name).or (if d.entry.name = name then some d else none) := by
  unfold accept
  split
  case h_1 previous h =>
    split
    case isTrue hname => rw [← hname, h, Option.some_or]
    case isFalse => rw [Option.or_none]
  case h_2 h =>
    rw [find?, List.find?_cons]
    by_cases hname : d.entry.name = name
    · rw [← hname, h]
      simp
    · simp [hname, find?]

namespace Decl

variable {outer : Env} {d : Decl} {name : Occurrence}

/-- Behind constants and variables a name is in scope by the first one that declares it, if it is
not in front of them. -/
theorem map_span_find?_acceptedOfList {xs : List Decl} (hxs : ∀ x ∈ xs, x.name?.isSome)
    (ds : List Declared) (name : String) :
    (Declared.find? (acceptedOfList outer ds xs) name).map (·.entry.span) =
      ((Declared.find? ds name).map (·.entry.span)).or ((find? xs name).map span) := by
  induction xs generalizing ds with
  | nil => exact (Option.or_none).symm
  | cons x xs ih =>
    obtain ⟨hx, hxs⟩ := List.forall_mem_cons.1 hxs
    obtain ⟨o, ho⟩ := Option.isSome_iff_exists.1 hx
    rw [acceptedOfList, ih hxs, (exists_findings_eq ho outer ds).1, Declared.find?_accept,
      Option.map_or, Option.or_assoc]
    by_cases hname : o.spelling = name <;> simp [hname, ho, declared, entry, find?]

/-- A constant or a variable behind others is accepted, or rejected if one of them declares its
name, and the place of the first of these is told. -/
theorem mem_findings_behind_iff {before : List Decl} (hbefore : ∀ y ∈ before, y.name?.isSome)
    {x : Decl} (hname : x.name? = some name) {f : Finding} (hf : f.isOfSingle) :
    f ∈ x.findings outer (acceptedOfList outer [] before) ↔
      (∃ first, find? before name.spelling = some first ∧ f = .rejected x name first.span) ∨
        find? before name.spelling = none ∧ f = .accepted (x.declared outer name) name := by
  have hspan : (Declared.find? (acceptedOfList outer [] before) name.spelling).map
      (·.entry.span) = (find? before name.spelling).map span :=
    (map_span_find?_acceptedOfList hbefore [] name.spelling).trans Option.none_or
  rw [mem_findings_iff hname hf]
  generalize Declared.find? _ name.spelling = found, find? before name.spelling = first at hspan ⊢
  cases found <;> cases first <;> simp_all

/-- The findings at constants and variables of a `let`. -/
theorem mem_findings_nil_iff {f : Finding} (hf : f.isOfSingle) : f ∈ d.findings outer [] ↔
    ∃ before x after name, d.singles = before ++ x :: after ∧ x.name? = some name ∧
      ((∃ first, find? before name.spelling = some first ∧ f = .rejected x name first.span) ∨
        find? before name.spelling = none ∧ f = .accepted (x.declared outer name) name) := by
  have hsingle {before after : List Decl} {x : Decl} (h : d.singles = before ++ x :: after) :
      (∀ y ∈ before, y.name?.isSome) ∧ x.name?.isSome := by
    have := d.isSome_name?_of_mem_singles
    rw [h, List.forall_mem_append, List.forall_mem_cons] at this
    exact ⟨this.1, this.2.1⟩
  rw [← d.mem_findingsOfList_singles outer hf, mem_findingsOfList]
  constructor
  · rintro ⟨before, x, after, h, hx⟩
    obtain ⟨hbefore, hsome⟩ := hsingle h
    obtain ⟨name, hname⟩ := Option.isSome_iff_exists.1 hsome
    exact ⟨before, x, after, name, h, hname, (mem_findings_behind_iff hbefore hname hf).1 hx⟩
  · rintro ⟨before, x, after, name, h, hname, hx⟩
    exact ⟨before, x, after, h, (mem_findings_behind_iff (hsingle h).1 hname hf).2 hx⟩

variable {x : Decl}

theorem accepted_mem_findings_iff {e : Declared} : .accepted e name ∈ d.findings outer [] ↔
    ∃ first, first.name? = some name ∧ find? d.singles name.spelling = some first ∧
      first.declared outer name = e := by
  rw [mem_findings_nil_iff rfl]
  constructor
  · rintro ⟨before, x, after, o, h, ho, ⟨first, -, heq⟩ | ⟨hnone, heq⟩⟩
    · cases heq
    · cases heq
      exact ⟨x, ho, (find?_eq_some_iff ho).2 ⟨before, after, h, hnone⟩, rfl⟩
  · rintro ⟨first, hname, hfirst, rfl⟩
    obtain ⟨before, after, h, hnone⟩ := (find?_eq_some_iff hname).1 hfirst
    exact ⟨before, first, after, name, h, hname, .inr ⟨hnone, rfl⟩⟩

theorem rejected_mem_findings_iff {span : Span} : .rejected x name span ∈ d.findings outer [] ↔
    ∃ before after first, d.singles = before ++ x :: after ∧ x.name? = some name ∧
      find? d.singles name.spelling = some first ∧ first ∈ before ∧ first.span = span := by
  rw [mem_findings_nil_iff rfl]
  constructor
  · rintro ⟨before, x, after, o, h, ho, ⟨first, hfirst, heq⟩ | ⟨-, heq⟩⟩
    · cases heq
      rw [find?_eq_some_iff_mem, ← h] at hfirst
      exact ⟨before, after, first, h, ho, hfirst.1, hfirst.2, rfl⟩
    · cases heq
  · rintro ⟨before, after, first, h, ho, hfind, hmem, rfl⟩
    rw [h] at hfind
    exact ⟨before, x, after, name, h, ho,
      .inl ⟨first, find?_eq_some_iff_mem.2 ⟨hfind, hmem⟩, rfl⟩⟩

end Decl

/-! ## Findings of a command -/

/-- The environment in the bodies of the `let`s that declare `around`, the innermost first. -/
def Env.within (env : Env) : List Decl → Env
  | [] => env
  | d :: around => d.accepted (env.within around) [] :: env.within around

theorem Env.within_append_singleton (env : Env) (around : List Decl) (d : Decl) :
    env.within (around ++ [d]) = within (d.accepted env [] :: env) around := by
  induction around with
  | nil => rfl
  | cons d around ih => rw [List.cons_append, within, ih, within]

theorem Env.length_within (env : Env) (around : List Decl) :
    (env.within around).length = around.length + env.length := by
  induction around with
  | nil => exact (Nat.zero_add _).symm
  | cons d around ih => rw [within, List.length_cons, ih, List.length_cons, Nat.add_right_comm]

namespace Command

variable {f : Finding}

/-- What is found in the declarations of a `let` is found in the command. -/
theorem HasLet.mem_findings {c : Command} {around : List Decl} {own : Decl}
    (h : c.HasLet around own) (env : Env) (hf : f ∈ own.findings (env.within around) []) :
    f ∈ c.findings env := by
  induction h generalizing env with
  | here => exact List.mem_append_left _ hf
  | letBody _ ih =>
    rw [Env.within_append_singleton] at hf
    exact List.mem_append_right _ (ih _ hf)
  | item hc _ ih =>
    rw [findings, findingsOfList_eq_flatMap]
    exact List.mem_flatMap_of_mem hc (ih env hf)
  | thenBranch _ ih => exact List.mem_append_right _ (List.mem_append_left _ (ih env hf))
  | elseBranch _ ih => exact List.mem_append_right _ (List.mem_append_right _ (ih env hf))
  | onlyBranch _ ih | whileBody _ ih => exact List.mem_append_right _ (ih env hf)
  | repeatBody _ ih => exact List.mem_append_left _ (ih env hf)

mutual

/-- What is found at a constant or a variable is found in the declarations of a `let`. -/
theorem exists_hasLet (hf : f.isOfSingle) : ∀ (c : Command) (env : Env), f ∈ c.findings env →
    ∃ around own, c.HasLet around own ∧ f ∈ own.findings (env.within around) []
  | .assign _ _ value, env, h => by
    -- Nothing is declared in an expression or a parameter.
    rcases List.mem_cons.1 h with rfl | h
    · cases hf
    · exact absurd hf (value.not_isOfSingle_findings env f h)
  | .blank _, _, h => absurd h List.not_mem_nil
  | .call _ _ arg, env, h => by
    rcases List.mem_cons.1 h with rfl | h
    · cases hf
    · exact absurd hf (arg.not_isOfSingle_findings env f h)
  | .ifElse _ cond thenBranch elseBranch, env, h => by
    rcases List.mem_append.1 h with h | h
    · exact absurd hf (cond.not_isOfSingle_findings env f h)
    rcases List.mem_append.1 h with h | h
    · obtain ⟨around, own, hlet, h⟩ := thenBranch.exists_hasLet hf env h
      exact ⟨around, own, hlet.thenBranch, h⟩
    · obtain ⟨around, own, hlet, h⟩ := elseBranch.exists_hasLet hf env h
      exact ⟨around, own, hlet.elseBranch, h⟩
  | .ifNoElse _ cond thenBranch, env, h => by
    rcases List.mem_append.1 h with h | h
    · exact absurd hf (cond.not_isOfSingle_findings env f h)
    · obtain ⟨around, own, hlet, h⟩ := thenBranch.exists_hasLet hf env h
      exact ⟨around, own, hlet.onlyBranch, h⟩
  | .letIn _ decl body, env, h => by
    rcases List.mem_append.1 h with h | h
    · exact ⟨[], decl, .here, h⟩
    · obtain ⟨around, own, hlet, h⟩ := body.exists_hasLet hf _ h
      exact ⟨around ++ [decl], own, hlet.letBody, Env.within_append_singleton env around decl ▸ h⟩
  | .sequence _ items, env, h => by
    obtain ⟨c, hc, around, own, hlet, h⟩ := exists_hasLetOfList hf items env h
    exact ⟨around, own, .item hc hlet, h⟩
  | .whileDo _ cond body, env, h => by
    rcases List.mem_append.1 h with h | h
    · exact absurd hf (cond.not_isOfSingle_findings env f h)
    · obtain ⟨around, own, hlet, h⟩ := body.exists_hasLet hf env h
      exact ⟨around, own, hlet.whileBody, h⟩
  | .repeatUntil _ body cond, env, h => by
    rcases List.mem_append.1 h with h | h
    · obtain ⟨around, own, hlet, h⟩ := body.exists_hasLet hf env h
      exact ⟨around, own, hlet.repeatBody, h⟩
    · exact absurd hf (cond.not_isOfSingle_findings env f h)
  | .error _, _, h => by
    rw [List.mem_singleton.1 h] at hf
    cases hf

theorem exists_hasLetOfList (hf : f.isOfSingle) : ∀ (cs : List Command) (env : Env),
    f ∈ Command.findingsOfList env cs →
      ∃ c ∈ cs, ∃ around own, c.HasLet around own ∧ f ∈ own.findings (env.within around) []
  | [], _, h => absurd h List.not_mem_nil
  | c :: cs, env, h => by
    rcases List.mem_append.1 h with h | h
    · exact ⟨c, List.mem_cons_self, c.exists_hasLet hf env h⟩
    · obtain ⟨d, hd, hlet⟩ := exists_hasLetOfList hf cs env h
      exact ⟨d, List.mem_cons_of_mem _ hd, hlet⟩

end

theorem mem_findings_iff (hf : f.isOfSingle) {c : Command} {env : Env} : f ∈ c.findings env ↔
    ∃ around own, c.HasLet around own ∧ f ∈ own.findings (env.within around) [] := by
  refine ⟨c.exists_hasLet hf env, ?_⟩
  rintro ⟨around, own, hlet, h⟩
  exact hlet.mem_findings env h

end Command

/-! ## What the tables tell -/

/-- What `n` holds of declarations tells where in `c` they are. -/
structure Naming.Locates (n : Naming) (c : Command) : Prop where
  /-- The first declaration of a name in each `let` is entered, with the number of the `let`s that
  it is in, its own one and those around. -/
  declared : ∀ (i : NodeId) (e : DeclEntry), n.declarations[i]? = some e ↔
    ∃ around own first name, c.HasLet around own ∧ first.name? = some name ∧
      Decl.find? own.singles name.spelling = some first ∧ first.id = i ∧
      first.entry name (around.length + 1) = e
  /-- Each later one is reported at its name, with the place of the first. -/
  repeated : ∀ (name : String) (previous : Option Span) (span : Span),
    ⟨.alreadyDeclared name previous, span⟩ ∈ n.errors ↔
      ∃ around own before again after o first, c.HasLet around own ∧
        own.singles = before ++ again :: after ∧ again.name? = some o ∧ o.spelling = name ∧
        o.span = span ∧ Decl.find? own.singles name = some first ∧ first ∈ before ∧
        previous = some first.span

namespace Naming

variable {p : Program} {fs : List Finding}

theorem alreadyDeclared_mem_errors {name : String} {previous : Option Span} {span : Span} :
    ⟨.alreadyDeclared name previous, span⟩ ∈ fs.filterMap Finding.error? ↔
      ∃ decl o place, .rejected decl o place ∈ fs ∧ o.spelling = name ∧ o.span = span ∧
        previous = some place := by
  rw [List.mem_filterMap]
  constructor
  · rintro ⟨f, hf, he⟩
    cases f with
    | rejected decl o place =>
      cases he
      exact ⟨decl, o, place, hf, rfl, rfl, rfl⟩
    | use o env =>
      rw [Finding.error?] at he
      split at he <;> cases he
    | accepted d o => cases he
    | malformed what place => cases he
  · rintro ⟨decl, o, place, hf, rfl, rfl, rfl⟩
    exact ⟨_, hf, rfl⟩

/-- What the findings of a program tell of its declarations. -/
theorem locates_add (h : ((p.findings.flatMap Finding.labelled).map Labelled.id).Nodup) :
    (empty.add p.findings).Locates p.command where
  declared i e := by
    rw [Finding.declarations_eq_some h]
    constructor
    · rintro ⟨name, hf⟩
      obtain ⟨around, own, hlet, hf⟩ := (Command.mem_findings_iff rfl).1 hf
      obtain ⟨first, hname, hfirst, heq⟩ := Decl.accepted_mem_findings_iff.1 hf
      cases heq
      refine ⟨around, own, first, name, hlet, hname, hfirst, rfl, ?_⟩
      rw [Env.length_within]
      rfl
    · rintro ⟨around, own, first, name, hlet, hname, hfirst, rfl, rfl⟩
      refine ⟨name, hlet.mem_findings [] (Decl.accepted_mem_findings_iff.2
        ⟨first, hname, hfirst, ?_⟩)⟩
      rw [Decl.declared, Env.length_within]
      rfl
  repeated name previous span := by
    refine (List.mem_append.trans (or_iff_right List.not_mem_nil)).trans
      (alreadyDeclared_mem_errors.trans ⟨?_, ?_⟩)
    · rintro ⟨again, o, place, hf, rfl, rfl, rfl⟩
      obtain ⟨around, own, hlet, hf⟩ := (Command.mem_findings_iff rfl).1 hf
      obtain ⟨before, after, first, hsplit, ho, hfirst, hmem, rfl⟩ :=
        Decl.rejected_mem_findings_iff.1 hf
      exact ⟨around, own, before, again, after, o, first, hlet, hsplit, ho, rfl, rfl, hfirst, hmem,
        rfl⟩
    · rintro ⟨around, own, before, again, after, o, first, hlet, hsplit, ho, rfl, rfl, hfirst, hmem,
        rfl⟩
      exact ⟨again, o, first.span, hlet.mem_findings [] (Decl.rejected_mem_findings_iff.2
        ⟨before, after, first, hsplit, ho, hfirst, hmem, rfl⟩), rfl, rfl, rfl⟩

/-- No table refers to an entry that is not there, however ids are given.  Where each is given once,
the tables tell the places of declarations. -/
theorem ofProgram_locates (p : Program) : (ofProgram p).Linked ∧
    ((p.command.labelled.map Labelled.id).Nodup → (ofProgram p).Locates p.command) := by
  refine ⟨linked_ofProgram p, fun h => ?_⟩
  have hf : p.findings.flatMap Finding.labelled = p.command.labelled :=
    p.command.flatMap_labelled_findings []
  rw [ofProgram_eq_add p h]
  exact locates_add (hf ▸ h)

end Naming

/-- The declaration `const n ~ 1` with the id `id`, at `start`. -/
def Decl.numbered (id : NodeId) (start : Nat) : Decl :=
  .const id ⟨start, start + 11⟩ ⟨id + 1, "n", ⟨start + 6, start + 7⟩⟩
    (.integer ⟨start + 10, start + 11⟩ "1")

/-- The program `let const n ~ 1 in let const n ~ 1; const n ~ 1 in nothing`. -/
def Program.declaredInside : Program where
  command :=
    .letIn ⟨0, 58⟩ (.numbered 1 4)
      (.letIn ⟨19, 58⟩ (.sequence 3 ⟨23, 47⟩ [.numbered 4 23, .numbered 6 36]) (.blank ⟨51, 58⟩))
  span := ⟨0, 58⟩

/-- The inner `let` may declare the name of the outer one, but not twice. -/
theorem Naming.ofProgram_locates_declaredInside :
    let n := ofProgram .declaredInside
    (Program.declaredInside.command.labelled.map Labelled.id).Nodup ∧
      n.declarations[(1 : NodeId)]? = some ⟨"n", none, ⟨4, 15⟩, 1⟩ ∧
      n.declarations[(4 : NodeId)]? = some ⟨"n", none, ⟨23, 34⟩, 2⟩ ∧
      ⟨.alreadyDeclared "n" (some ⟨23, 34⟩), ⟨42, 43⟩⟩ ∈ n.errors := by
  intro n
  have hd : (Program.declaredInside.command.labelled.map Labelled.id).Nodup := by decide
  have hn : n.Locates Program.declaredInside.command := (ofProgram_locates .declaredInside).2 hd
  refine ⟨hd, (hn.declared 1 _).2 ?_, (hn.declared 4 _).2 ?_, (hn.repeated ..).2 ?_⟩
  · exact ⟨_, _, .numbered 1 4, _, .here, rfl, rfl, rfl, rfl⟩
  · exact ⟨_, _, .numbered 4 23, _, .letBody .here, rfl, rfl, rfl, rfl⟩
  · exact ⟨_, _, [_], .numbered 6 36, [], _, .numbered 4 23, .letBody .here, rfl, rfl, rfl, rfl,
      rfl, List.mem_cons_self, rfl⟩

end TriLang
