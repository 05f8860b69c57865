import TriLang.Proofs.Operators

/-!
# Declarations lie apart

Each declaration that is read ends in front of the name that the next one declares, also where the
text between them is no program.  So the place at which a name is reported as declared again never
overlaps that of the declaration which has the name.
-/

namespace TriLang

/-- `s` begins and ends in front of `t`. -/
def Span.Precedes (s t : Span) : Prop := s.start < t.start ∧ s.stop ≤ t.start

/-- What `x` declares lies in front of the name that `y` declares. -/
def Leaf.Precedes (x y : Leaf) : Prop :=
  ∀ s ∈ x.declares?, ∀ t ∈ y.declares?, s.1.Precedes t.2

/-! ## Cursors -/

namespace Cursor

/-- The tokens ahead of `c` are not empty and lie one behind the other, behind what is read. -/
structure Spread (c : Cursor) : Prop where
  nonempty : ∀ t ∈ c.pending, t.span.start < t.span.stop
  ordered : c.pending.Pairwise (·.span.stop ≤ ·.span.start)
  readTo : ∀ t ∈ c.pending, c.readTo ≤ t.span.start

variable {c d e f : Cursor} {kind : TokenKind} {t : Token} {o : Occurrence} {fs : List Fault}
  {xs ys : List Leaf}

theorem Spread.past {rest : List Token} (h : c.Spread) (hp : c.pending = t :: rest) :
    (c.past t rest).Spread := by
  obtain ⟨hnonempty, hordered, -⟩ := h
  rw [hp] at hnonempty hordered
  obtain ⟨ht, hrest⟩ := List.pairwise_cons.1 hordered
  exact ⟨(List.forall_mem_cons.1 hnonempty).2, hrest, ht⟩

theorem Spread.steps (h : c.Spread) (hs : c.Steps kind t d) : d.Spread := by
  rw [hs.eq_past]
  exact h.past hs.pending_eq

theorem Spread.handOut (h : c.Spread) : c.handOut.Spread := ⟨h.nonempty, h.ordered, h.readTo⟩

theorem Spread.occurs (h : c.Spread) (ho : c.Occurs kind o d) : d.Spread := by
  obtain ⟨hs⟩ := ho
  exact (h.steps hs).handOut

theorem Spread.expects (h : c.Spread) (he : c.Expects kind d fs) : d.Spread := by
  cases he with
  | missed => exact h
  | met =>
    unfold stepOver
    split
    case h_1 hp => exact ⟨by simp [hp], by simp [hp], by simp [hp]⟩
    case h_2 t rest hp => exact h.past hp

/-- The token under a cursor lies in front of all behind it. -/
theorem Spread.precedes {rest : List Token} (h : c.Spread) (hp : c.pending = t :: rest) :
    ∀ u ∈ rest, t.span.Precedes u.span := by
  intro u hu
  obtain ⟨hnonempty, hordered, -⟩ := h
  rw [hp] at hnonempty hordered
  have ht := hnonempty t List.mem_cons_self
  have hu := (List.pairwise_cons.1 hordered).1 u hu
  exact ⟨Nat.lt_of_lt_of_le ht hu, hu⟩

/-- The declarations read from `c` to `d` lie apart, and in front of all that is ahead of `d`. -/
structure Parts (c d : Cursor) (leaves : List Leaf) : Prop where
  keeps : c.Keeps d leaves
  spread : d.Spread
  apart : leaves.Pairwise Leaf.Precedes
  behind : ∀ x ∈ leaves, ∀ s ∈ x.declares?, ∀ t ∈ d.pending, s.1.Precedes t.span

namespace Parts

theorem of_none (hk : c.Keeps d xs) (hd : d.Spread) (hx : ∀ x ∈ xs, x.declares? = none) :
    c.Parts d xs where
  keeps := hk
  spread := hd
  apart := List.pairwise_of_forall_mem_list fun x hm y _ s hs => by simp [hx x hm] at hs
  behind x hm s hs := by simp [hx x hm] at hs

theorem append (h : c.Parts d xs) (h' : d.Parts e ys) : c.Parts e (xs ++ ys) where
  keeps := h.keeps.append h'.keeps
  spread := h'.spread
  apart := by
    refine List.pairwise_append.2 ⟨h.apart, h'.apart, fun x hx y hy s hs t ht => ?_⟩
    -- The name that `y` declares is one of the tokens ahead of `d`.
    have hname : y.token.span = t.2 := by
      cases y with
      | declared i span o => cases ht; rfl
      | _ => cases ht
    exact hname ▸ h.behind x hx s hs _ (h'.keeps.token_mem hy)
  behind := by
    refine List.forall_mem_append.2 ⟨fun x hx s hs t ht => ?_, h'.behind⟩
    exact h.behind x hx s hs t (h'.keeps.pending_subset ht)

/-- A declaration read from its token `t` on, with its name in front of what has been read last. -/
theorem declared (hc : c.Spread) (hp : c.pending = t :: d.pending) (ho : d.Occurs .identifier o e)
    (h : e.Parts f ys) (hys : ∀ y ∈ ys, y.declares? = none) (i : NodeId) :
    d.Parts f (.declared i (f.spanSince t.span) o :: ys) where
  keeps := (Keeps.declared ho i _).append h.keeps
  spread := h.spread
  apart := List.pairwise_cons.2 ⟨fun y hy s _ u hu => by simp [hys y hy] at hu, h.apart⟩
  behind := by
    refine List.forall_mem_cons.2 ⟨?_, h.behind⟩
    rintro s ⟨⟩ u hu
    -- The declaration ends at its first token or with what has been read last.
    have hd : u ∈ d.pending :=
      (Keeps.declared ho i t.span).pending_subset (h.keeps.pending_subset hu)
    obtain ⟨hstart, hstop⟩ := hc.precedes hp u hd
    exact ⟨hstart, Nat.max_le.2 ⟨h.spread.readTo u hu, hstop⟩⟩

end Parts

theorem threads_parts : Threads fun c d xs => c.Spread → c.Parts d xs where
  refl c hc := .of_none (threads_keeps.refl c) hc (List.forall_mem_nil _)
  append h h' hc := (h hc).append (h' (h hc).spread)
  nothing h hc := .of_none (h hc).keeps.nothing (h hc).spread (List.forall_mem_nil _)
  handOut h hc := ⟨(h hc).keeps, (h hc).spread.handOut, (h hc).apart, (h hc).behind⟩
  steps hs hc := .of_none (threads_keeps.steps hs) (hc.steps hs) (List.forall_mem_nil _)
  expects he hc := .of_none (.expects he) (hc.expects he) (List.forall_mem_nil _)
  leaf hs hx hn hc := .of_none (.leaf hs hx) (hc.steps hs) (List.forall_mem_singleton.2 hn)
  declared i hp h ho h' hys hc :=
    (h hc).append (.declared hc hp ho (h' ((h hc).spread.occurs ho)) hys i)

end Cursor

/-- The tokens of a source text are spread over it. -/
theorem Cursor.spread_ofTokens (source : String) :
    (ofTokens (Tokens.ofSource source).toList).Spread := by
  have hl := Scan.layout_lexemes 0 source.toList [] rfl rfl
  rw [Tokens.ofSource, ofTokens_concat _ rfl]
  refine ⟨fun t ht => ?_, ?_, fun t _ => Nat.zero_le _⟩
  · obtain ⟨x, hx, rfl⟩ := List.mem_map.1 ht
    exact (hl.standsIn x hx).1
  · simpa [List.pairwise_map] using hl.ordered

theorem Program.pairwise_precedes_leaves (source : String) :
    (ofSource source).command.leaves.Pairwise Leaf.Precedes :=
  ((Cursor.singleCommand_outcome _).threads Cursor.threads_parts
    (Cursor.spread_ofTokens source)).apart

/-! ## Findings -/

/-- A declaration that is rejected has its name behind the declaration that has the name. -/
def Finding.Apart : Finding → Prop
  | rejected _ name previous => previous.Precedes name.span
  | use .. | accepted .. | malformed .. => True

mutual

theorem Expr.apart_findings (env : Env) : ∀ e : Expr, ∀ f ∈ e.findings env, f.Apart
  | .binary _ left _ right =>
    List.forall_mem_append.2 ⟨left.apart_findings env,
      List.forall_mem_cons.2 ⟨trivial, right.apart_findings env⟩⟩
  | .character .. | .integer .. => List.forall_mem_nil _
  | .name .. | .error _ => List.forall_mem_singleton.2 trivial
  | .apply _ _ arg => List.forall_mem_cons.2 ⟨trivial, arg.apart_findings env⟩
  | .unary _ _ operand => List.forall_mem_cons.2 ⟨trivial, operand.apart_findings env⟩

theorem Param.apart_findings (env : Env) : ∀ q : Param, ∀ f ∈ q.findings env, f.Apart
  | .blank _ => List.forall_mem_nil _
  | .value _ expr => expr.apart_findings env
  | .var .. | .error _ => List.forall_mem_singleton.2 trivial

end

namespace Declared

/-- The declarations `ds` lie in front of all names that `leaves` declare. -/
def Precede (ds : List Declared) (leaves : List Leaf) : Prop :=
  ∀ e ∈ ds, ∀ x ∈ leaves, ∀ t ∈ x.declares?, e.entry.span.Precedes t.2

variable {ds : List Declared} {d : Declared} {outer : Env} {xs ys : List Leaf}

theorem Precede.append_iff : Precede ds (xs ++ ys) ↔ Precede ds xs ∧ Precede ds ys := by
  simp only [Precede, List.forall_mem_append, ← forall_and]

theorem Precede.accept (h : Precede ds ys) {i : NodeId} {name : Occurrence}
    (hd : ∀ y ∈ ys, (Leaf.declared i d.entry.span name).Precedes y) :
    Precede (accept ds d) ys := by
  intro e he y hy t ht
  rcases mem_accept he with he | rfl
  · exact h e he y hy t ht
  · exact hd y hy _ rfl t ht

end Declared

open Declared in
mutual

/-- Names behind a declaration lie behind all that is in scope there. -/
theorem Decl.precede_accepted {outer : Env} {ys : List Leaf} : ∀ (d : Decl) {ds : List Declared},
    Precede ds ys → (∀ x ∈ d.leaves, ∀ y ∈ ys, x.Precedes y) → Precede (d.accepted outer ds) ys
  | .const .., _, h, hd => h.accept (hd _ List.mem_cons_self)
  | .var .., _, h, hd => h.accept (hd _ (List.mem_cons_of_mem _ List.mem_cons_self))
  | .sequence _ _ items, _, h, hd => Decl.precede_acceptedOfList items h hd
  | .error .., _, h, _ => h

theorem Decl.precede_acceptedOfList {outer : Env} {ys : List Leaf} :
    ∀ (rest : List Decl) {ds : List Declared}, Precede ds ys →
      (∀ x ∈ Decl.leavesOfList rest, ∀ y ∈ ys, x.Precedes y) →
      Precede (Decl.acceptedOfList outer ds rest) ys
  | [], _, h, _ => h
  | d :: rest, _, h, hd =>
    have ⟨hd, hrest⟩ := List.forall_mem_append.1 hd
    Decl.precede_acceptedOfList rest (d.precede_accepted h hd) hrest

end

theorem Finding.apart_ofDeclared {outer : Env} {ds : List Declared} {d : Declared} {decl : Decl}
    {name : Occurrence} {rightSide : Env → List Finding}
    (hd : ∀ e ∈ ds, e.entry.span.Precedes name.span)
    (hr : ∀ env, ∀ f ∈ rightSide env, f.Apart) :
    ∀ f ∈ ofDeclared outer ds d decl name rightSide, f.Apart := by
  unfold ofDeclared
  split
  case h_1 previous hfind =>
    exact List.forall_mem_singleton.2 (hd previous (List.mem_of_find?_eq_some hfind))
  case h_2 => exact List.forall_mem_cons.2 ⟨trivial, hr _⟩

open Declared in
mutual

theorem Decl.apart_findings (outer : Env) : ∀ (d : Decl) {ds : List Declared},
    Precede ds d.leaves → d.leaves.Pairwise Leaf.Precedes → ∀ f ∈ d.findings outer ds, f.Apart
  | .const _ _ _ value, _, h, _ =>
    Finding.apart_ofDeclared (fun e he => h e he _ List.mem_cons_self _ rfl)
      fun env => value.apart_findings env
  | .var _ _ type _, _, h, _ =>
    have htype : ∀ env, ∀ f ∈ [Finding.use type env], f.Apart :=
      fun _ => List.forall_mem_singleton.2 trivial
    Finding.apart_ofDeclared
      (fun e he => h e he _ (List.mem_cons_of_mem _ List.mem_cons_self) _ rfl) htype
  | .sequence _ _ items, _, h, hp => Decl.apart_findingsOfList outer items h hp
  | .error .., _, _, _ => List.forall_mem_singleton.2 trivial

theorem Decl.apart_findingsOfList (outer : Env) : ∀ (rest : List Decl) {ds : List Declared},
    Precede ds (Decl.leavesOfList rest) → (Decl.leavesOfList rest).Pairwise Leaf.Precedes →
      ∀ f ∈ Decl.findingsOfList outer ds rest, f.Apart
  | [], _, _, _ => List.forall_mem_nil _
  | d :: rest, _, h, hp =>
    have ⟨hd, hrest⟩ := Precede.append_iff.1 h
    have ⟨hpd, hprest, hcross⟩ := List.pairwise_append.1 hp
    List.forall_mem_append.2 ⟨d.apart_findings outer hd hpd,
      Decl.apart_findingsOfList outer rest (d.precede_accepted hrest hcross) hprest⟩

end

mutual

theorem Command.apart_findings : ∀ (c : Command) (env : Env),
    c.leaves.Pairwise Leaf.Precedes → ∀ f ∈ c.findings env, f.Apart
  | .assign _ _ value, env, _ => List.forall_mem_cons.2 ⟨trivial, value.apart_findings env⟩
  | .blank _, _, _ => List.forall_mem_nil _
  | .call _ _ arg, env, _ => List.forall_mem_cons.2 ⟨trivial, arg.apart_findings env⟩
  | .ifElse _ cond a b, env, h =>
    have ⟨_, hbranches, _⟩ := List.pairwise_append.1 h
    have ⟨ha, hb, _⟩ := List.pairwise_append.1 hbranches
    List.forall_mem_append.2 ⟨cond.apart_findings env,
      List.forall_mem_append.2 ⟨a.apart_findings env ha, b.apart_findings env hb⟩⟩
  | .ifNoElse _ cond a, env, h =>
    have ⟨_, ha, _⟩ := List.pairwise_append.1 h
    List.forall_mem_append.2 ⟨cond.apart_findings env, a.apart_findings env ha⟩
  | .letIn _ decl body, env, h =>
    have ⟨hd, hb, _⟩ := List.pairwise_append.1 h
    List.forall_mem_append.2 ⟨decl.apart_findings env (List.forall_mem_nil _) hd,
      body.apart_findings _ hb⟩
  | .sequence _ items, env, h => Command.apart_findingsOfList items env h
  | .whileDo _ cond body, env, h =>
    have ⟨_, hb, _⟩ := List.pairwise_append.1 h
    List.forall_mem_append.2 ⟨cond.apart_findings env, body.apart_findings env hb⟩
  | .repeatUntil _ body cond, env, h =>
    have ⟨hb, _, _⟩ := List.pairwise_append.1 h
    List.forall_mem_append.2 ⟨body.apart_findings env hb, cond.apart_findings env⟩
  | .error _, _, _ => List.forall_mem_singleton.2 trivial

theorem Command.apart_findingsOfList : ∀ (cs : List Command) (env : Env),
    (Command.leavesOfList cs).Pairwise Leaf.Precedes →
      ∀ f ∈ Command.findingsOfList env cs, f.Apart
  | [], _, _ => List.forall_mem_nil _
  | c :: cs, env, h =>
    have ⟨hc, hcs, _⟩ := List.pairwise_append.1 h
    List.forall_mem_append.2 ⟨c.apart_findings env hc, Command.apart_findingsOfList cs env hcs⟩

end

/-- What is declared again in a source text lies behind what has its name already. -/
theorem Naming.precedes_of_alreadyDeclared {source : String}
    (hs : source.utf8ByteSize < 2 ^ 31 - 1) {name : String} {previous span : Span}
    (h : ⟨.alreadyDeclared name (some previous), span⟩ ∈ (ofProgram (.ofSource source)).errors) :
    previous.Precedes span := by
  rw [(agrees_ofSource hs).errors, List.mem_filterMap] at h
  obtain ⟨f, hf, herror⟩ := h
  have hapart := (Program.ofSource source).command.apart_findings []
    (Program.pairwise_precedes_leaves source) f hf
  cases f with
  | rejected decl o p =>
    cases herror
    exact hapart
  | use o env =>
    simp only [Finding.error?] at herror
    split at herror <;> cases herror
  | accepted d o => cases herror
  | malformed what s => cases herror

end TriLang
