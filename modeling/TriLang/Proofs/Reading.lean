import TriLang.Cursor.Command
import TriLang.Proofs.Grammar

/-!
# What readings read

A reading without faults reads a phrase and gives its tree.  A reading with faults reads, up to
its first fault, the beginning of a phrase: what it has read can be completed.  Both are one
property of a reading, `Conforms`, which passes along `andThen`, so that each production takes one
line for each of its parts.
-/

namespace TriLang

namespace Cursor

/-- The tokens from `c` up to the index `n`. -/
def upTo (c : Cursor) (n : Nat) : List Token := c.pending.take (n - c.index)

@[simp] theorem upTo_index (c : Cursor) : c.upTo c.index = [] := by simp [upTo]

/-- Tokens up to an index behind `d` are those up to `d` and those from `d` on. -/
theorem upTo_eq_append {c d : Cursor} (h : c.Leads d) {n : Nat} (hn : d.index ≤ n) :
    c.upTo n = c.upTo d.index ++ d.upTo n := by
  obtain ⟨us, hp, hi, -⟩ := h
  have hd : d.index - c.index = us.length := by omega
  have hc : n - c.index = us.length + (n - d.index) := by omega
  rw [upTo, upTo, upTo, hp, hc, hd, List.take_length_add_append, List.take_left]

theorem upTo_ahead {c d : Cursor} {t : Token} {h : d.size < c.size ∧ c.Leads d}
    (ha : c.ahead = .token t d h) : c.upTo d.index = [t] := by
  obtain ⟨hp, hd⟩ := ahead_eq_token ha
  have hi : d.index = c.index + 1 := congrArg Cursor.index hd
  simp [upTo, hp, hi]

end Cursor

/-- Some token of a kind. -/
def Token.ofKind (kind : TokenKind) : Token := ⟨kind, "", .empty 0⟩

theorem Fault.RaisedBetween.index_bounds {f : Fault} {c d : Cursor} (h : f.RaisedBetween c d) :
    c.index ≤ f.index ∧ f.index ≤ d.index := by
  obtain ⟨e, hc, hd, hi, -⟩ := h
  exact ⟨hi ▸ hc.index_le, hi ▸ hd.index_le⟩

namespace Read

variable {α β : Type} {c d : Cursor} {L : List Token → α → Prop}

/-- Without faults, what `r` reads is in `L` with its node.  With faults, some tokens behind what
precedes the first of them complete a member of `L`. -/
structure Conforms (r : Read α c) (L : List Token → α → Prop) : Prop where
  whole : r.faults = [] → L (c.upTo r.next.index) r.node
  completable : ∀ f ∈ r.faults.head?, ∃ ts a, L (c.upTo f.index ++ ts) a

namespace Conforms

theorem exists_mem {r : Read α c} (h : r.Conforms L) : ∃ ts a, L ts a := by
  rcases hr : r.faults with _ | ⟨f, fs⟩
  · exact ⟨_, _, h.whole hr⟩
  · obtain ⟨ts, a, hL⟩ := h.completable f (by simp [hr])
    exact ⟨_, a, hL⟩

theorem done {a : α} (h : L [] a) : (Read.done a : Read α c).Conforms L where
  whole _ := by simpa [Read.done] using h
  completable := by simp [Read.done]

theorem fresh {a : NodeId → α} (h : ∀ i, L [] (a i)) : (Read.fresh a : Read α c).Conforms L where
  whole _ := by simpa [Read.fresh, Cursor.upTo] using h c.nextId
  completable := by simp [Read.fresh]

theorem andThen {r : Read α c} {k : α → (d : Cursor) → d.size ≤ c.size → Read β d}
    {M : List Token → β → Prop} (hr : r.Conforms L)
    (hk : ∀ us a d hd, L us a → (k a d hd).Conforms fun vs b => M (us ++ vs) b) :
    (r.andThen k).Conforms M where
  whole h := by
    obtain ⟨hr', hs⟩ := List.append_eq_nil_iff.1 h
    have hs := (hk _ _ r.next r.size_le (hr.whole hr')).whole hs
    rwa [← Cursor.upTo_eq_append r.leads (k r.node r.next r.size_le).leads.index_le] at hs
  completable f hf := by
    rcases hr' : r.faults with _ | ⟨g, gs⟩
    · have hf : f ∈ (k r.node r.next r.size_le).faults.head? := by
        simpa [Read.andThen, hr'] using hf
      obtain ⟨ts, b, hM⟩ := (hk _ _ r.next r.size_le (hr.whole hr')).completable f hf
      have hi := ((k r.node r.next r.size_le).raised f (List.mem_of_mem_head? hf)).index_bounds.1
      exact ⟨ts, b, by rwa [Cursor.upTo_eq_append r.leads hi, List.append_assoc]⟩
    · obtain rfl : g = f := by simpa [Read.andThen, hr'] using hf
      obtain ⟨us, a, hL⟩ := hr.completable g (by simp [hr'])
      obtain ⟨vs, b, hM⟩ := (hk _ a r.next r.size_le hL).exists_mem
      exact ⟨us ++ vs, b, by rwa [← List.append_assoc]⟩

theorem since {t : Token} {h : d.size < c.size ∧ c.Leads d} {r : Read α d}
    (ha : c.ahead = .token t d h) (hr : r.Conforms fun ts a => L (t :: ts) a) :
    (Read.since h r).Conforms L where
  whole hf := by
    have := hr.whole hf
    rwa [← List.singleton_append, ← Cursor.upTo_ahead ha,
      ← Cursor.upTo_eq_append h.2 r.leads.index_le] at this
  completable f hf := by
    obtain ⟨ts, a, hL⟩ := hr.completable f hf
    have hi := (r.raised f (List.mem_of_mem_head? hf)).index_bounds.1
    refine ⟨ts, a, ?_⟩
    rwa [Cursor.upTo_eq_append h.2 hi, Cursor.upTo_ahead ha]

/-- What is refused reads nothing, and any member of `L` completes that. -/
theorem refuse {x : Expectation} {k : Unit → (d : Cursor) → d.size ≤ c.size → Read α d}
    (h : ∃ ts a, L ts a) : ((c.refuse x).andThen k).Conforms L where
  whole hf := by simp [Read.andThen, Cursor.refuse] at hf
  completable f hf := by
    obtain rfl : ⟨c.index, x, c.current⟩ = f := by simpa [Read.andThen, Cursor.refuse] using hf
    simpa using h

theorem expect {kind : TokenKind} (hk : kind ≠ .endOfText) :
    (c.expect kind).Conforms fun ts _ => ∃ t, ts = [t] ∧ t.kind = kind := by
  unfold Cursor.expect
  split
  case isTrue h =>
    refine ⟨fun _ => ?_, by simp⟩
    rcases hp : c.pending with _ | ⟨t, rest⟩
    · simp [Cursor.current, hp, hk.symm] at h
    · exact ⟨t, by simp [Cursor.upTo, Cursor.stepOver_of_pending hp, Cursor.past, hp],
        by rwa [Cursor.current_of_pending hp] at h⟩
  case isFalse =>
    refine ⟨by simp [Cursor.refuse], fun f hf => ?_⟩
    obtain rfl : ⟨c.index, .token kind, c.current⟩ = f := by simpa [Cursor.refuse] using hf
    exact ⟨[.ofKind kind], (), _, by simp; rfl, rfl⟩

theorem occurrence (t : Token) : (Cursor.occurrence t : Read Occurrence c).Conforms
    fun ts o => ts = [] ∧ ∃ i, o = ⟨i, t.spelling, t.span⟩ :=
  .fresh fun i => ⟨rfl, i, rfl⟩

end Conforms

end Read

/-! ## Expressions and parameters -/

open Phrase

namespace Cursor

mutual

theorem expression_conforms (c : Cursor) : (expression c).Conforms (Derives .expression) := by
  rw [expression]
  refine (primary_conforms c).andThen fun us left d hd h => ?_
  exact operands_conforms (.operand h) d
  termination_by 3 * c.size + 1
  decreasing_by all_goals omega

/-- Operands conform to what completes the expression read before them. -/
theorem operands_conforms {us : List Token} {left : Expr} (hl : Derives .expression us left)
    (c : Cursor) :
    (operands left c).Conforms fun vs e => Derives .expression (us ++ vs) e := by
  rw [operands]
  split
  case h_1 spelling span d h ha =>
    refine .since ha ((Read.Conforms.occurrence _).andThen ?_)
    rintro _ _ e he ⟨rfl, i, rfl⟩
    refine (primary_conforms e).andThen fun vs right f hf hr => ?_
    simpa using operands_conforms (.binary (t := ⟨.operator, spelling, span⟩) hl rfl hr) f
  case h_2 => exact .done (by simpa using hl)
  termination_by 3 * c.size
  decreasing_by all_goals omega

theorem primary_conforms (c : Cursor) : (primary c).Conforms (Derives .primary) := by
  rw [primary]
  split
  case h_1 ha => exact .since ha (.done (.integer rfl))
  case h_2 ha => exact .since ha (.done (.character rfl))
  case h_3 spelling span d h ha =>
    refine .since ha ((Read.Conforms.occurrence _).andThen ?_)
    rintro _ _ e he ⟨rfl, i, rfl⟩
    split
    case h_1 f h' ha =>
      refine .since ha ((parameter_conforms f).andThen fun us arg g hg hp => ?_)
      refine (Read.Conforms.expect (by decide)).andThen ?_
      rintro _ _ g' hg' ⟨t, rfl, ht⟩
      exact .done (.apply rfl rfl hp ht)
    case h_2 => exact .done (.name rfl)
  case h_4 spelling span d h ha =>
    refine .since ha ((Read.Conforms.occurrence _).andThen ?_)
    rintro _ _ e he ⟨rfl, i, rfl⟩
    refine (primary_conforms e).andThen fun us operand f hf hp => .done ?_
    simpa using .unary rfl hp
  case h_5 d h ha =>
    refine .since ha ((expression_conforms d).andThen fun us inner e he hi => ?_)
    refine (Read.Conforms.expect (by decide)).andThen ?_
    rintro _ _ f hf ⟨t, rfl, ht⟩
    exact .done (.bracketed rfl hi ht)
  case h_6 => exact .refuse ⟨_, _, .integer (t := .ofKind .intLiteral) (s := .empty 0) rfl⟩
  termination_by 3 * c.size
  decreasing_by all_goals omega

theorem parameter_conforms (c : Cursor) : (parameter c).Conforms (Derives .parameter) := by
  rw [parameter]
  split
  case h_1 d h ha =>
    refine .since ha ?_
    split
    case h_1 spelling span e h' ha =>
      refine .since ha ((Read.Conforms.occurrence _).andThen ?_)
      rintro _ _ f hf ⟨rfl, i, rfl⟩
      exact .done (.varParameter rfl rfl)
    case h_2 =>
      exact .refuse ⟨[.ofKind .identifier], .var (.empty 0) ⟨0, "", .empty 0⟩,
        .varParameter rfl rfl⟩
  case h_2 => exact .done .noParameter
  case h_3 =>
    split
    case isTrue =>
      refine (expression_conforms c).andThen fun us expr d hd he => .done ?_
      simpa using .value he
    case isFalse => exact .refuse ⟨_, _, .noParameter (s := .empty 0)⟩
  termination_by 3 * c.size + 2
  decreasing_by all_goals omega

end

/-! ## Declarations -/

theorem singleDeclaration_conforms (c : Cursor) :
    (singleDeclaration c).Conforms (Derives .singleDeclaration) := by
  rw [singleDeclaration]
  split
  case h_1 constSpelling start d h ha =>
    refine .since ha ?_
    split
    case h_1 spelling span e h' ha =>
      refine .since ha ((Read.Conforms.occurrence _).andThen ?_)
      rintro _ _ f hf ⟨rfl, i, rfl⟩
      refine (Read.Conforms.expect (by decide)).andThen ?_
      rintro _ _ g hg ⟨t, rfl, ht⟩
      refine (expression_conforms g).andThen fun us value g' hg' hv => .fresh fun j => ?_
      simpa using .const (u := ⟨.identifier, spelling, span⟩) rfl rfl ht hv
    case h_2 =>
      exact .refuse ⟨[.ofKind .identifier, .ofKind .kwIs, .ofKind .intLiteral],
        .const 0 (.empty 0) ⟨0, "", .empty 0⟩ (.integer (.empty 0) ""),
        .const rfl rfl rfl (.operand (.integer rfl))⟩
  case h_2 typeSpelling start d h ha =>
    refine .since ha ((Read.Conforms.occurrence _).andThen ?_)
    rintro _ _ d hd ⟨rfl, i, rfl⟩
    split
    case h_1 spelling span e h' ha =>
      refine .since ha ((Read.Conforms.occurrence _).andThen ?_)
      rintro _ _ f hf ⟨rfl, j, rfl⟩
      exact .fresh fun k => .var rfl rfl
    case h_2 =>
      exact .refuse ⟨[.ofKind .identifier],
        .var 0 (.empty 0) ⟨0, typeSpelling, .empty 0⟩ ⟨0, "", .empty 0⟩, .var rfl rfl⟩
  case h_3 =>
    exact .refuse ⟨[.ofKind .identifier, .ofKind .identifier],
      .var 0 (.empty 0) ⟨0, "", .empty 0⟩ ⟨0, "", .empty 0⟩, .var rfl rfl⟩

theorem moreDeclarations_conforms (c : Cursor) :
    (moreDeclarations c).Conforms (Derives .moreDeclarations) := by
  rw [moreDeclarations]
  split
  case h_1 spelling span d h ha =>
    split
    case isTrue =>
      refine .since ha ((singleDeclaration_conforms d).andThen fun us first e he hf => ?_)
      refine (moreDeclarations_conforms e).andThen fun vs rest f hf' hr => .done ?_
      simpa using .moreDeclarations rfl hf hr
    case isFalse => exact .done .noMoreDeclarations
  case h_2 => exact .done .noMoreDeclarations
  termination_by c.size
  decreasing_by all_goals omega

theorem declaration_conforms (c : Cursor) : (declaration c).Conforms (Derives .declaration) := by
  rw [declaration]
  refine (singleDeclaration_conforms c).andThen fun us first d hd hf => ?_
  refine (moreDeclarations_conforms d).andThen fun vs rest e he hr => ?_
  split
  case h_1 hl =>
    obtain rfl := List.getLast?_eq_none_iff.1 hl
    cases hr
    exact .done (by simpa using .loneDeclaration hf)
  case h_2 last hl =>
    obtain _ | ⟨second, ds⟩ := rest
    · simp at hl
    · exact .fresh fun i => by simpa using .declarationSequence hf hr

/-! ## Commands -/

mutual

theorem singleCommand_conforms (c : Cursor) :
    (singleCommand c).Conforms (Derives .singleCommand) := by
  rw [singleCommand]
  split
  case h_1 spelling start d h ha =>
    refine .since ha ((Read.Conforms.occurrence _).andThen ?_)
    rintro _ _ d hd ⟨rfl, i, rfl⟩
    split
    case h_1 e h' ha =>
      refine .since ha ((expression_conforms e).andThen fun us value f hf hv => .done ?_)
      simpa using .assign (t := ⟨.identifier, spelling, start⟩) rfl rfl hv
    case h_2 e h' ha =>
      refine .since ha ((parameter_conforms e).andThen fun us arg f hf hp => ?_)
      refine (Read.Conforms.expect (by decide)).andThen ?_
      rintro _ _ g hg ⟨t, rfl, ht⟩
      exact .done (.call rfl rfl hp ht)
    case h_3 =>
      exact .refuse ⟨[.ofKind .leftBracket, .ofKind .rightBracket],
        .call (.empty 0) ⟨0, spelling, .empty 0⟩ (.blank (.empty 0)),
        .call rfl rfl .noParameter rfl⟩
  case h_2 d h ha =>
    refine .since ha ((command_conforms d).andThen fun us inner e he hc => ?_)
    refine (Read.Conforms.expect (by decide)).andThen ?_
    rintro _ _ f hf ⟨t, rfl, ht⟩
    exact .done (.block rfl hc ht)
  case h_3 start d h ha =>
    refine .since ha ((declaration_conforms d).andThen fun us decl e he hd => ?_)
    refine (Read.Conforms.expect (by decide)).andThen ?_
    rintro _ _ f hf ⟨t, rfl, ht⟩
    refine (singleCommand_conforms f).andThen fun vs body g hg hb => .done ?_
    simpa using .letIn rfl hd ht hb
  case h_4 start d h ha =>
    refine .since ha ((expression_conforms d).andThen fun us cond e he hc => ?_)
    refine (Read.Conforms.expect (by decide)).andThen ?_
    rintro _ _ f hf ⟨t, rfl, ht⟩
    refine (singleCommand_conforms f).andThen fun vs thenBranch g hg hb => ?_
    split
    case h_1 g' h' ha =>
      refine .since ha ((singleCommand_conforms g').andThen fun ws elseBranch e' he' hb' => ?_)
      refine .done ?_
      simpa using .ifElse rfl hc ht hb rfl hb'
    case h_2 g' h' ha =>
      refine .since ha (.done ?_)
      simpa using .ifNoElse rfl hc ht hb rfl
    case h_3 =>
      refine .refuse ⟨[.ofKind .kwNoElse], .ifNoElse (.empty 0) cond thenBranch, ?_⟩
      simpa using .ifNoElse rfl hc ht hb rfl
  case h_5 start d h ha =>
    refine .since ha ((expression_conforms d).andThen fun us cond e he hc => ?_)
    refine (Read.Conforms.expect (by decide)).andThen ?_
    rintro _ _ f hf ⟨t, rfl, ht⟩
    refine (singleCommand_conforms f).andThen fun vs body g hg hb => .done ?_
    simpa using .whileDo rfl hc ht hb
  case h_6 start d h ha =>
    refine .since ha ((singleCommand_conforms d).andThen fun us body e he hb => ?_)
    refine (Read.Conforms.expect (by decide)).andThen ?_
    rintro _ _ f hf ⟨t, rfl, ht⟩
    refine (expression_conforms f).andThen fun vs cond g hg hc => .done ?_
    simpa using .repeatUntil rfl hb ht hc
  case h_7 ha => exact .since ha (.done (.blank rfl))
  case h_8 => exact .refuse ⟨[.ofKind .kwNothing], .blank (.empty 0), .blank rfl⟩
  termination_by 2 * c.size
  decreasing_by all_goals omega

theorem moreCommands_conforms (c : Cursor) :
    (moreCommands c).Conforms (Derives .moreCommands) := by
  rw [moreCommands]
  split
  case h_1 spelling span d h ha =>
    split
    case isTrue =>
      refine .since ha ((singleCommand_conforms d).andThen fun us first e he hf => ?_)
      refine (moreCommands_conforms e).andThen fun vs rest f hf' hr => .done ?_
      simpa using .more rfl hf hr
    case isFalse => exact .done .noMore
  case h_2 => exact .done .noMore
  termination_by 2 * c.size
  decreasing_by all_goals omega

theorem command_conforms (c : Cursor) : (command c).Conforms (Derives .command) := by
  rw [command]
  refine (singleCommand_conforms c).andThen fun us first d hd hf => ?_
  refine (moreCommands_conforms d).andThen fun vs rest e he hr => ?_
  split
  case h_1 hl =>
    obtain rfl := List.getLast?_eq_none_iff.1 hl
    cases hr
    exact .done (by simpa using .lone hf)
  case h_2 last hl =>
    obtain _ | ⟨second, cs⟩ := rest
    · simp at hl
    · exact .done (by simpa using .sequence hf hr)
  termination_by 2 * c.size + 1
  decreasing_by all_goals omega

end

end Cursor

end TriLang
