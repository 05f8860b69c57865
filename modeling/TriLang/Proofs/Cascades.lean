import TriLang.Proofs.KeptTokens

/-!
# Cascades of errors

A token that cannot be read is not passed, and each production around it may report it again.  But a
production that has more to read has passed a token of its own, which pays for what is reported
behind it.  So an expression reports no more than one fault for each token passed and one besides,
and a command no more than three for each token passed and one besides.
-/

namespace TriLang

namespace Cursor

/-- Of the faults `fs` met from `c` to `d`, each token passed pays for `rate`, and no more than
`debt` of them are left. -/
structure Pays (rate : Nat) (c d : Cursor) (debt : Nat) (fs : List Fault) : Prop where
  index_le : c.index ≤ d.index
  length_le : fs.length + rate * c.index ≤ rate * d.index + debt

namespace Pays

variable {rate debt m n : Nat} {c d e : Cursor} {kind : TokenKind} {t : Token} {o : Occurrence}
  {fs gs : List Fault}

theorem refl (rate : Nat) (c : Cursor) : Pays rate c c 0 [] := ⟨Nat.le_refl _, by simp⟩

theorem fault (rate : Nat) (c : Cursor) (f : Fault) : Pays rate c c 1 [f] :=
  ⟨Nat.le_refl _, by simp [Nat.add_comm]⟩

theorem expects (rate : Nat) (h : c.Expects kind d fs) : Pays rate c d 1 fs := by
  cases h with
  | met =>
    have hle := c.leads_stepOver.index_le
    refine ⟨hle, ?_⟩
    have hmul := Nat.mul_le_mul_left rate hle
    rw [List.length_nil]
    omega
  | missed => exact .fault rate c _

theorem append (h : Pays rate c d m fs) (h' : Pays rate d e n gs) :
    Pays rate c e (m + n) (fs ++ gs) where
  index_le := Nat.le_trans h.index_le h'.index_le
  length_le := by
    have := h.length_le
    have := h'.length_le
    rw [List.length_append]
    omega

theorem mono (h : Pays rate c d m fs) (hle : m ≤ n) : Pays rate c d n fs :=
  ⟨h.index_le, Nat.le_trans h.length_le (Nat.add_le_add_left hle _)⟩

/-- A token may be charged with more than it has to pay for. -/
theorem raise {rate' : Nat} (h : Pays rate c d m fs) (hle : rate ≤ rate') :
    Pays rate' c d m fs where
  index_le := h.index_le
  length_le := by
    obtain ⟨k, rfl⟩ := Nat.exists_eq_add_of_le hle
    have := h.length_le
    have := Nat.mul_le_mul_left k h.index_le
    rw [Nat.add_mul, Nat.add_mul]
    omega

/-- A token passed pays for faults met behind it. -/
theorem steps (h : c.Steps kind t d) (h' : Pays rate d e m fs) (hle : m ≤ debt + rate) :
    Pays rate c e debt fs := by
  have hindex : d.index = c.index + 1 := congrArg index h.eq_past
  have hend := h'.index_le
  have hlength := h'.length_le
  rw [hindex, Nat.mul_add, Nat.mul_one] at hlength
  exact ⟨by omega, by omega⟩

theorem occurs (h : c.Occurs kind o d) (h' : Pays rate d e m fs) (hle : m ≤ debt + rate) :
    Pays rate c e debt fs := by
  obtain ⟨hs⟩ := h
  exact .steps hs ⟨h'.index_le, h'.length_le⟩ hle

/-- A token passed behind a reading has nothing to pay for. -/
theorem thenSteps (h : Pays rate c d debt fs) (h' : d.Steps kind t e) : Pays rate c e debt fs := by
  simpa using h.append (.steps h' (.refl rate e) (Nat.zero_le (0 + rate)))

theorem handOut (h : Pays rate c d m fs) : Pays rate c d.handOut m fs := ⟨h.index_le, h.length_le⟩

end Pays

end Cursor

namespace Phrase

open Cursor

/-- How many faults a token of a phrase pays for. -/
def rate : Phrase → Nat
  | command | moreCommands | singleCommand => 3
  | _ => 1

/-- How many faults of a phrase its tokens do not pay for. -/
def debt : Phrase → Nat
  | moreCommands | moreDeclarations => 0
  | _ => 1

/-- A phrase inside a command does not report more than a command does. -/
theorem pays_command {p : Phrase} {c d : Cursor} {fs : List Fault}
    (h : Pays p.rate c d p.debt fs) : Pays 3 c d 1 fs := by
  have hrate : p.rate ≤ 3 := by cases p <;> decide
  have hdebt : p.debt ≤ 1 := by cases p <;> decide
  exact (h.raise hrate).mono hdebt

theorem Outcome.pays {p : Phrase} {c d : Cursor} {t : p.Tree} {fs : List Fault}
    (h : p.Outcome c t d fs) : Pays p.rate c d p.debt fs := by
  induction h with
  | lone _ _ ih ih' | sequence _ _ _ ih ih' | loneDeclaration _ _ ih ih' => exact ih.append ih'
  | declarationSequence _ _ _ ih ih' => exact (ih.append ih').handOut
  | noMore | noMoreDeclarations => exact .refl _ _
  | more semicolon _ _ ih ih' | moreDeclarations semicolon _ _ ih ih' =>
    exact .steps semicolon (ih.append ih') (by decide)
  | assign name becomes _ ih =>
    have hvalue : Pays 3 _ _ 1 _ := .steps becomes (pays_command ih) (by decide)
    exact .occurs name hvalue (by decide)
  | call name left _ right ih =>
    have harg : Pays 3 _ _ 1 _ :=
      .steps left ((pays_command ih).append (.expects 3 right)) (by decide)
    exact .occurs name harg (by decide)
  | bareName name => exact .occurs name (.fault 3 _ _) (by decide)
  | block left _ right ih => exact .steps left (ih.append (.expects 3 right)) (by decide)
  | letIn kwLet _ kwIn _ ih ih' =>
    have hbody := (Pays.expects 3 kwIn).append ih'
    exact .steps kwLet ((pays_command ih).append hbody) (by decide)
  | ifElse kwIf _ kwThen _ kwElse _ ih ih' ih'' =>
    have helse : Pays 3 _ _ 0 _ := .steps kwElse ih'' (by decide)
    have hbranches := (Pays.expects 3 kwThen).append (ih'.append helse)
    exact .steps kwIf ((pays_command ih).append hbranches) (by decide)
  | ifNoElse kwIf _ kwThen _ kwNoElse ih ih' =>
    have hbranch := (Pays.expects 3 kwThen).append (ih'.thenSteps kwNoElse)
    exact .steps kwIf ((pays_command ih).append hbranch) (by decide)
  -- The token that begins it does not pay for all that an `if` reports.
  | @openIf _ _ _ _ g _ _ _ _ _ _ kwIf _ kwThen _ ih ih' =>
    have hbranch := (Pays.expects 3 kwThen).append (ih'.append (.fault 3 g (g.fault .elseBranch)))
    exact .steps kwIf ((pays_command ih).append hbranch) (by decide)
  | whileDo kwWhile _ kwDo _ ih ih' =>
    have hbody := (Pays.expects 3 kwDo).append ih'
    exact .steps kwWhile ((pays_command ih).append hbody) (by decide)
  | repeatUntil kwRepeat _ kwUntil _ ih ih' =>
    have hcond := (Pays.expects 3 kwUntil).append (pays_command ih')
    exact .steps kwRepeat (ih.append hcond) (by decide)
  | blank kwNothing => exact .steps kwNothing (.refl 3 _) (by decide)
  | noCommand | noExpression | refusedParameter => exact .fault _ _ _
  | const kwConst name kwIs _ ih =>
    have hvalue : Pays 1 _ _ 1 _ := .occurs name ((Pays.expects 1 kwIs).append ih) (by decide)
    exact (Pays.steps kwConst hvalue (by decide)).handOut
  | unnamedConst kwConst => exact (Pays.steps kwConst (.fault 1 _ _) (by decide)).handOut
  | var type name =>
    have hname : Pays 1 _ _ 0 _ := .occurs name (.refl 1 _) (by decide)
    exact (Pays.occurs type hname (by decide)).handOut
  | unnamedVar type => exact (Pays.occurs type (.fault 1 _ _) (by decide)).handOut
  | noDeclaration => exact (Pays.fault 1 _ _).handOut
  | operand _ ih | value _ ih => exact ih
  | binary _ op _ ih ih' =>
    have hright : Pays 1 _ _ 0 _ := .occurs op ih' (by decide)
    exact ih.append hright
  | integer literal | character literal => exact .steps literal (.refl 1 _) (by decide)
  | name name => exact .occurs name (.refl 1 _) (by decide)
  | apply name left _ right ih =>
    have harg : Pays 1 _ _ 1 _ := .steps left (ih.append (.expects 1 right)) (by decide)
    exact .occurs name harg (by decide)
  | unary op _ ih => exact .occurs op ih (by decide)
  | bracketed left _ right ih => exact .steps left (ih.append (.expects 1 right)) (by decide)
  | varParameter kwVar name =>
    have hname : Pays 1 _ _ 0 _ := .occurs name (.refl 1 _) (by decide)
    exact .steps kwVar hname (by decide)
  | unnamedVarParameter kwVar => exact .steps kwVar (.fault 1 _ _) (by decide)
  | noParameter => exact (Pays.refl 1 _).mono (by decide)

end Phrase

/-! ## Programs -/

/-- From where a reading starts to where it stops, each fault is met no further back than the one
before. -/
theorem Read.pairwise_index {α : Type} {c : Cursor} (r : Read α c) :
    (c.index :: (r.faults.map Fault.index ++ [r.next.index])).Pairwise (· ≤ ·) := by
  have hbounds : ∀ i ∈ r.faults.map Fault.index, c.index ≤ i ∧ i ≤ r.next.index := by
    intro i hi
    obtain ⟨f, hf, rfl⟩ := List.mem_map.1 hi
    exact (r.raised f hf).index_bounds
  have hstop : ∀ i ∈ r.faults.map Fault.index, ∀ j ∈ [r.next.index], i ≤ j := by
    intro i hi j hj
    rw [List.mem_singleton.1 hj]
    exact (hbounds i hi).2
  refine List.pairwise_cons.2 ⟨List.forall_mem_append.2 ⟨fun i hi => (hbounds i hi).1, ?_⟩, ?_⟩
  · exact List.forall_mem_singleton.2 r.leads.index_le
  · exact List.pairwise_append.2 ⟨List.pairwise_map.2 r.sorted, List.pairwise_singleton .., hstop⟩

namespace Cursor

/-- A program reports three errors at the most for each token passed, and two more: one of its
command, and one for what stands in place of the end of text. -/
theorem length_program_errors_le (c : Cursor) :
    c.program.errors.length ≤ 3 * (c.program.next.index - c.index) + 2 := by
  have hcommand : Pays 3 c c.singleCommand.next 1 c.singleCommand.faults :=
    (singleCommand_outcome c).pays
  have hend : Pays 3 c.singleCommand.next c.program.next 1
      (c.singleCommand.next.expect .endOfText).faults := .expects 3 (Read.Yields.expect .endOfText)
  have hindex := (hcommand.append hend).index_le
  have hlength := (hcommand.append hend).length_le
  rw [← program_faults] at hlength
  rw [Read.errors, List.length_map]
  omega

/-- As many are reported where no token ends the first branch of any `if`. -/
example :
    let r := Program.ofTokens (Tokens.ofSource "if if if )").toList
    r.next.index = 3 ∧ r.errors.length = 3 * 3 + 2 := by decide +kernel

theorem Leads.index_add_size {ts : List Token} {c : Cursor} (h : (ofTokens ts).Leads c) :
    c.index + c.size = (ofTokens ts).size := by
  obtain ⟨us, hp, hi, -⟩ := h
  rw [(ofTokens_start ts).1, Nat.zero_add] at hi
  rw [size, size, hp, List.length_append, hi]

end Cursor

/-- Reading the program behind `n` others from the tokens `ts` never goes back and never passes the
closing end of text, and reports no more than four errors for each token passed, and two. -/
theorem Program.errors_le_passed (ts : List Token) (n : Nat) :
    let c := (Cursor.ofTokens ts).afterPrograms n
    let r := c.program
    (c.index :: (r.faults.map Fault.index ++ [r.next.index])).Pairwise (· ≤ ·) ∧
      r.next.index ≤ (Cursor.ofTokens ts).size ∧
      r.next.pending = (Cursor.ofTokens ts).pending.drop r.next.index ∧
      r.next.closing = (Cursor.ofTokens ts).closing ∧
      r.errors.length ≤ 4 * (r.next.index - c.index) + 2 := by
  intro c r
  have hstart : (Cursor.ofTokens ts).Leads r.next :=
    (Cursor.ofTokens ts).leads_afterPrograms (n + 1)
  have hsize := hstart.index_add_size
  have hpending := hstart.pending_eq_drop
  have herrors : r.errors.length ≤ 3 * (r.next.index - c.index) + 2 := c.length_program_errors_le
  obtain ⟨-, -, -, hclosing⟩ := hstart
  exact ⟨r.pairwise_index, by omega, hpending, hclosing, by omega⟩

end TriLang
