import TriLang.Proofs.Acceptance
import TriLang.Proofs.Simulation
import TriLang.Proofs.Stages

/-!
# Invalid tokens

No reading passes an invalid token, and none looks behind it.  So what is read from tokens is the
same whatever comes behind an invalid one, however many programs are read one behind the other, and
a source text with a lexical error is no program.
-/

namespace TriLang

namespace Cursor

/-- The cursor behind `n` programs read one behind the other. -/
def afterPrograms (c : Cursor) : Nat → Cursor
  | 0 => c
  | n + 1 => (c.afterPrograms n).program.next

/-- `d` is `c`, but for what comes behind the token `e` at the index `n`. -/
def AgreeUpTo (e : Token) (n : Nat) (c d : Cursor) : Prop :=
  ∃ us vs ws s, c.pending = us ++ e :: vs ∧ c.index + us.length = n ∧
    d = ⟨us ++ e :: ws, s, c.index, c.readTo, c.issued⟩

namespace AgreeUpTo

variable {e : Token} {n : Nat} {c d : Cursor}

theorem index_eq (h : AgreeUpTo e n c d) : c.index = d.index := by
  obtain ⟨us, vs, ws, s, -, -, rfl⟩ := h
  rfl

theorem nextId_eq (h : AgreeUpTo e n c d) : c.nextId = d.nextId := by
  obtain ⟨us, vs, ws, s, -, -, rfl⟩ := h
  rfl

theorem exists_pending (h : AgreeUpTo e n c d) :
    ∃ t us vs, c.pending = t :: us ∧ d.pending = t :: vs := by
  obtain ⟨_ | ⟨t, us⟩, vs, ws, s, hp, -, rfl⟩ := h
  · exact ⟨e, vs, ws, hp, rfl⟩
  · exact ⟨t, us ++ e :: vs, us ++ e :: ws, hp, rfl⟩

theorem index_le (h : AgreeUpTo e n c d) : c.index ≤ n := by
  obtain ⟨us, -, -, -, -, hi, -⟩ := h
  omega

theorem current_eq (h : AgreeUpTo e n c d) : c.current = d.current := by
  obtain ⟨t, us, vs, hc, hd⟩ := h.exists_pending
  rw [current_of_pending hc, current_of_pending hd]

theorem fresh (h : AgreeUpTo e n c d) :
    AgreeUpTo e n { c with issued := c.issued + 1 } { d with issued := d.issued + 1 } := by
  obtain ⟨us, vs, ws, s, hp, hi, rfl⟩ := h
  exact ⟨us, vs, ws, s, hp, hi, rfl⟩

/-- Any token but the invalid one is passed by both. -/
theorem past {t : Token} {us vs : List Token} (h : AgreeUpTo e n c d) (hc : c.pending = t :: us)
    (hd : d.pending = t :: vs) (ht : t ≠ e) : AgreeUpTo e n (c.past t us) (d.past t vs) := by
  obtain ⟨_ | ⟨u, us'⟩, vs', ws, s, hp, hi, rfl⟩ := h
  · cases hp.symm.trans hc
    exact absurd rfl ht
  · cases hp.symm.trans hc
    cases hd
    refine ⟨us', vs', ws, s, rfl, ?_, rfl⟩
    simp only [List.length_cons] at hi
    show c.index + 1 + us'.length = n
    omega

end AgreeUpTo

end Cursor

/-! ## Two readings in front of an invalid token -/

/-- The readings have the same outcome, and stop in front of `e`. -/
def Read.AgreeUpTo {α : Type} {c d : Cursor} (e : Token) (n : Nat) (r : Read α c) (r' : Read α d) :
    Prop :=
  r'.node = r.node ∧ r'.faults = r.faults ∧ r.next.AgreeUpTo e n r'.next

namespace Read.AgreeUpTo

variable {e : Token} {n : Nat} {α β : Type} {c d : Cursor}

theorem andThen {r : Read α c} {r' : Read α d}
    {k : α → (f : Cursor) → f.size ≤ c.size → Read β f}
    {k' : α → (f : Cursor) → f.size ≤ d.size → Read β f} (h : r.AgreeUpTo e n r')
    (hk : ∀ a, r.next.AgreeUpTo e n r'.next →
      (k a r.next r.size_le).AgreeUpTo e n (k' a r'.next r'.size_le)) :
    (r.andThen k).AgreeUpTo e n (r'.andThen k') := by
  obtain ⟨hr, hf, hn⟩ := h
  obtain ⟨hr', hf', hn'⟩ := hk r.node hn
  show (k' r'.node r'.next r'.size_le).node = (k r.node r.next r.size_le).node ∧
    r'.faults ++ (k' r'.node r'.next r'.size_le).faults =
      r.faults ++ (k r.node r.next r.size_le).faults ∧
    (k r.node r.next r.size_le).next.AgreeUpTo e n (k' r'.node r'.next r'.size_le).next
  rw [hr, hf]
  exact ⟨hr', congrArg _ hf', hn'⟩

theorem refuse {x : Expectation} (h : c.AgreeUpTo e n d) :
    (c.refuse x).AgreeUpTo e n (d.refuse x) :=
  ⟨rfl, by simp [Cursor.refuse, h.current_eq, h.index_eq], h⟩

/-- What the invalid token does not meet is passed by both or refused by both. -/
theorem expect {kind : TokenKind} (h : c.AgreeUpTo e n d) (he : e.kind ≠ kind) :
    (c.expect kind).AgreeUpTo e n (d.expect kind) := by
  unfold Cursor.expect
  rw [← h.current_eq]
  split
  case isTrue hk =>
    obtain ⟨t, us, vs, hc, hd⟩ := h.exists_pending
    rw [Cursor.current_of_pending hc] at hk
    refine ⟨rfl, rfl, ?_⟩
    show c.stepOver.AgreeUpTo e n d.stepOver
    rw [Cursor.stepOver_of_pending hc, Cursor.stepOver_of_pending hd]
    exact h.past hc hd fun ht => he (ht ▸ hk)
  case isFalse => exact .refuse h

end Read.AgreeUpTo

/-- Readings in front of the invalid token `e` at the index `n`. -/
def barrierSimulation {e : Token} (he : e.kind = .error) (n : Nat) : Simulation where
  Near := Cursor.AgreeUpTo e n
  Alike := Read.AgreeUpTo e n
  readTo_eq := by
    rintro c d ⟨us, vs, ws, s, -, -, rfl⟩
    rfl
  done a h := ⟨rfl, rfl, h⟩
  fresh a h := ⟨congrArg a h.nextId_eq.symm, rfl, h.fresh⟩
  andThen := Read.AgreeUpTo.andThen
  refuse h _ _ := .refuse h
  expect h hk := .expect h fun hn => by rw [← hn, he] at hk; cases hk
  look := by
    intro c d h
    obtain ⟨t, us, vs, hc, hd⟩ := h.exists_pending
    obtain ⟨_, hac⟩ := Cursor.ahead_of_pending hc
    obtain ⟨_, had⟩ := Cursor.ahead_of_pending hd
    have near (ht : t.kind ≠ .error) : (c.past t us).AgreeUpTo e n (d.past t vs) :=
      h.past hc hd fun h => ht (h ▸ he)
    rw [hac, had]
    exact .inl ⟨h.current_eq, .token near (fun h => h) fun ht hn => absurd (near ht).current_eq hn⟩

/-! ## Programs -/

namespace Cursor

variable {e : Token} {n : Nat} {c d : Cursor}

theorem program_agreeUpTo (he : e.kind = .error) (h : c.AgreeUpTo e n d) :
    c.program.AgreeUpTo e n d.program := by
  let S := barrierSimulation he n
  rw [program, program, h.current_eq]
  refine S.bind (S.singleCommand_alike h) fun command f g _ _ h => ?_
  refine S.bind (.expect h (by simp [he])) fun _ _ _ _ _ h' => ?_
  exact S.done_eq h' (by rw [S.spanSince_eq h])

theorem afterPrograms_agreeUpTo (he : e.kind = .error) (h : c.AgreeUpTo e n d) :
    ∀ m, (c.afterPrograms m).AgreeUpTo e n (d.afterPrograms m)
  | 0 => h
  | m + 1 => (program_agreeUpTo he (afterPrograms_agreeUpTo he h m)).2.2

/-- An end of text that closes tokens stands behind all of their invalid tokens. -/
theorem ofTokens_append_cons (us vs : List Token) (he : e.kind ≠ .endOfText) :
    ∃ ws s, ofTokens (us ++ e :: vs) = ⟨us ++ e :: ws, s, 0, 0, 0⟩ := by
  rcases List.eq_nil_or_concat vs with rfl | ⟨ws, t, rfl⟩
  · exact ⟨[], .empty e.span.stop, by simp [ofTokens, he]⟩
  · have hl : us ++ e :: ws.concat t = us ++ e :: ws ++ [t] := by simp
    rw [hl]
    by_cases ht : t.kind = .endOfText
    · exact ⟨ws, t.span, ofTokens_concat _ ht⟩
    · refine ⟨ws ++ [t], .empty t.span.stop, ?_⟩
      rw [ofTokens, List.getLast?_concat]
      simp [ht]

theorem ofTokens_agreeUpTo (us vs ws : List Token) (he : e.kind = .error) :
    (ofTokens (us ++ e :: vs)).AgreeUpTo e us.length (ofTokens (us ++ e :: ws)) := by
  have he : e.kind ≠ .endOfText := by simp [he]
  obtain ⟨vs, s, hv⟩ := ofTokens_append_cons us vs he
  obtain ⟨ws, s', hw⟩ := ofTokens_append_cons us ws he
  rw [hv, hw]
  exact ⟨us, vs, ws, s', rfl, Nat.zero_add _, rfl⟩

end Cursor

namespace Program

/-- Tokens with an invalid one among them are no program. -/
theorem ofTokens_errors_ne_nil {ts : List Token} {e : Token} (h : EndsOnce ts) (hm : e ∈ ts)
    (he : e.kind = .error) : (ofTokens ts).errors ≠ [] := by
  intro hn
  obtain ⟨us, vs, rfl⟩ := List.append_of_mem hm
  obtain ⟨ws, t, hl, -, hu, ho⟩ := h.exists_ofTokens
  have hf := ofTokens_errors_eq_nil.1 hn
  have hc := Cursor.ofTokens_agreeUpTo us vs vs he
  unfold ofTokens at hf
  rw [ho] at hf hc
  have hp := ((Cursor.program_faults_eq_nil hu).1 hf).2
  obtain ⟨-, -, hs⟩ := (barrierSimulation he us.length).singleCommand_alike hc
  obtain ⟨t, us, vs, hs, -⟩ := hs.exists_pending
  simp [hp] at hs

/-- No program read passes an invalid token, what comes behind it makes no difference to any of
them, and a text with a lexical error has a syntax error too. -/
theorem error_barrier :
    (∀ us e vs, e.kind = .error → ∀ n,
      ((Cursor.ofTokens (us ++ e :: vs)).afterPrograms n).index ≤ us.length ∧
        ∀ ws,
          let r := ((Cursor.ofTokens (us ++ e :: vs)).afterPrograms n).program
          let r' := ((Cursor.ofTokens (us ++ e :: ws)).afterPrograms n).program
          r'.node = r.node ∧ r'.errors = r.errors) ∧
      (∀ source, (Tokens.ofSource source).errors ≠ [] →
        (ofTokens (Tokens.ofSource source).toList).errors ≠ []) ∧
      ∀ source o, o.keepGoing → (Run.ofSource source o).log.hasFailed .tokenizer →
        (Run.ofSource source o).log.hasFailed .parser := by
  have hs (source : String) (h : (Tokens.ofSource source).errors ≠ []) :
      (ofTokens (Tokens.ofSource source).toList).errors ≠ [] := by
    obtain ⟨x, hx⟩ := List.exists_mem_of_ne_nil _ h
    obtain ⟨e, hm, he, -⟩ := Tokens.exists_token_of_mem_errors hx
    exact ofTokens_errors_ne_nil (Tokens.endsOnce_ofSource source) hm he
  refine ⟨fun us e vs he n => ⟨?_, fun ws => ?_⟩, hs, fun source o ho h => ?_⟩
  · have hc := Cursor.ofTokens_agreeUpTo us vs vs he
    exact (Cursor.afterPrograms_agreeUpTo he hc n).index_le
  · have hc := Cursor.ofTokens_agreeUpTo us vs ws he
    obtain ⟨hn, hf, -⟩ :=
      Cursor.program_agreeUpTo he (Cursor.afterPrograms_agreeUpTo he hc n)
    exact ⟨hn, congrArg (List.map Fault.error) hf⟩
  · rw [Run.hasFailed_tokenizer_eq] at h
    rw [Run.hasFailed_parser_eq ho]
    simpa using hs source (by simpa using h)

/-- `x := Y` stops at the capital letter, also if a second program is read. -/
theorem error_barrier_capital :
    let us : List Token := [⟨.identifier, "x", ⟨0, 1⟩⟩, ⟨.becomes, ":=", ⟨2, 4⟩⟩]
    let e : Token := ⟨.error, "Y", ⟨5, 6⟩⟩
    e.kind = .error ∧ ((Cursor.ofTokens (us ++ [e])).afterPrograms 2).index ≤ us.length ∧
      (ofTokens (Tokens.ofSource "x := Y").toList).errors ≠ [] ∧
      (Run.ofSource "x := Y" {}).log.hasFailed .parser := by
  have ht : (Tokens.ofSource "x := Y").errors ≠ [] := by decide +kernel
  have hf : (Run.ofSource "x := Y" {}).log.hasFailed .tokenizer := by
    rw [Run.hasFailed_tokenizer_eq]
    simpa using ht
  exact ⟨rfl, (error_barrier.1 _ _ [] rfl 2).1, error_barrier.2.1 _ ht,
    error_barrier.2.2 _ _ rfl hf⟩

end Program

end TriLang
