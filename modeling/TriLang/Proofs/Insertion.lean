import TriLang.Proofs.Acceptance
import TriLang.Proofs.Simulation

/-!
# Missing connectives

A reading that misses a connective goes on where it stands, just as if the connective were there.
So, if the first error is that a connective is missing, the same tokens with the connective put in
have the same tree and all errors but the first.
-/

namespace TriLang

/-! ## One token more -/

/-- The fault with one token more in front of it. -/
def Fault.shift (f : Fault) : Fault := { f with index := f.index + 1 }

namespace Cursor

/-- The cursor with one token more behind it. -/
def shift (c : Cursor) : Cursor := { c with index := c.index + 1 }

/-- `d` is `c` with the token `x`, which ends where the token in front of it does, put in at the
index `k`. -/
def Gains (x : Token) (k : Nat) (c d : Cursor) : Prop :=
  ∃ us rest, c.pending = us ++ rest ∧ d = { c with pending := us ++ x :: rest } ∧
    c.index + us.length = k ∧ x.span.stop = (us.map (·.span.stop)).getLastD c.readTo

variable {x t : Token} {k : Nat} {c d : Cursor} {us vs : List Token}

theorem shift_current (c : Cursor) : c.shift.current = c.current := rfl

theorem shift_stepOver (c : Cursor) : c.shift.stepOver = c.stepOver.shift := by
  obtain ⟨pending, closing, index, readTo, issued⟩ := c
  cases pending <;> rfl

namespace Gains

theorem not_shift (h : Gains x k c d) : d ≠ c.shift := by
  obtain ⟨us, rest, -, rfl, -, -⟩ := h
  intro hs
  have : c.index = c.index + 1 := congrArg Cursor.index hs
  omega

theorem index_le (h : Gains x k c d) : c.index ≤ k := by
  obtain ⟨us, rest, -, -, hi, -⟩ := h
  omega

theorem readTo_eq (h : Gains x k c d) : c.readTo = d.readTo := by
  obtain ⟨us, rest, -, rfl, -, -⟩ := h
  rfl

/-- In front of the index, both cursors stand at one token, behind which the second still gains. -/
theorem exists_of_index_lt (h : Gains x k c d) (hk : c.index < k) :
    ∃ t us vs, c.pending = t :: us ∧ d.pending = t :: vs ∧
      (c.past t us).Gains x k (d.past t vs) := by
  obtain ⟨_ | ⟨t, us⟩, rest, hp, rfl, hi, hx⟩ := h
  · simp only [List.length_nil] at hi
    omega
  · refine ⟨t, us ++ rest, us ++ x :: rest, hp, rfl, us, rest, rfl, rfl, ?_, ?_⟩
    · show c.index + 1 + us.length = k
      simp only [List.length_cons] at hi
      omega
    · rwa [List.map_cons, List.getLastD_cons] at hx

/-- The cursors stand at different tokens only at the index. -/
theorem index_eq_of_current_ne (h : Gains x k c d) (hc : c.current ≠ d.current) : c.index = k := by
  by_contra hk
  obtain ⟨t, us, vs, hp, hd, -⟩ := h.exists_of_index_lt (Nat.lt_of_le_of_ne h.index_le hk)
  exact hc (by rw [current_of_pending hp, current_of_pending hd])

/-- At the index, the second cursor stands at the new token, and behind it at what the first has
ahead. -/
theorem at_index (h : Gains x k c d) (hk : c.index = k) :
    d.current = x ∧ d.stepOver = c.shift := by
  obtain ⟨_ | ⟨t, us⟩, rest, hp, rfl, hi, hx⟩ := h
  · obtain ⟨pending, closing, index, readTo, issued⟩ := c
    obtain rfl : pending = rest := hp
    refine ⟨rfl, ?_⟩
    show Cursor.mk _ _ _ x.span.stop _ = _
    rw [hx]
    rfl
  · simp only [List.length_cons] at hi
    omega

end Gains

end Cursor

/-- What is no connective is not wanted where one is. -/
theorem Expectation.ne_token {w : Expectation} {kind : TokenKind} (hw : w.isConnective = false)
    (hk : kind.isConnective) : w ≠ .token kind := by
  rintro rfl
  exact absurd hk (by simpa [isConnective] using hw)

namespace Read

variable {α β : Type} {x : Token} {k : Nat} {c d : Cursor}

/-- `r'` is `r` with one token more in front of it. -/
def Shifts (r : Read α c) (r' : Read α d) : Prop :=
  r'.node = r.node ∧ r'.next = r.next.shift ∧ r'.faults = r.faults.map Fault.shift

/-- How `r'`, in front of the new token `x`, compares with `r`.  Either neither comes to the index
`k`, or `r` first misses the connective at `k` that `r'` finds there. -/
structure Gains (x : Token) (k : Nat) (r : Read α c) (r' : Read α d) : Prop where
  ahead : r.faults = [] → r.next.index ≤ k →
    r'.node = r.node ∧ r'.faults = [] ∧ r.next.Gains x k r'.next
  across : ∀ f fs, r.faults = f :: fs → f.index = k → f.error.expected = .token x.kind →
    r'.node = r.node ∧ r'.next = r.next.shift ∧ r'.faults = fs.map Fault.shift

theorem Gains.of_faults_eq_nil {r : Read α c} {r' : Read α d} (hf : r.faults = [])
    (h : r.next.index ≤ k → r'.node = r.node ∧ r'.faults = [] ∧ r.next.Gains x k r'.next) :
    r.Gains x k r' where
  ahead _ := h
  across f fs hc := by
    rw [hf] at hc
    cases hc

theorem Gains.of_fault {r : Read α c} {r' : Read α d} {f : Fault} (hf : r.faults = [f])
    (h : f.index = k → f.error.expected = .token x.kind →
      r'.node = r.node ∧ r'.next = r.next.shift ∧ r'.faults = []) : r.Gains x k r' where
  ahead hn := by
    rw [hf] at hn
    cases hn
  across g gs hc hi he := by
    rw [hf] at hc
    cases hc
    exact h hi he

/-- What commits itself where a connective is to be put in neither stops there nor misses it. -/
theorem Gains.of_commits {r : Read α c} (r' : Read α d) (h : r.Commits) (hc : c.index = k)
    (hx : x.kind.isConnective) : r.Gains x k r' where
  ahead hf hi := by
    have := h.passes hf
    omega
  across f fs hr hi he :=
    absurd he (Expectation.ne_token (h.refuses f (by simp [hr]) (hi.trans hc.symm)) hx)

namespace Shifts

theorem andThen {r : Read α c} {r' : Read α d}
    {f : α → (e : Cursor) → e.size ≤ c.size → Read β e}
    {g : α → (e : Cursor) → e.size ≤ d.size → Read β e} (h : r.Shifts r')
    (hs : ∀ a, (f a r.next r.size_le).Shifts (g a r'.next r'.size_le)) :
    (r.andThen f).Shifts (r'.andThen g) := by
  obtain ⟨hr, -, hf⟩ := h
  obtain ⟨hr', hn', hf'⟩ := hs r.node
  show (g r'.node r'.next r'.size_le).node = (f r.node r.next r.size_le).node ∧
    (g r'.node r'.next r'.size_le).next = (f r.node r.next r.size_le).next.shift ∧
    r'.faults ++ (g r'.node r'.next r'.size_le).faults =
      (r.faults ++ (f r.node r.next r.size_le).faults).map Fault.shift
  rw [hr, hf, List.map_append]
  exact ⟨hr', hn', congrArg _ hf'⟩

theorem expect (kind : TokenKind) : (c.expect kind).Shifts (c.shift.expect kind) := by
  unfold Cursor.expect
  rw [Cursor.shift_current]
  split
  · exact ⟨rfl, c.shift_stepOver, rfl⟩
  · exact ⟨rfl, rfl, rfl⟩

end Shifts

namespace Gains

theorem andThen {r : Read α c} {r' : Read α d}
    {f : α → (e : Cursor) → e.size ≤ c.size → Read β e}
    {g : α → (e : Cursor) → e.size ≤ d.size → Read β e} (h : r.Gains x k r')
    (hg : ∀ a, r.next.Gains x k r'.next →
      (f a r.next r.size_le).Gains x k (g a r'.next r'.size_le))
    (hs : ∀ a, r'.next = r.next.shift →
      (f a r.next r.size_le).Shifts (g a r'.next r'.size_le)) :
    (r.andThen f).Gains x k (r'.andThen g) where
  ahead hf hi := by
    obtain ⟨hf, hf'⟩ := List.append_eq_nil_iff.1 hf
    have hle : r.next.index ≤ k :=
      Nat.le_trans (f r.node r.next r.size_le).leads.index_le hi
    obtain ⟨hr, hr', hn⟩ := h.ahead hf hle
    have hs := (hg r.node hn).ahead hf' hi
    show (g r'.node r'.next r'.size_le).node = (f r.node r.next r.size_le).node ∧
      r'.faults ++ (g r'.node r'.next r'.size_le).faults = [] ∧
      (f r.node r.next r.size_le).next.Gains x k (g r'.node r'.next r'.size_le).next
    rwa [hr, hr', List.nil_append]
  across e es he hi hx := by
    have he : r.faults ++ (f r.node r.next r.size_le).faults = e :: es := he
    show (g r'.node r'.next r'.size_le).node = (f r.node r.next r.size_le).node ∧
      (g r'.node r'.next r'.size_le).next = (f r.node r.next r.size_le).next.shift ∧
      r'.faults ++ (g r'.node r'.next r'.size_le).faults = es.map Fault.shift
    rcases hr : r.faults with _ | ⟨e', es'⟩
    · -- The connective is missing in what follows.
      rw [hr, List.nil_append] at he
      have hm : e ∈ (f r.node r.next r.size_le).faults := by simp [he]
      have hle : r.next.index ≤ k :=
        hi ▸ (f r.node r.next r.size_le).passes_index.faults e hm
      obtain ⟨hr', hf', hn⟩ := h.ahead hr hle
      rw [hr', hf', List.nil_append]
      exact (hg r.node hn).across e es he hi hx
    · -- It is missing before, and what follows comes one token later.
      rw [hr, List.cons_append] at he
      obtain ⟨rfl, rfl⟩ := List.cons_eq_cons.1 he
      obtain ⟨hr', hn, hf'⟩ := h.across e' es' hr hi hx
      obtain ⟨hs, hs', hs''⟩ := hs r.node hn
      rw [hr', hf', List.map_append]
      exact ⟨hs, hs', congrArg _ hs''⟩

theorem done (a : α) (h : c.Gains x k d) :
    (.done a : Read α c).Gains x k (.done a : Read α d) :=
  .of_faults_eq_nil rfl fun _ => ⟨rfl, rfl, h⟩

theorem fresh (a : NodeId → α) (h : c.Gains x k d) :
    (.fresh a : Read α c).Gains x k (.fresh a : Read α d) := by
  obtain ⟨us, rest, hp, rfl, hi, hx⟩ := h
  exact .of_faults_eq_nil rfl fun _ => ⟨rfl, rfl, us, rest, hp, rfl, hi, hx⟩

/-- A connective is passed by both in front of `k`, and missed there by the first. -/
theorem expect {kind : TokenKind} (h : c.Gains x k d) (hk : kind.isConnective) :
    (c.expect kind).Gains x k (d.expect kind) := by
  rcases Nat.lt_or_eq_of_le h.index_le with hi | hi
  · obtain ⟨t, us, vs, hc, hd, hn⟩ := h.exists_of_index_lt hi
    by_cases ht : t.kind = kind
    · rw [Cursor.expect, Cursor.expect, if_pos (by rwa [Cursor.current_of_pending hc]),
        if_pos (by rwa [Cursor.current_of_pending hd])]
      refine .of_faults_eq_nil rfl fun _ => ⟨rfl, rfl, ?_⟩
      show c.stepOver.Gains x k d.stepOver
      rwa [Cursor.stepOver_of_pending hc, Cursor.stepOver_of_pending hd]
    · rw [Cursor.expect, if_neg (by rwa [Cursor.current_of_pending hc])]
      exact .of_fault rfl fun hk => absurd hk (Nat.ne_of_lt hi)
  · obtain ⟨hx, hs⟩ := h.at_index hi
    by_cases hc : c.current.kind = kind
    · rw [Cursor.expect, if_pos hc]
      refine .of_faults_eq_nil rfl fun hn => ?_
      -- Only the end of text is not passed, and it is no connective.
      have hn : c.stepOver.index ≤ k := hn
      rcases hp : c.pending with _ | ⟨t, us⟩
      · simp [Cursor.current, hp] at hc
        subst hc
        cases hk
      · rw [Cursor.stepOver_of_pending hp] at hn
        exact absurd hn (by simp [Cursor.past, hi])
    · rw [Cursor.expect, if_neg hc]
      refine .of_fault rfl fun _ he => ?_
      obtain rfl : kind = x.kind := Expectation.token.inj he
      rw [Cursor.expect, if_pos (by rw [hx])]
      exact ⟨rfl, hs, rfl⟩

/-- What is refused is no connective. -/
theorem refuse {w : Expectation} (hx : x.kind.isConnective) (hw : w.isConnective = false) :
    (c.refuse w).Gains x k (d.refuse w) :=
  .of_fault rfl fun _ he => absurd he (Expectation.ne_token hw hx)

end Gains

end Read

/-! ## Two readings of which one misses a connective -/

/-- Readings of the same tokens, without and with the connective `x` at the index `k`. -/
def insertionSimulation {x : Token} (hx : x.kind.isConnective) (k : Nat) : Simulation where
  Near c d := c.Gains x k d ∨ d = c.shift
  Alike {_ c d} r r' := (c.Gains x k d → r.Gains x k r') ∧ (d = c.shift → r.Shifts r')
  readTo_eq := by
    rintro c d (h | rfl)
    · exact h.readTo_eq
    · rfl
  done a _ := ⟨.done a, fun h => ⟨rfl, h, rfl⟩⟩
  fresh a _ := ⟨.fresh a, by rintro rfl; exact ⟨rfl, rfl, rfl⟩⟩
  andThen hr hk :=
    ⟨fun h => (hr.1 h).andThen (fun a hn => (hk a (.inl hn)).1 hn)
      fun a hn => (hk a (.inr hn)).2 hn,
    fun h => (hr.2 h).andThen fun a => (hk a (.inr (hr.2 h).2.1)).2 (hr.2 h).2.1⟩
  refuse _ _ hw := ⟨fun _ => .refuse hx hw, by rintro rfl; exact ⟨rfl, rfl, rfl⟩⟩
  expect _ hk := ⟨fun h => .expect h hk, by rintro rfl; exact .expect _⟩
  look := by
    rintro c d (h | rfl)
    · have hs := h.not_shift
      rcases Nat.lt_or_eq_of_le h.index_le with hi | hi
      · obtain ⟨t, us, vs, hc, hd, hn⟩ := h.exists_of_index_lt hi
        obtain ⟨_, hac⟩ := Cursor.ahead_of_pending hc
        obtain ⟨_, had⟩ := Cursor.ahead_of_pending hd
        rw [hac, had, Cursor.current_of_pending hc, Cursor.current_of_pending hd]
        refine .inl ⟨rfl, .token (fun _ => .inl hn) (fun hr => ?_) fun _ hne _ r r' hr => ?_⟩
        · exact ⟨fun _ => ⟨(hr.1 hn).ahead, (hr.1 hn).across⟩, fun h => absurd h hs⟩
        · have hg := Read.Gains.of_commits r' hr (hn.index_eq_of_current_ne hne) hx
          exact ⟨fun _ => ⟨hg.ahead, hg.across⟩, fun h => absurd h hs⟩
      · obtain ⟨hd, -⟩ := h.at_index hi
        exact .inr ⟨by rwa [hd], fun r' hr => ⟨fun _ => .of_commits r' hr hi hx,
          fun h => absurd h hs⟩⟩
    · have hs (h : c.Gains x k c.shift) : False := h.not_shift rfl
      refine .inl ⟨rfl, ?_⟩
      rcases hc : c.pending with _ | ⟨t, us⟩
      · rw [Cursor.ahead_of_pending_nil hc, Cursor.ahead_of_pending_nil (c := c.shift) hc]
        exact .closing
      · obtain ⟨_, hac⟩ := Cursor.ahead_of_pending hc
        obtain ⟨_, had⟩ := Cursor.ahead_of_pending (c := c.shift) hc
        rw [hac, had]
        exact .token (fun _ => .inr rfl) (fun hr => ⟨fun h => (hs h).elim, fun _ => hr.2 rfl⟩)
          fun _ hne => absurd rfl hne

/-! ## Programs -/

namespace Cursor

variable {x t : Token} {k : Nat} {c d : Cursor} {us : List Token}

/-- A program that misses a connective first is read just as if the connective were there. -/
theorem program_gains (hx : x.kind.isConnective) (h : c.Gains x k d) {f : Fault}
    (hf : c.program.faults.head? = some f) (hi : f.index = k)
    (he : f.error.expected = .token x.kind) :
    c.index < k ∧ d.program.node = c.program.node ∧
      d.program.faults = c.program.faults.tail.map Fault.shift := by
  rw [program_faults] at hf
  rcases hs : c.singleCommand.faults with _ | ⟨g, gs⟩
  · -- What is missing behind a command is an end of text.
    rw [hs, List.nil_append, expect] at hf
    split at hf
    · cases hf
    · obtain rfl := Option.some.inj hf
      rw [← Expectation.token.inj he] at hx
      cases hx
  · obtain rfl : g = f := by simpa [hs] using hf
    obtain ⟨hn, hd, hg⟩ :=
      (((insertionSimulation hx k).singleCommand_alike (.inl h)).1 h).across g gs hs hi he
    have hlt : c.index < k := by
      refine Nat.lt_of_le_of_ne h.index_le fun hc => ?_
      have hg := c.singleCommand_commits.refuses g (by simp [hs]) (hi.trans hc.symm)
      exact absurd he (Expectation.ne_token hg hx)
    obtain ⟨t, us, vs, hc, hd', -⟩ := h.exists_of_index_lt hlt
    have hcurrent : d.current = c.current := by
      rw [current_of_pending hc, current_of_pending hd']
    refine ⟨hlt, ?_, ?_⟩
    · show Program.mk d.singleCommand.node (d.singleCommand.next.spanSince d.current.span) =
        .mk c.singleCommand.node (c.singleCommand.next.spanSince c.current.span)
      rw [hn, hd, hcurrent]
      rfl
    · rw [program_faults, program_faults, hg, hd, hs, List.cons_append, List.tail_cons,
        List.map_append, (Read.Shifts.expect .endOfText).2.2]

theorem ofTokens_gains (us vs : List Token) {e : Token} (he : e.kind = .endOfText)
    (hx : x.span.stop = (us.map (·.span.stop)).getLastD 0) :
    (ofTokens (us ++ vs ++ [e])).Gains x us.length (ofTokens (us ++ x :: vs ++ [e])) := by
  rw [ofTokens_concat _ he, ofTokens_concat _ he]
  exact ⟨us, vs, rfl, rfl, Nat.zero_add _, hx⟩

end Cursor

theorem insertIdx_length_append {α : Type} (x : α) (us vs : List α) :
    (us ++ vs).insertIdx us.length x = us ++ x :: vs := by
  induction us with
  | nil => rfl
  | cons u us ih => simp [ih]

namespace Program

variable {ts : List Token}

/-- If the first error is that a connective is missing, the connective put in where it is missing,
at the end of the token in front, leaves the program as it is, and its other errors. -/
theorem ofTokens_insertIdx (h : EndsOnce ts) {k : Nat} {kind : TokenKind} {found : Token}
    (hk : kind.isConnective)
    (hf : (ofTokens ts).faults.head? = some ⟨k, .token kind, found⟩) :
    ∃ t, 0 < k ∧ ts[k - 1]? = some t ∧ ∀ spelling,
      let r := ofTokens (ts.insertIdx k ⟨kind, spelling, .empty t.span.stop⟩)
      r.node = (ofTokens ts).node ∧ r.errors = (ofTokens ts).errors.tail := by
  have hl := index_lt_length h (List.mem_of_mem_head? hf)
  obtain ⟨ws, e, rfl, he, -⟩ := h
  have hle : k ≤ ws.length := by simpa [Nat.lt_succ_iff] using hl
  obtain ⟨us, vs, rfl, rfl⟩ : ∃ us vs, ws = us ++ vs ∧ us.length = k :=
    ⟨ws.take k, ws.drop k, (List.take_append_drop k ws).symm, List.length_take_of_le hle⟩
  rcases List.eq_nil_or_concat us with rfl | ⟨us, t, rfl⟩
  · -- Nothing is in front of a connective that is missing first.
    have hg : Cursor.Gains ⟨kind, "", .empty 0⟩ 0 _ _ := Cursor.ofTokens_gains [] vs he rfl
    have hpos := (Cursor.program_gains hk hg hf rfl rfl).1
    rw [Cursor.ofTokens_concat _ he] at hpos
    exact absurd hpos (Nat.lt_irrefl 0)
  · refine ⟨t, by simp, by simp, fun spelling => ?_⟩
    let x : Token := ⟨kind, spelling, .empty t.span.stop⟩
    have hi : (us.concat t ++ vs ++ [e]).insertIdx (us.concat t).length x =
        us.concat t ++ x :: vs ++ [e] := by
      rw [List.append_assoc, insertIdx_length_append, List.append_assoc, List.cons_append]
    have hx : x.span.stop = ((us.concat t).map (·.span.stop)).getLastD 0 := by
      simp [x, Span.empty, List.getLastD_eq_getLast?]
    have hg := Cursor.ofTokens_gains (us.concat t) vs he hx
    obtain ⟨-, hn, hfs⟩ := Cursor.program_gains hk hg hf rfl rfl
    rw [hi]
    refine ⟨hn, ?_⟩
    show (Cursor.program _).faults.map Fault.error = (List.map Fault.error _).tail
    rw [hfs, List.map_map, ← List.map_tail]
    rfl

/-- The tokens of `if a x := noelse`. -/
def thenMissing : List Token :=
  [⟨.kwIf, "if", ⟨0, 2⟩⟩, ⟨.identifier, "a", ⟨3, 4⟩⟩, ⟨.identifier, "x", ⟨5, 6⟩⟩,
    ⟨.becomes, ":=", ⟨7, 9⟩⟩, ⟨.kwNoElse, "noelse", ⟨10, 16⟩⟩, ⟨.endOfText, "", ⟨16, 16⟩⟩]

/-- With `then` put in, only the expression is still missing. -/
theorem ofTokens_insertIdx_thenMissing :
    EndsOnce thenMissing ∧
      let r := ofTokens (thenMissing.insertIdx 2 ⟨.kwThen, "then", .empty 4⟩)
      r.node = (ofTokens thenMissing).node ∧
        r.errors = [⟨.expression, ⟨.kwNoElse, "noelse", ⟨10, 16⟩⟩⟩] := by
  have h : EndsOnce thenMissing := ⟨thenMissing.dropLast, _, rfl, rfl, by decide⟩
  have hf : (ofTokens thenMissing).faults =
      [⟨2, .token .kwThen, ⟨.identifier, "x", ⟨5, 6⟩⟩⟩,
        ⟨4, .expression, ⟨.kwNoElse, "noelse", ⟨10, 16⟩⟩⟩] := by decide +kernel
  obtain ⟨t, -, ht, hr⟩ := ofTokens_insertIdx h rfl (congrArg List.head? hf)
  obtain rfl : _ = t := Option.some.inj ht
  obtain ⟨hn, he⟩ := hr "then"
  exact ⟨h, hn, by rw [he, Read.errors, hf]; rfl⟩

end Program

end TriLang
