import Mathlib.Data.List.Basic
import TriLang.Cursor.Command
import TriLang.Proofs.Grammar

/-!
# Readings of phrases

Where the tokens ahead are a phrase, a reading of that phrase reads them without a fault, stops
behind them and gives the tree of the phrase.  Where the tokens ahead only begin like a phrase, the
reading raises no fault and does not stop before it is past that beginning.  One exception is made:
a semicolon is read only together with the token after it.
-/

namespace TriLang

/-- The kind of the first of `ts`, in front of an end of text. -/
def nextKind (ts : List Token) : TokenKind := (ts.head?.map Token.kind).getD .endOfText

@[simp] theorem nextKind_cons (t : Token) (ts : List Token) : nextKind (t :: ts) = t.kind := rfl

theorem Cursor.current_kind (c : Cursor) : c.current.kind = nextKind c.pending := by
  unfold Cursor.current nextKind
  cases c.pending <;> rfl

theorem Cursor.Leads.index_eq {c d : Cursor} {ts : List Token} (h : c.Leads d)
    (hp : c.pending = ts ++ d.pending) : d.index = c.index + ts.length := by
  obtain ⟨passed, hp', hi, -⟩ := h
  have := List.append_cancel_right (hp.symm.trans hp')
  rw [hi, this]

/-! ## Settled tokens -/

/-- How many of `ts` are settled once `ts` are known: all, but a semicolon at the end. -/
def settled (ts : List Token) : Nat :=
  if ts.getLast?.map Token.kind = some .semicolon then ts.length - 1 else ts.length

@[simp] theorem settled_nil : settled [] = 0 := rfl

theorem settled_le_length (ts : List Token) : settled ts ≤ ts.length := by
  unfold settled
  split <;> omega

theorem length_le_settled (ts : List Token) : ts.length ≤ settled ts + 1 := by
  unfold settled
  split <;> omega

theorem settled_append (us : List Token) {ts : List Token} (h : ts ≠ []) :
    settled (us ++ ts) = us.length + settled ts := by
  have hl : 0 < ts.length := List.length_pos_iff.2 h
  unfold settled
  rw [List.getLast?_append_of_ne_nil _ h, List.length_append]
  split <;> omega

theorem settled_cons_le (t : Token) (ts : List Token) : settled (t :: ts) ≤ 1 + settled ts := by
  rcases eq_or_ne ts [] with rfl | h
  · simpa using settled_le_length [t]
  · exact Nat.le_of_eq (settled_append [t] h)

theorem settled_concat (us : List Token) {t : Token} (h : t.kind ≠ .semicolon) :
    settled (us ++ [t]) = us.length + 1 := by
  simp [settled, h]

theorem settled_semicolon {t : Token} (h : t.kind = .semicolon) : settled [t] = 0 := by
  simp [settled, h]

namespace Read

variable {α β : Type} {c d : Cursor}

/-! ## Passing an index -/

/-- `r` neither raises a fault nor stops before the index `n`. -/
structure Passes (r : Read α c) (n : Nat) : Prop where
  stop : n ≤ r.next.index
  faults : ∀ f ∈ r.faults, n ≤ f.index

theorem Passes.mono {r : Read α c} {m n : Nat} (h : r.Passes n) (hm : m ≤ n) : r.Passes m :=
  ⟨Nat.le_trans hm h.stop, fun f hf => Nat.le_trans hm (h.faults f hf)⟩

theorem passes_index (r : Read α c) : r.Passes c.index where
  stop := r.leads.index_le
  faults f hf := by
    obtain ⟨e, he, -, hi, -⟩ := r.raised f hf
    exact hi ▸ he.index_le

theorem Passes.andThen {r : Read α c} {n : Nat} (h : r.Passes n)
    (k : α → (d : Cursor) → d.size ≤ c.size → Read β d) : (r.andThen k).Passes n := by
  have hs := (k r.node r.next r.size_le).passes_index.mono h.stop
  refine ⟨hs.stop, fun f hf => ?_⟩
  rcases List.mem_append.1 hf with hf | hf
  · exact h.faults f hf
  · exact hs.faults f hf

theorem passes_andThen_of_faults_eq_nil {r : Read α c} {n : Nat}
    {k : α → (d : Cursor) → d.size ≤ c.size → Read β d} (h : r.faults = [])
    (hk : (k r.node r.next r.size_le).Passes n) : (r.andThen k).Passes n :=
  ⟨hk.stop, fun f hf => hk.faults f (by simpa [Read.andThen, h] using hf)⟩

/-! ## Following tokens -/

/-- `r` follows `ts` up to tokens of the kinds `stop`, to a node that is `good`. -/
structure Follows (r : Read α c) (stop : TokenKind → Prop) (ts : List Token) (good : α → Prop) :
    Prop where
  whole : ∀ rest, c.pending = ts ++ rest → stop (nextKind rest) →
    r.faults = [] ∧ r.next.pending = rest ∧ good r.node
  part : ∀ us vs rest, ts = us ++ vs → c.pending = us ++ rest → r.Passes (c.index + settled us)

namespace Follows

variable {stop : TokenKind → Prop} {t : Token} {ts us : List Token} {good : α → Prop}

theorem done {a : α} (h : good a) : (Read.done a : Read α c).Follows stop [] good where
  whole _ hp _ := ⟨rfl, hp, h⟩
  part us vs _ hu _ := by
    obtain ⟨rfl, rfl⟩ := List.nil_eq_append_iff.1 hu
    exact (Read.done a).passes_index

theorem fresh {a : NodeId → α} (h : ∀ i, good (a i)) :
    (Read.fresh a : Read α c).Follows stop [] good where
  whole _ hp _ := ⟨rfl, hp, h _⟩
  part us vs _ hu _ := by
    obtain ⟨rfl, rfl⟩ := List.nil_eq_append_iff.1 hu
    exact (Read.fresh a).passes_index

/-- Nothing is to be shown in front of what the phrase does not end at. -/
theorem of_not_stop {r : Read α c} (h : ¬stop c.current.kind) : r.Follows stop [] good where
  whole rest hp hs := by
    rw [Cursor.current_kind, hp] at h
    exact absurd hs h
  part us vs _ hu _ := by
    obtain ⟨rfl, rfl⟩ := List.nil_eq_append_iff.1 hu
    exact r.passes_index

/-- Where the first of `ts` is not ahead, nothing is to be shown. -/
theorem of_pending {r : Read α c}
    (h : ∀ rest, c.pending = t :: rest → r.Follows stop (t :: ts) good) :
    r.Follows stop (t :: ts) good where
  whole rest hp := (h _ hp).whole rest hp
  part us vs rest hu hp := by
    obtain _ | ⟨u, us⟩ := us
    · exact r.passes_index
    · obtain ⟨rfl, rfl⟩ := List.cons.inj hu
      exact (h _ hp).part (t :: us) vs rest hu hp

theorem of_ahead {r : Read α c}
    (h : ∀ d h, c.ahead = .token t d h → r.Follows stop (t :: ts) good) :
    r.Follows stop (t :: ts) good :=
  .of_pending fun _ hp =>
    have ⟨_, ha⟩ := Cursor.ahead_of_pending hp
    h _ _ ha

/-- A semicolon counts only together with the token after it. -/
theorem of_pending_semicolon {u : Token} {r : Read α c} (ht : t.kind = .semicolon)
    (h : ∀ rest, c.pending = t :: u :: rest → r.Follows stop (t :: u :: ts) good) :
    r.Follows stop (t :: u :: ts) good where
  whole rest hp := (h _ hp).whole rest hp
  part us vs rest hu hp := by
    match us, hu with
    | [], _ => exact r.passes_index
    | [v], hu =>
      obtain ⟨rfl, -⟩ := List.cons.inj hu
      simpa [settled_semicolon ht] using r.passes_index
    | v :: w :: us, hu =>
      obtain ⟨rfl, rfl, rfl⟩ : t = v ∧ u = w ∧ ts = us ++ vs := by simpa using hu
      exact (h _ hp).part (t :: u :: us) vs rest hu hp

theorem since {h : d.size < c.size ∧ c.Leads d} {r : Read α d} (ha : c.ahead = .token t d h)
    (hr : r.Follows stop ts good) : (Read.since h r).Follows stop (t :: ts) good := by
  obtain ⟨hp, hd⟩ := Cursor.ahead_eq_token ha
  have hi : d.index = c.index + 1 := congrArg Cursor.index hd
  refine ⟨fun rest hp' hs => ?_, fun us vs rest hu hp' => ?_⟩
  · have hd : d.pending = ts ++ rest := (List.cons.inj (hp.symm.trans hp')).2
    exact hr.whole rest hd hs
  · obtain _ | ⟨u, us⟩ := us
    · exact (Read.since h r).passes_index
    · obtain ⟨rfl, rfl⟩ := List.cons.inj hu
      have hd : d.pending = us ++ rest := (List.cons.inj (hp.symm.trans hp')).2
      have hr := hr.part us vs rest rfl hd
      have := settled_cons_le t us
      exact Passes.mono ⟨hr.stop, hr.faults⟩ (by omega)

theorem expect {kind : TokenKind} (ht : t.kind = kind) :
    (c.expect kind).Follows (fun _ => True) [t] fun _ => True := by
  refine .of_pending fun rest hp => ?_
  have hc : c.current.kind = kind := by rw [Cursor.current_of_pending hp, ht]
  have hn : (c.expect kind).next = c.past t rest := by
    simp [Cursor.expect, hc, Cursor.stepOver_of_pending hp]
  have hf : (c.expect kind).faults = [] := by simp [Cursor.expect, hc]
  refine ⟨fun rest' hp' _ => ?_, fun us vs rest' hu hp' => ?_⟩
  · obtain rfl : rest = rest' := by simpa [hp] using hp'
    exact ⟨hf, by rw [hn]; rfl, trivial⟩
  · have hl := congrArg List.length hu
    have := settled_le_length us
    simp only [List.length_append, List.length_singleton] at hl
    refine ⟨?_, by simp [hf]⟩
    rw [hn]
    show c.index + settled us ≤ c.index + 1
    omega

/-- What is read behind `ts` decides whether the reading of `ts` stops there. -/
theorem andThen {r : Read α c} {k : α → (d : Cursor) → d.size ≤ c.size → Read β d}
    {stop' : TokenKind → Prop} {good' : β → Prop} (hr : r.Follows stop ts good)
    (hk : ∀ a d hd, good a → (k a d hd).Follows stop' us good')
    (hs : ∀ rest, us ≠ [] ∨ stop' (nextKind rest) → stop (nextKind (us ++ rest))) :
    (r.andThen k).Follows stop' (ts ++ us) good' where
  whole rest hp hs' := by
    rw [List.append_assoc] at hp
    obtain ⟨hf, hn, hg⟩ := hr.whole _ hp (hs rest (.inr hs'))
    obtain ⟨hf', hn', hg'⟩ := (hk _ r.next r.size_le hg).whole rest hn hs'
    exact ⟨by simp [Read.andThen, hf, hf'], hn', hg'⟩
  part vs ws rest hu hp := by
    -- What is known of the tokens either takes in all of `ts` or ends inside of them.
    rcases List.append_eq_append_iff.1 hu with ⟨xs, rfl, rfl⟩ | ⟨xs, rfl, rfl⟩
    · rcases eq_or_ne xs [] with rfl | hx
      · exact (hr.part ts [] rest (by simp) (by simpa using hp)).andThen k |>.mono (by simp)
      · rw [List.append_assoc] at hp
        have hs : stop (nextKind (xs ++ rest)) := by
          have := hs [] (.inl (by simp [hx]))
          obtain ⟨x, xs, rfl⟩ := List.exists_cons_of_ne_nil hx
          simpa using this
        obtain ⟨hf, hn, hg⟩ := hr.whole _ hp hs
        have hi := r.leads.index_eq (by rwa [hn])
        have hk := (hk _ r.next r.size_le hg).part xs ws rest rfl hn
        refine passes_andThen_of_faults_eq_nil hf (hk.mono (Nat.le_of_eq ?_))
        rw [settled_append _ hx, hi, Nat.add_assoc]
    · exact (hr.part vs xs rest rfl hp).andThen k

/-- What reads nothing more comes last. -/
theorem andThen_last {r : Read α c} {k : α → (d : Cursor) → d.size ≤ c.size → Read β d}
    {stop' : TokenKind → Prop} {good' : β → Prop} (hr : r.Follows stop ts good)
    (hk : ∀ a d hd, good a → (k a d hd).Follows stop' [] good') (hs : ∀ k, stop' k → stop k) :
    (r.andThen k).Follows stop' ts good' :=
  List.append_nil ts ▸ hr.andThen hk fun _ h => hs _ (h.resolve_left (· rfl))

theorem occurrence_andThen {k : Occurrence → (d : Cursor) → d.size ≤ c.size → Read β d}
    {good' : β → Prop}
    (hk : ∀ o d hd, o.spelling = t.spelling → (k o d hd).Follows stop us good') :
    ((Cursor.occurrence t).andThen k).Follows stop us good' := by
  have ho : (Cursor.occurrence t : Read Occurrence c).Follows (fun _ => True) []
      fun o => o.spelling = t.spelling := .fresh fun _ => rfl
  exact ho.andThen hk fun _ _ => trivial

theorem expect_andThen {kind : TokenKind} {k : Unit → (d : Cursor) → d.size ≤ c.size → Read β d}
    {good' : β → Prop} (ht : t.kind = kind) (hk : ∀ d hd, (k () d hd).Follows stop us good') :
    ((c.expect kind).andThen k).Follows stop (t :: us) good' :=
  (expect ht).andThen (fun _ d hd _ => hk d hd) fun _ _ => trivial

end Follows

/-! ## Becoming another reading -/

/-- `r` comes to `d` without a fault and does there what `r'` does. -/
structure Becomes (r : Read α c) (r' : Read α d) : Prop where
  leads : c.Leads d
  node : r.node = r'.node
  next : r.next = r'.next
  faults : r.faults = r'.faults

namespace Becomes

theorem trans {e : Cursor} {r : Read α c} {r' : Read α d} {r'' : Read α e} (h : r.Becomes r')
    (h' : r'.Becomes r'') : r.Becomes r'' :=
  ⟨h.leads.trans h'.leads, h.node.trans h'.node, h.next.trans h'.next, h.faults.trans h'.faults⟩

theorem since (h : d.size < c.size ∧ c.Leads d) (r : Read α d) : (Read.since h r).Becomes r :=
  ⟨h.2, rfl, rfl, rfl⟩

theorem andThen {r : Read α c} (k : α → (d : Cursor) → d.size ≤ c.size → Read β d)
    (h : r.faults = []) : (r.andThen k).Becomes (k r.node r.next r.size_le) :=
  ⟨r.leads, rfl, rfl, by simp [Read.andThen, h]⟩

theorem passes {r : Read α c} {r' : Read α d} {n : Nat} (h : r.Becomes r') (h' : r'.Passes n) :
    r.Passes n :=
  ⟨h.next ▸ h'.stop, h.faults ▸ h'.faults⟩

end Becomes

end Read

/-! ## Phrases -/

namespace Phrase

/-- The kinds of tokens in front of which a phrase ends. -/
def StopsAt : Phrase → TokenKind → Prop
  | primary, k => k ≠ .leftBracket
  | expression, k | singleCommand, k | singleDeclaration, k => k ≠ .operator ∧ k ≠ .leftBracket
  | command, k | moreCommands, k | declaration, k | moreDeclarations, k =>
    k ≠ .operator ∧ k ≠ .leftBracket ∧ k ≠ .semicolon
  | parameter, k => k = .rightBracket

/-- What phrases begin with. -/
def Begins : Phrase → List Token → Prop
  | singleCommand, ts => ∃ t us, ts = t :: us ∧ t.kind.startsCommand
  | singleDeclaration, ts => ∃ t us, ts = t :: us ∧ t.kind.startsDeclaration
  | expression, ts | primary, ts => ∃ t us, ts = t :: us ∧ t.kind.startsExpression
  | moreCommands, ts | moreDeclarations, ts => ∀ t ∈ ts.head?, t.kind = .semicolon
  | _, _ => True

/-- The rest of a sequence, if there is one, begins where the first of the sequence ends. -/
theorem stops_before_more {us rest : List Token} (hb : ∀ t ∈ us.head?, t.kind = .semicolon)
    (h : us ≠ [] ∨ StopsAt .command (nextKind rest)) :
    StopsAt .singleCommand (nextKind (us ++ rest)) := by
  obtain _ | ⟨u, us⟩ := us
  · exact (h.resolve_left (· rfl)).imp_right And.left
  · have : u.kind = .semicolon := hb u rfl
    simp [StopsAt, this]

theorem Derives.begins {p : Phrase} {ts : List Token} {t : p.Tree} (h : Derives p ts t) :
    p.Begins ts := by
  induction h with
  | binary left op right ih =>
    obtain ⟨t, us, rfl, ht⟩ := ih
    exact ⟨t, _, rfl, ht⟩
  | operand only ih => exact ih
  | _ => simp_all [Begins, TokenKind.startsCommand, TokenKind.startsDeclaration,
      TokenKind.startsExpression]

end Phrase

open Phrase

namespace Cursor

variable {c : Cursor} {t u v : Token} {ts us vs : List Token}

/-! ## Expressions and parameters -/

section Expression

variable {e l r : Expr} {q : Param} {s m : Span} {i : NodeId}

theorem operands_of_current_ne {left : Expr} (h : c.current.kind ≠ .operator) :
    operands left c = .done left := by
  rw [operands]
  split
  case h_1 ha =>
    rw [current_of_pending (ahead_eq_token ha).1] at h
    exact absurd rfl h
  case h_2 => rfl

/-- Reading an expression follows `ts` to an expression like `e` and goes on with what may continue
it, however that turns out. -/
structure ChainsTo (c : Cursor) (ts : List Token) (e : Expr) : Prop where
  whole : ∀ rest, c.pending = ts ++ rest → nextKind rest ≠ .leftBracket →
    ∃ l d, l.shape = e.shape ∧ d.pending = rest ∧ (expression c).Becomes (operands l d)
  part : ∀ us vs rest, ts = us ++ vs → c.pending = us ++ rest →
    (expression c).Passes (c.index + settled us)

theorem ChainsTo.follows (h : c.ChainsTo ts e) :
    (expression c).Follows (StopsAt .expression) ts (·.shape = e.shape) where
  whole rest hp hs := by
    obtain ⟨l, d, hl, hd, hb⟩ := h.whole rest hp hs.2
    have hc : d.current.kind ≠ .operator := by rw [current_kind, hd]; exact hs.1
    rw [operands_of_current_ne hc] at hb
    exact ⟨hb.faults, hb.next ▸ hd, hb.node ▸ hl⟩
  part := h.part

theorem chainsTo_operand (h : ∀ c, (primary c).Follows (StopsAt .primary) ts (·.shape = e.shape)) :
    c.ChainsTo ts e where
  whole rest hp hs := by
    obtain ⟨hf, hn, he⟩ := (h c).whole rest hp hs
    refine ⟨_, _, he, hn, ?_⟩
    rw [expression]
    exact .andThen _ hf
  part us vs rest hu hp := by
    rw [expression]
    exact ((h c).part us vs rest hu hp).andThen _

theorem operands_of_operator {d : Cursor} {rest : List Token} (ht : t.kind = .operator)
    (hp : d.pending = t :: rest) (l : Expr) :
    ∃ o d', o.spelling = t.spelling ∧ d'.pending = rest ∧ d'.index = d.index + 1 ∧
      (operands l d).Becomes ((primary d').andThen fun r f _ =>
        operands (.binary (l.span.join r.span) l o r) f) := by
  obtain ⟨k, spelling, span⟩ := t
  cases ht
  obtain ⟨h, ha⟩ := ahead_of_pending hp
  rw [operands, ha]
  refine ⟨_, _, rfl, rfl, rfl, (Read.Becomes.since h _).trans (.andThen _ rfl)⟩

/-- An operator and a primary make one expression with what is read before them. -/
theorem operands_becomes {d : Cursor} {rest : List Token} (ht : t.kind = .operator)
    (hr : ∀ c, (primary c).Follows (StopsAt .primary) us (·.shape = r.shape))
    (hl : l.shape = e.shape) (hp : d.pending = t :: (us ++ rest))
    (hs : nextKind rest ≠ .leftBracket) :
    ∃ l' d', l'.shape = (Expr.binary s e ⟨i, t.spelling, m⟩ r).shape ∧ d'.pending = rest ∧
      (operands l d).Becomes (operands l' d') := by
  obtain ⟨o, d', ho, hd, -, hb⟩ := operands_of_operator ht hp l
  obtain ⟨hf, hn, hr⟩ := (hr d').whole rest hd hs
  exact ⟨_, _, by simp [hl, hr, ho], hn, hb.trans (.andThen _ hf)⟩

theorem operands_passes {d : Cursor} {rest : List Token} (ht : t.kind = .operator)
    (hr : ∀ c, (primary c).Follows (StopsAt .primary) (us ++ vs) (·.shape = r.shape))
    (hp : d.pending = t :: (us ++ rest)) (l : Expr) :
    (operands l d).Passes (d.index + (1 + settled us)) := by
  obtain ⟨o, d', -, hd, hi, hb⟩ := operands_of_operator ht hp l
  have hr := (hr d').part us vs rest rfl hd
  rw [hi, Nat.add_assoc] at hr
  exact hb.passes (hr.andThen _)

theorem chainsTo_binary (hl : ∀ c : Cursor, c.ChainsTo ts l) (ht : t.kind = .operator)
    (hr : ∀ c, (primary c).Follows (StopsAt .primary) us (·.shape = r.shape)) :
    c.ChainsTo (ts ++ t :: us) (.binary s l ⟨i, t.spelling, m⟩ r) where
  whole rest hp hs := by
    rw [List.append_assoc] at hp
    obtain ⟨e, d, he, hd, hb⟩ := (hl c).whole _ hp (by simp [ht])
    obtain ⟨l', d', hl', hd', hb'⟩ := operands_becomes ht hr he hd hs
    exact ⟨l', d', hl', hd', hb.trans hb'⟩
  part xs ys rest hu hp := by
    rcases List.append_eq_append_iff.1 hu with ⟨zs, rfl, hz⟩ | ⟨zs, rfl, -⟩
    · obtain _ | ⟨z, zs⟩ := zs
      · exact (hl c).part _ [] rest (by simp) (by simpa using hp)
      · obtain ⟨rfl, rfl⟩ := List.cons.inj hz
        rw [List.append_assoc] at hp
        obtain ⟨e, d, he, hd, hb⟩ := (hl c).whole _ hp (by simp [ht])
        have hi := hb.leads.index_eq (by rwa [hd])
        refine hb.passes ((operands_passes ht hr hd e).mono ?_)
        have := settled_cons_le t zs
        rw [settled_append _ (List.cons_ne_nil t zs)]
        omega
    · exact (hl c).part xs zs rest rfl hp

theorem follows_integer (ht : t.kind = .intLiteral) :
    (primary c).Follows (StopsAt .primary) [t] (·.shape = (Expr.integer s t.spelling).shape) := by
  obtain ⟨k, spelling, span⟩ := t
  cases ht
  refine .of_ahead fun d h ha => ?_
  rw [primary, ha]
  exact .since ha (.done rfl)

theorem follows_character (ht : t.kind = .charLiteral) :
    (primary c).Follows (StopsAt .primary) [t] (·.shape = (Expr.character s t.spelling).shape) := by
  obtain ⟨k, spelling, span⟩ := t
  cases ht
  refine .of_ahead fun d h ha => ?_
  rw [primary, ha]
  exact .since ha (.done rfl)

theorem follows_unary (ht : t.kind = .operator)
    (he : ∀ c, (primary c).Follows (StopsAt .primary) ts (·.shape = e.shape)) :
    (primary c).Follows (StopsAt .primary) (t :: ts)
      (·.shape = (Expr.unary s ⟨i, t.spelling, m⟩ e).shape) := by
  obtain ⟨k, spelling, span⟩ := t
  cases ht
  refine .of_ahead fun d h ha => ?_
  rw [primary, ha]
  refine .since ha (.occurrence_andThen fun o d _ ho => ?_)
  exact (he d).andThen_last (fun x f _ hx => .done (by simp [ho, hx])) fun _ h => h

theorem follows_name (ht : t.kind = .identifier) :
    (primary c).Follows (StopsAt .primary) [t]
      (·.shape = (Expr.name s ⟨i, t.spelling, m⟩).shape) := by
  obtain ⟨k, spelling, span⟩ := t
  cases ht
  refine .of_ahead fun d h ha => ?_
  rw [primary, ha]
  refine .since ha (.occurrence_andThen fun o d _ ho => ?_)
  split
  case h_1 ha => exact .of_not_stop (by simp [current_of_pending (ahead_eq_token ha).1, StopsAt])
  case h_2 => exact .done (by simp [ho])

theorem follows_apply (ht : t.kind = .identifier) (hu : u.kind = .leftBracket)
    (hq : ∀ c, (parameter c).Follows (StopsAt .parameter) ts (·.shape = q.shape))
    (hv : v.kind = .rightBracket) :
    (primary c).Follows (StopsAt .primary) (t :: u :: (ts ++ [v]))
      (·.shape = (Expr.apply s ⟨i, t.spelling, m⟩ q).shape) := by
  obtain ⟨k, spelling, span⟩ := t
  obtain ⟨k', spelling', span'⟩ := u
  cases ht
  cases hu
  refine .of_ahead fun d h ha => ?_
  rw [primary, ha]
  refine .since ha (.occurrence_andThen fun o d _ ho => ?_)
  refine .of_ahead fun e h ha => ?_
  rw [ha]
  refine .since ha ((hq e).andThen (fun x f _ hx => ?_) ?_)
  · exact .expect_andThen hv fun g _ => .done (by simp [ho, hx])
  · exact fun _ _ => hv

theorem follows_bracketed (ht : t.kind = .leftBracket) (he : ∀ c : Cursor, c.ChainsTo ts e)
    (hu : u.kind = .rightBracket) :
    (primary c).Follows (StopsAt .primary) (t :: (ts ++ [u])) (·.shape = e.shape) := by
  obtain ⟨k, spelling, span⟩ := t
  cases ht
  refine .of_ahead fun d h ha => ?_
  rw [primary, ha]
  refine .since ha ((he d).follows.andThen (fun x f _ hx => ?_) ?_)
  · exact .expect_andThen hu fun g _ => .done hx
  · exact fun _ _ => by simp [StopsAt, hu]

theorem follows_noParameter :
    (parameter c).Follows (StopsAt .parameter) [] (·.shape = (Param.blank s).shape) := by
  by_cases h : c.current.kind = .rightBracket
  · rw [parameter]
    split
    case h_1 ha => simp [current_of_pending (ahead_eq_token ha).1] at h
    case h_2 => exact .done (by simp)
    case h_3 hn =>
      rcases hp : c.pending with _ | ⟨⟨k, spelling, span⟩, rest⟩
      · simp [current, hp] at h
      · rw [current_of_pending hp] at h
        cases h
        obtain ⟨h, ha⟩ := ahead_of_pending hp
        exact (hn _ _ _ _ ha).elim
  · exact .of_not_stop h

theorem follows_value (he : ∀ c : Cursor, c.ChainsTo ts e) (hb : Begins .expression ts) :
    (parameter c).Follows (StopsAt .parameter) ts (·.shape = (Param.value s e).shape) := by
  obtain ⟨t, ts, rfl, ht⟩ := hb
  refine .of_ahead fun d h ha => ?_
  have hc : c.current = t := current_of_pending (ahead_eq_token ha).1
  rw [parameter, ha]
  split
  case h_1 heq =>
    cases heq
    cases ht
  case h_2 heq =>
    cases heq
    cases ht
  case h_3 =>
    rw [if_pos (by rwa [hc])]
    refine (he c).follows.andThen_last (fun x f _ hx => .done (by simp [hx])) fun k hk => ?_
    cases hk
    exact ⟨by decide, by decide⟩

theorem follows_varParameter (ht : t.kind = .kwVar) (hu : u.kind = .identifier) :
    (parameter c).Follows (StopsAt .parameter) [t, u]
      (·.shape = (Param.var s ⟨i, u.spelling, m⟩).shape) := by
  obtain ⟨k, spelling, span⟩ := t
  obtain ⟨k', spelling', span'⟩ := u
  cases ht
  cases hu
  refine .of_ahead fun d h ha => ?_
  rw [parameter, ha]
  refine .since ha (.of_ahead fun e h ha => ?_)
  rw [ha]
  exact .since ha (.occurrence_andThen fun o f _ ho => .done (by simp [ho]))

end Expression

/-! ## Declarations -/

section Declaration

variable {e : Expr} {x y : Decl} {xs : List Decl} {s m n : Span} {i j k : NodeId}

theorem follows_const (ht : t.kind = .kwConst) (hu : u.kind = .identifier) (hv : v.kind = .kwIs)
    (he : ∀ c : Cursor, c.ChainsTo ts e) :
    (singleDeclaration c).Follows (StopsAt .singleDeclaration) (t :: u :: v :: ts)
      (·.shape = (Decl.const i s ⟨j, u.spelling, m⟩ e).shape) := by
  obtain ⟨k, spelling, span⟩ := t
  obtain ⟨k', spelling', span'⟩ := u
  cases ht
  cases hu
  refine .of_ahead fun d h ha => ?_
  rw [singleDeclaration, ha]
  refine .since ha (.of_ahead fun e h ha => ?_)
  rw [ha]
  refine .since ha (.occurrence_andThen fun o f _ ho => .expect_andThen hv fun f _ => ?_)
  exact (he f).follows.andThen_last (fun y g _ hy => .fresh fun i => by simp [ho, hy])
    fun _ h => h

theorem follows_var (ht : t.kind = .identifier) (hu : u.kind = .identifier) :
    (singleDeclaration c).Follows (StopsAt .singleDeclaration) [t, u]
      (·.shape = (Decl.var i s ⟨j, t.spelling, m⟩ ⟨k, u.spelling, n⟩).shape) := by
  obtain ⟨k, spelling, span⟩ := t
  obtain ⟨k', spelling', span'⟩ := u
  cases ht
  cases hu
  refine .of_ahead fun d h ha => ?_
  rw [singleDeclaration, ha]
  refine .since ha (.occurrence_andThen fun o d _ ho => .of_ahead fun e h ha => ?_)
  rw [ha]
  exact .since ha (.occurrence_andThen fun o' f _ ho' => .fresh fun i => by simp [ho, ho'])

theorem follows_noMoreDeclarations :
    (moreDeclarations c).Follows (StopsAt .moreDeclarations) []
      fun ys => ys.map Decl.shape = [] := by
  rw [moreDeclarations]
  split
  case h_1 d h ha =>
    exact .of_not_stop (by simp [current_of_pending (ahead_eq_token ha).1, StopsAt])
  case h_2 => exact .done rfl

theorem follows_moreDeclarations (ht : t.kind = .semicolon)
    (hx : ∀ c, (singleDeclaration c).Follows (StopsAt .singleDeclaration) ts (·.shape = x.shape))
    (hb : Begins .singleDeclaration ts)
    (hm : ∀ c, (moreDeclarations c).Follows (StopsAt .moreDeclarations) us
      fun ys => ys.map Decl.shape = xs.map Decl.shape)
    (hs : Begins .moreDeclarations us) :
    (moreDeclarations c).Follows (StopsAt .moreDeclarations) (t :: (ts ++ us))
      fun ys => ys.map Decl.shape = (x :: xs).map Decl.shape := by
  obtain ⟨k, spelling, span⟩ := t
  obtain ⟨u, ts, rfl, hu⟩ := hb
  cases ht
  refine .of_pending_semicolon rfl fun rest hp => ?_
  obtain ⟨h, ha⟩ := ahead_of_pending hp
  rw [moreDeclarations, ha]
  have hc : (c.past ⟨.semicolon, spelling, span⟩ (u :: rest)).current = u := rfl
  dsimp only
  rw [if_pos (by rwa [hc])]
  refine .since ha ((hx _).andThen (fun y f _ hy => ?_) fun _ => stops_before_more hs)
  exact (hm f).andThen_last (fun ys g _ hys => .done (by simp [hy, hys])) fun _ h => h

theorem follows_loneDeclaration
    (hx : ∀ c, (singleDeclaration c).Follows (StopsAt .singleDeclaration) ts (·.shape = x.shape)) :
    (declaration c).Follows (StopsAt .declaration) ts (·.shape = x.shape) := by
  rw [declaration]
  refine (hx c).andThen_last (fun y d _ hy => ?_) fun k hk => hk.imp_right And.left
  refine (follows_noMoreDeclarations (c := d)).andThen_last (fun ys e _ hys => ?_) fun _ hk => hk
  obtain rfl := List.map_eq_nil_iff.1 hys
  exact .done hy

theorem follows_declarationSequence
    (hx : ∀ c, (singleDeclaration c).Follows (StopsAt .singleDeclaration) ts (·.shape = x.shape))
    (hm : ∀ c, (moreDeclarations c).Follows (StopsAt .moreDeclarations) us
      fun ys => ys.map Decl.shape = (y :: xs).map Decl.shape)
    (hs : Begins .moreDeclarations us) :
    (declaration c).Follows (StopsAt .declaration) (ts ++ us)
      (·.shape = (Decl.sequence i s (x :: y :: xs)).shape) := by
  rw [declaration]
  refine (hx c).andThen (fun x' d _ hx' => ?_) fun _ => stops_before_more hs
  refine (hm d).andThen_last (fun ys e _ hys => ?_) fun _ hk => hk
  split
  case h_1 hl =>
    obtain rfl := List.getLast?_eq_none_iff.1 hl
    simp at hys
  case h_2 last hl => exact .fresh fun i => by simpa using ⟨hx', hys⟩

end Declaration

/-! ## Commands -/

section Command

variable {e : Expr} {q : Param} {x : Decl} {a b : Command} {as : List Command} {s m : Span}
  {i : NodeId}

theorem follows_assign (ht : t.kind = .identifier) (hu : u.kind = .becomes)
    (he : ∀ c : Cursor, c.ChainsTo ts e) :
    (singleCommand c).Follows (StopsAt .singleCommand) (t :: u :: ts)
      (·.shape = (Command.assign s ⟨i, t.spelling, m⟩ e).shape) := by
  obtain ⟨k, spelling, span⟩ := t
  obtain ⟨k', spelling', span'⟩ := u
  cases ht
  cases hu
  refine .of_ahead fun d h ha => ?_
  rw [singleCommand, ha]
  refine .since ha (.occurrence_andThen fun o d _ ho => .of_ahead fun f h ha => ?_)
  rw [ha]
  exact .since ha ((he f).follows.andThen_last (fun y g _ hy => .done (by simp [ho, hy]))
    fun _ hk => hk)

theorem follows_call (ht : t.kind = .identifier) (hu : u.kind = .leftBracket)
    (hq : ∀ c, (parameter c).Follows (StopsAt .parameter) ts (·.shape = q.shape))
    (hv : v.kind = .rightBracket) :
    (singleCommand c).Follows (StopsAt .singleCommand) (t :: u :: (ts ++ [v]))
      (·.shape = (Command.call s ⟨i, t.spelling, m⟩ q).shape) := by
  obtain ⟨k, spelling, span⟩ := t
  obtain ⟨k', spelling', span'⟩ := u
  cases ht
  cases hu
  refine .of_ahead fun d h ha => ?_
  rw [singleCommand, ha]
  refine .since ha (.occurrence_andThen fun o d _ ho => .of_ahead fun e h ha => ?_)
  rw [ha]
  refine .since ha ((hq e).andThen (fun x f _ hx => ?_) fun _ _ => hv)
  exact .expect_andThen hv fun g _ => .done (by simp [ho, hx])

theorem follows_block (ht : t.kind = .kwBegin)
    (ha : ∀ c, (command c).Follows (StopsAt .command) ts (·.shape = a.shape))
    (hu : u.kind = .kwEnd) :
    (singleCommand c).Follows (StopsAt .singleCommand) (t :: (ts ++ [u])) (·.shape = a.shape) := by
  obtain ⟨k, spelling, span⟩ := t
  cases ht
  refine .of_ahead fun d h hd => ?_
  rw [singleCommand, hd]
  refine .since hd ((ha d).andThen (fun x f _ hx => ?_) fun _ _ => by simp [StopsAt, hu])
  exact .expect_andThen hu fun g _ => .done hx

theorem follows_letIn (ht : t.kind = .kwLet)
    (hx : ∀ c, (declaration c).Follows (StopsAt .declaration) ts (·.shape = x.shape))
    (hu : u.kind = .kwIn)
    (ha : ∀ c, (singleCommand c).Follows (StopsAt .singleCommand) us (·.shape = a.shape)) :
    (singleCommand c).Follows (StopsAt .singleCommand) (t :: (ts ++ u :: us))
      (·.shape = (Command.letIn s x a).shape) := by
  obtain ⟨k, spelling, span⟩ := t
  cases ht
  refine .of_ahead fun d h hd => ?_
  rw [singleCommand, hd]
  refine .since hd ((hx d).andThen (fun y f _ hy => ?_) fun _ _ => by simp [StopsAt, hu])
  refine .expect_andThen hu fun g _ => ?_
  exact (ha g).andThen_last (fun b g _ hb => .done (by simp [hy, hb])) fun _ hk => hk

theorem follows_ifElse (ht : t.kind = .kwIf) (he : ∀ c : Cursor, c.ChainsTo ts e)
    (hu : u.kind = .kwThen)
    (ha : ∀ c, (singleCommand c).Follows (StopsAt .singleCommand) us (·.shape = a.shape))
    (hv : v.kind = .kwElse)
    (hb : ∀ c, (singleCommand c).Follows (StopsAt .singleCommand) vs (·.shape = b.shape)) :
    (singleCommand c).Follows (StopsAt .singleCommand) (t :: (ts ++ u :: (us ++ v :: vs)))
      (·.shape = (Command.ifElse s e a b).shape) := by
  obtain ⟨k, spelling, span⟩ := t
  obtain ⟨k', spelling', span'⟩ := v
  cases ht
  cases hv
  refine .of_ahead fun d h hd => ?_
  rw [singleCommand, hd]
  refine .since hd ((he d).follows.andThen (fun y f _ hy => ?_) fun _ _ => by simp [StopsAt, hu])
  refine .expect_andThen hu fun g _ => ?_
  refine (ha g).andThen (fun a' g _ ha' => .of_ahead fun g' h hg => ?_) fun _ _ => by simp [StopsAt]
  rw [hg]
  exact .since hg ((hb g').andThen_last (fun b' g _ hb' => .done (by simp [hy, ha', hb']))
    fun _ hk => hk)

theorem follows_ifNoElse (ht : t.kind = .kwIf) (he : ∀ c : Cursor, c.ChainsTo ts e)
    (hu : u.kind = .kwThen)
    (ha : ∀ c, (singleCommand c).Follows (StopsAt .singleCommand) us (·.shape = a.shape))
    (hv : v.kind = .kwNoElse) :
    (singleCommand c).Follows (StopsAt .singleCommand) (t :: (ts ++ u :: (us ++ [v])))
      (·.shape = (Command.ifNoElse s e a).shape) := by
  obtain ⟨k, spelling, span⟩ := t
  obtain ⟨k', spelling', span'⟩ := v
  cases ht
  cases hv
  refine .of_ahead fun d h hd => ?_
  rw [singleCommand, hd]
  refine .since hd ((he d).follows.andThen (fun y f _ hy => ?_) fun _ _ => by simp [StopsAt, hu])
  refine .expect_andThen hu fun g _ => ?_
  refine (ha g).andThen (fun a' g _ ha' => .of_ahead fun g' h hg => ?_) fun _ _ => by simp [StopsAt]
  rw [hg]
  exact .since hg (.done (by simp [hy, ha']))

theorem follows_whileDo (ht : t.kind = .kwWhile) (he : ∀ c : Cursor, c.ChainsTo ts e)
    (hu : u.kind = .kwDo)
    (ha : ∀ c, (singleCommand c).Follows (StopsAt .singleCommand) us (·.shape = a.shape)) :
    (singleCommand c).Follows (StopsAt .singleCommand) (t :: (ts ++ u :: us))
      (·.shape = (Command.whileDo s e a).shape) := by
  obtain ⟨k, spelling, span⟩ := t
  cases ht
  refine .of_ahead fun d h hd => ?_
  rw [singleCommand, hd]
  refine .since hd ((he d).follows.andThen (fun y f _ hy => ?_) fun _ _ => by simp [StopsAt, hu])
  refine .expect_andThen hu fun g _ => ?_
  exact (ha g).andThen_last (fun b g _ hb => .done (by simp [hy, hb])) fun _ hk => hk

theorem follows_repeatUntil (ht : t.kind = .kwRepeat)
    (ha : ∀ c, (singleCommand c).Follows (StopsAt .singleCommand) ts (·.shape = a.shape))
    (hu : u.kind = .kwUntil) (he : ∀ c : Cursor, c.ChainsTo us e) :
    (singleCommand c).Follows (StopsAt .singleCommand) (t :: (ts ++ u :: us))
      (·.shape = (Command.repeatUntil s a e).shape) := by
  obtain ⟨k, spelling, span⟩ := t
  cases ht
  refine .of_ahead fun d h hd => ?_
  rw [singleCommand, hd]
  refine .since hd ((ha d).andThen (fun b f _ hb => ?_) fun _ _ => by simp [StopsAt, hu])
  refine .expect_andThen hu fun g _ => ?_
  exact (he g).follows.andThen_last (fun y g _ hy => .done (by simp [hy, hb])) fun _ hk => hk

theorem follows_blank (ht : t.kind = .kwNothing) :
    (singleCommand c).Follows (StopsAt .singleCommand) [t]
      (·.shape = (Command.blank s).shape) := by
  obtain ⟨k, spelling, span⟩ := t
  cases ht
  refine .of_ahead fun d h ha => ?_
  rw [singleCommand, ha]
  exact .since ha (.done rfl)

theorem follows_noMore :
    (moreCommands c).Follows (StopsAt .moreCommands) [] fun bs => bs.map Command.shape = [] := by
  rw [moreCommands]
  split
  case h_1 d h ha =>
    exact .of_not_stop (by simp [current_of_pending (ahead_eq_token ha).1, StopsAt])
  case h_2 => exact .done rfl

theorem follows_more (ht : t.kind = .semicolon)
    (ha : ∀ c, (singleCommand c).Follows (StopsAt .singleCommand) ts (·.shape = a.shape))
    (hb : Begins .singleCommand ts)
    (hm : ∀ c, (moreCommands c).Follows (StopsAt .moreCommands) us
      fun bs => bs.map Command.shape = as.map Command.shape)
    (hs : Begins .moreCommands us) :
    (moreCommands c).Follows (StopsAt .moreCommands) (t :: (ts ++ us))
      fun bs => bs.map Command.shape = (a :: as).map Command.shape := by
  obtain ⟨k, spelling, span⟩ := t
  obtain ⟨u, ts, rfl, hu⟩ := hb
  cases ht
  refine .of_pending_semicolon rfl fun rest hp => ?_
  obtain ⟨h, hd⟩ := ahead_of_pending hp
  have hc : (c.past ⟨.semicolon, spelling, span⟩ (u :: rest)).current = u := rfl
  rw [moreCommands, hd]
  dsimp only
  rw [if_pos (by rwa [hc])]
  refine .since hd ((ha _).andThen (fun b f _ hb => ?_) fun _ => stops_before_more hs)
  exact (hm f).andThen_last (fun bs g _ hbs => .done (by simp [hb, hbs])) fun _ h => h

theorem follows_lone
    (ha : ∀ c, (singleCommand c).Follows (StopsAt .singleCommand) ts (·.shape = a.shape)) :
    (command c).Follows (StopsAt .command) ts (·.shape = a.shape) := by
  rw [command]
  refine (ha c).andThen_last (fun b d _ hb => ?_) fun k hk => hk.imp_right And.left
  refine (follows_noMore (c := d)).andThen_last (fun bs e _ hbs => ?_) fun _ hk => hk
  obtain rfl := List.map_eq_nil_iff.1 hbs
  exact .done hb

theorem follows_sequence
    (ha : ∀ c, (singleCommand c).Follows (StopsAt .singleCommand) ts (·.shape = a.shape))
    (hm : ∀ c, (moreCommands c).Follows (StopsAt .moreCommands) us
      fun bs => bs.map Command.shape = (b :: as).map Command.shape)
    (hs : Begins .moreCommands us) :
    (command c).Follows (StopsAt .command) (ts ++ us)
      (·.shape = (Command.sequence s (a :: b :: as)).shape) := by
  rw [command]
  refine (ha c).andThen (fun a' d _ ha' => ?_) fun _ => stops_before_more hs
  refine (hm d).andThen_last (fun bs e _ hbs => ?_) fun _ hk => hk
  split
  case h_1 hl =>
    obtain rfl := List.getLast?_eq_none_iff.1 hl
    simp at hbs
  case h_2 last hl => exact .done (by simpa using ⟨ha', hbs⟩)

end Command

end Cursor

/-! ## All phrases -/

namespace Phrase

/-- What the derivation of a phrase says about its readings. -/
def Followed : (p : Phrase) → List Token → p.Tree → Prop
  | command, ts, a => ∀ c : Cursor, c.command.Follows (StopsAt .command) ts (·.shape = a.shape)
  | moreCommands, ts, as => ∀ c : Cursor, c.moreCommands.Follows (StopsAt .moreCommands) ts
      fun bs => bs.map Command.shape = as.map Command.shape
  | singleCommand, ts, a =>
    ∀ c : Cursor, c.singleCommand.Follows (StopsAt .singleCommand) ts (·.shape = a.shape)
  | declaration, ts, x =>
    ∀ c : Cursor, c.declaration.Follows (StopsAt .declaration) ts (·.shape = x.shape)
  | moreDeclarations, ts, xs => ∀ c : Cursor, c.moreDeclarations.Follows (StopsAt .moreDeclarations)
      ts fun ys => ys.map Decl.shape = xs.map Decl.shape
  | singleDeclaration, ts, x =>
    ∀ c : Cursor, c.singleDeclaration.Follows (StopsAt .singleDeclaration) ts (·.shape = x.shape)
  | expression, ts, e => ∀ c : Cursor, c.ChainsTo ts e
  | primary, ts, e => ∀ c : Cursor, c.primary.Follows (StopsAt .primary) ts (·.shape = e.shape)
  | parameter, ts, q =>
    ∀ c : Cursor, c.parameter.Follows (StopsAt .parameter) ts (·.shape = q.shape)

theorem Derives.followed {p : Phrase} {ts : List Token} {t : p.Tree} (h : Derives p ts t) :
    p.Followed ts t := by
  induction h with
  | lone _ ih => exact fun c => Cursor.follows_lone ih
  | sequence _ more ih ih' => exact fun c => Cursor.follows_sequence ih ih' more.begins
  | noMore => exact fun c => Cursor.follows_noMore
  | more ht first rest ih ih' =>
    exact fun c => Cursor.follows_more ht ih first.begins ih' rest.begins
  | assign ht hu _ ih => exact fun c => Cursor.follows_assign ht hu ih
  | call ht hu _ hv ih => exact fun c => Cursor.follows_call ht hu ih hv
  | block ht _ hu ih => exact fun c => Cursor.follows_block ht ih hu
  | letIn ht _ hu _ ih ih' => exact fun c => Cursor.follows_letIn ht ih hu ih'
  | ifElse ht _ hu _ hv _ ih ih' ih'' => exact fun c => Cursor.follows_ifElse ht ih hu ih' hv ih''
  | ifNoElse ht _ hu _ hv ih ih' => exact fun c => Cursor.follows_ifNoElse ht ih hu ih' hv
  | whileDo ht _ hu _ ih ih' => exact fun c => Cursor.follows_whileDo ht ih hu ih'
  | repeatUntil ht _ hu _ ih ih' => exact fun c => Cursor.follows_repeatUntil ht ih hu ih'
  | blank ht => exact fun c => Cursor.follows_blank ht
  | loneDeclaration _ ih => exact fun c => Cursor.follows_loneDeclaration ih
  | declarationSequence _ more ih ih' =>
    exact fun c => Cursor.follows_declarationSequence ih ih' more.begins
  | noMoreDeclarations => exact fun c => Cursor.follows_noMoreDeclarations
  | moreDeclarations ht first rest ih ih' =>
    exact fun c => Cursor.follows_moreDeclarations ht ih first.begins ih' rest.begins
  | const ht hu hv _ ih => exact fun c => Cursor.follows_const ht hu hv ih
  | var ht hu => exact fun c => Cursor.follows_var ht hu
  | operand _ ih => exact fun c => Cursor.chainsTo_operand ih
  | binary _ ht _ ih ih' => exact fun c => Cursor.chainsTo_binary ih ht ih'
  | integer ht => exact fun c => Cursor.follows_integer ht
  | character ht => exact fun c => Cursor.follows_character ht
  | name ht => exact fun c => Cursor.follows_name ht
  | apply ht hu _ hv ih => exact fun c => Cursor.follows_apply ht hu ih hv
  | unary ht _ ih => exact fun c => Cursor.follows_unary ht ih
  | bracketed ht _ hu ih => exact fun c => Cursor.follows_bracketed ht ih hu
  | noParameter => exact fun c => Cursor.follows_noParameter
  | value expr ih => exact fun c => Cursor.follows_value ih expr.begins
  | varParameter ht hu => exact fun c => Cursor.follows_varParameter ht hu

end Phrase

end TriLang
