import TriLang.Proofs.FreshIds
import TriLang.Proofs.Leaves
import TriLang.Proofs.Writing

/-!
# Kept tokens

A tree keeps the names, operators and literals that it is read from.  The tokens of a phrase that
are of these kinds are the leaves of its tree, so a reading without faults keeps them all, and a
reading with faults keeps some of them, each at most once and in their order.
-/

namespace TriLang

/-- Whether a token of this kind is a leaf of the tree of its phrase. -/
@[simp] def TokenKind.isKept : TokenKind → Bool
  | identifier | intLiteral | charLiteral | operator => true
  | _ => false

theorem Leaf.isKept_kind_token (x : Leaf) : x.token.kind.isKept := by cases x <;> rfl

/-- The tokens that a tree keeps. -/
def Token.kept (ts : List Token) : List Token := ts.filter (·.kind.isKept)

namespace Token

variable {t : Token} {ts us : List Token}

@[simp] theorem kept_nil : kept [] = [] := rfl

@[simp] theorem kept_append : kept (ts ++ us) = kept ts ++ kept us := List.filter_append ..

@[simp] theorem kept_cons_of_isKept (h : t.kind.isKept) : kept (t :: ts) = t :: kept ts :=
  List.filter_cons_of_pos h

@[simp] theorem kept_cons_of_not_isKept (h : t.kind.isKept = false) : kept (t :: ts) = kept ts :=
  List.filter_cons_of_neg (Bool.eq_false_iff.1 h)

end Token

namespace Phrase

open Token

/-- The leaves of a tree are the tokens kept of its phrase. -/
theorem Derives.map_face_leaves {p : Phrase} {ts : List Token} {t : p.Tree} (h : p.Derives ts t) :
    (p.leaves t).map (face ∘ Leaf.token) = (kept ts).map face := by
  induction h with simp only [leaves, Command.leaves, Decl.leaves, Expr.leaves, Param.leaves,
    Command.leavesOfList, Decl.leavesOfList] at *
  | lone _ ih | loneDeclaration _ ih | operand _ ih | value _ ih => exact ih
  | noMore | noMoreDeclarations | noParameter => rfl
  | sequence _ _ ih ih' | declarationSequence _ _ ih ih' => simp [ih, ih']
  | more semicolon _ _ ih ih' | moreDeclarations semicolon _ _ ih ih' => simp [semicolon, ih, ih']
  | assign name becomes _ ih => simp [name, becomes, ih, Leaf.token, face]
  | call name left _ right ih | apply name left _ right ih =>
    simp [name, left, right, ih, Leaf.token, face]
  | block left _ right ih | bracketed left _ right ih => simp [left, right, ih]
  | letIn kwLet _ kwIn _ ih ih' => simp [kwLet, kwIn, ih, ih']
  | ifElse kwIf _ kwThen _ kwElse _ ih ih' ih'' => simp [kwIf, kwThen, kwElse, ih, ih', ih'']
  | ifNoElse kwIf _ kwThen _ kwNoElse ih ih' => simp [kwIf, kwThen, kwNoElse, ih, ih']
  | whileDo kwWhile _ kwDo _ ih ih' => simp [kwWhile, kwDo, ih, ih']
  | repeatUntil kwRepeat _ kwUntil _ ih ih' => simp [kwRepeat, kwUntil, ih, ih']
  | blank kwNothing => simp [kwNothing]
  | const kwConst name kwIs _ ih => simp [kwConst, name, kwIs, ih, Leaf.token, face]
  | var type name => simp [type, name, Leaf.token, face]
  | binary _ op _ ih ih' => simp [op, ih, ih', Leaf.token, face]
  | integer literal | character literal => simp [literal, Leaf.token, face]
  | name name => simp [name, Leaf.token, face]
  | unary op _ ih => simp [op, ih, Leaf.token, face]
  | varParameter kwVar name => simp [kwVar, name, Leaf.token, face]

theorem Derives.length_leaves {p : Phrase} {ts : List Token} {t : p.Tree} (h : p.Derives ts t) :
    (p.leaves t).length = (kept ts).length := by
  simpa using congrArg List.length h.map_face_leaves

end Phrase

/-! ## Tokens passed -/

namespace Cursor

variable {ts us : List Token} {c d : Cursor}

theorem upTo_eq_of_append (h : c.Leads d) (hp : c.pending = us ++ d.pending) :
    c.upTo d.index = us := by
  obtain ⟨vs, hv, hi, -⟩ := h
  obtain rfl : us = vs := List.append_cancel_right (hp.symm.trans hv)
  have hn : d.index - c.index = us.length := by omega
  rw [upTo, hn, hp, List.take_left]

theorem pending_eq_upTo_append (h : c.Leads d) : c.pending = c.upTo d.index ++ d.pending := by
  obtain ⟨us, hp, -⟩ := id h
  rw [upTo_eq_of_append h hp, hp]

theorem pending_ofTokens_prefix (ts : List Token) : (ofTokens ts).pending <+: ts := by
  unfold ofTokens
  split
  case h_1 => exact List.nil_prefix
  case h_2 last _ =>
    split
    · exact List.dropLast_prefix ts
    · exact List.prefix_rfl

/-- What lies ahead of a cursor is what its index says. -/
theorem Leads.pending_eq_drop (h : (ofTokens ts).Leads c) :
    c.pending = (ofTokens ts).pending.drop c.index := by
  obtain ⟨us, hp, hi, -⟩ := h
  rw [(ofTokens_start ts).1, Nat.zero_add] at hi
  rw [hi, hp, List.drop_left]

theorem upTo_eq_drop_take (hc : (ofTokens ts).Leads c) (hd : c.Leads d) :
    c.upTo d.index = (ts.take d.index).drop c.index := by
  obtain ⟨rest, hrest⟩ := pending_ofTokens_prefix ts
  obtain ⟨us, hp, hi, -⟩ := hc
  rw [(ofTokens_start ts).1, Nat.zero_add] at hi
  obtain ⟨vs, hq, hj, -⟩ := id hd
  have hts : ts = (us ++ vs) ++ (d.pending ++ rest) := by
    rw [← hrest, hp, hq, List.append_assoc, List.append_assoc, List.append_assoc]
  have hlength : d.index = (us ++ vs).length := by rw [hj, hi, List.length_append]
  rw [upTo_eq_of_append hd hq, hlength, hts, List.take_left, hi, List.drop_left]

end Cursor

/-! ## Kept tokens of what is read -/

namespace Cursor

open Token

variable {c d : Cursor}

/-- The leaves of what is read are among the kept tokens of those passed in reading it. -/
theorem Keeps.sublist_kept {xs : List Leaf} (h : c.Keeps d xs) (hl : c.Leads d) :
    (xs.map Leaf.token).Sublist (kept (c.upTo d.index)) := by
  obtain ⟨us, hp, hs⟩ := h
  have hx : kept (xs.map Leaf.token) = xs.map Leaf.token := by
    refine List.filter_eq_self.2 fun t ht => ?_
    obtain ⟨x, -, rfl⟩ := List.mem_map.1 ht
    exact x.isKept_kind_token
  rw [upTo_eq_of_append hl hp, ← hx]
  exact hs.filter _

/-- Nothing is kept of a token that only has to be there. -/
theorem kept_upTo_expect {kind : TokenKind} (hk : kind.isKept = false) :
    kept (c.upTo (c.expect kind).next.index) = [] := by
  unfold expect
  split
  case isTrue h =>
    rcases hp : c.pending with _ | ⟨t, ts⟩
    · simp [upTo, hp]
    · rw [current_of_pending hp] at h
      have hone : c.upTo c.stepOver.index = [t] := by
        rw [stepOver_of_pending hp]
        simp [upTo, hp, past]
      show kept (c.upTo c.stepOver.index) = []
      rw [hone, kept_cons_of_not_isKept (by rw [h, hk]), kept_nil]
  case isFalse =>
    show kept (c.upTo c.index) = []
    rw [upTo_index, kept_nil]

theorem singleCommand_leaves_sublist (c : Cursor) :
    (c.singleCommand.node.leaves.map Leaf.token).Sublist
      (kept (c.upTo c.singleCommand.next.index)) :=
  (singleCommand_outcome c).keeps.sublist_kept c.singleCommand.leads

/-- Nothing is lost without a fault: there are as many leaves as kept tokens. -/
theorem singleCommand_leaves_eq (h : c.singleCommand.faults = []) :
    c.singleCommand.node.leaves.map Leaf.token = kept (c.upTo c.singleCommand.next.index) := by
  have hd := ((singleCommand_conforms c).whole h).length_leaves
  exact c.singleCommand_leaves_sublist.eq_of_length (by rw [List.length_map]; exact hd)

/-- The leaves of a program and the tokens passed in reading it. -/
theorem program_leaves (c : Cursor) :
    let leaves := c.program.node.command.leaves.map Leaf.token
    let passed := c.upTo c.program.next.index
    leaves.Sublist (kept passed) ∧ (c.program.faults = [] → leaves = kept passed) := by
  intro leaves passed
  have hend : c.singleCommand.next.index ≤ c.program.next.index :=
    (c.singleCommand.next.expect .endOfText).leads.index_le
  -- Behind the command an end of text is passed at most, which is not kept.
  have hpassed : kept passed = kept (c.upTo c.singleCommand.next.index) := by
    have hexpect : kept (c.singleCommand.next.upTo c.program.next.index) = [] :=
      kept_upTo_expect rfl
    have hsplit : passed = _ := upTo_eq_append c.singleCommand.leads hend
    rw [hsplit, kept_append, hexpect, List.append_nil]
  rw [hpassed]
  refine ⟨c.singleCommand_leaves_sublist, fun h => ?_⟩
  rw [program_faults, List.append_eq_nil_iff] at h
  exact singleCommand_leaves_eq h.1

end Cursor

/-- A program that is read without a fault keeps all that can be kept. -/
theorem Program.map_token_leaves {ts : List Token} (h : EndsOnce ts)
    (hf : (ofTokens ts).faults = []) :
    (ofTokens ts).node.command.leaves.map Leaf.token = Token.kept ts := by
  obtain ⟨us, e, rfl, he, hu, hc⟩ := h.exists_ofTokens
  unfold ofTokens at hf ⊢
  rw [hc] at hf ⊢
  obtain ⟨hf, hn⟩ := (Cursor.program_faults_eq_nil hu).1 hf
  have hpassed := Cursor.pending_eq_upTo_append (Cursor.singleCommand ⟨us, e.span, 0, 0, 0⟩).leads
  rw [hn, List.append_nil] at hpassed
  rw [Token.kept_append, Token.kept_cons_of_not_isKept (by rw [he]; rfl), Token.kept_nil,
    List.append_nil]
  exact (Cursor.singleCommand_leaves_eq hf).trans (congrArg Token.kept hpassed.symm)

/-- The program read behind `n` others from the tokens `ts` has as its leaves some of the names,
operators and literals passed in reading it, each once at most and in their order, and all of them
if there is no error. -/
theorem Program.leaves_kept (ts : List Token) (n : Nat) :
    let c := (Cursor.ofTokens ts).afterPrograms n
    let r := c.program
    let leaves := r.node.command.leaves.map Leaf.token
    let passed := (ts.take r.next.index).drop c.index
    c.pending = passed ++ r.next.pending ∧ leaves.Sublist (Token.kept passed) ∧
      (r.errors = [] → leaves = Token.kept passed) := by
  intro c r leaves passed
  have hc : (Cursor.ofTokens ts).Leads c := (Cursor.ofTokens ts).leads_afterPrograms n
  have hpassed : c.upTo r.next.index = passed := Cursor.upTo_eq_drop_take hc r.leads
  obtain ⟨hsub, hall⟩ := c.program_leaves
  rw [hpassed] at hsub hall
  refine ⟨?_, hsub, fun h => hall (List.map_eq_nil_iff.1 h)⟩
  rw [← hpassed]
  exact Cursor.pending_eq_upTo_append r.leads

/-- A program without errors loses nothing.  A first branch that nothing ends loses all of its
names and literals. -/
theorem Program.leaves_kept_negative :
    let ts := (Tokens.ofSource "let const n ~ -1 in putint(n)").toList
    let us := (Tokens.ofSource "if n then x := 1").toList
    (ofTokens ts).errors = [] ∧
      (ofTokens ts).node.command.leaves.map Leaf.token =
        Token.kept (ts.take (ofTokens ts).next.index) ∧
      (Token.kept ts).map Token.spelling = ["n", "-", "1", "putint", "n"] ∧
      (ofTokens us).errors.length = 1 ∧ (ofTokens us).node.command.leaves = [] ∧
      (Token.kept us).map Token.spelling = ["n", "x", "1"] := by
  intro ts us
  have h : (ofTokens ts).errors = [] := by decide +kernel
  have hzero : ((Cursor.ofTokens ts).afterPrograms 0).index = 0 := (Cursor.ofTokens_start ts).1
  have hall := (leaves_kept ts 0).2.2 h
  rw [hzero, List.drop_zero] at hall
  exact ⟨h, hall, by decide +kernel, by decide +kernel, by decide +kernel, by decide +kernel⟩

end TriLang
