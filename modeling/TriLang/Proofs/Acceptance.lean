import TriLang.Proofs.Following
import TriLang.Proofs.Reading

/-!
# Acceptance

A list of tokens that ends with its only end of text is read without a fault just when it is a
program, and is read to the tree of the program.  Where it is none, the first fault is raised at the
first token that no program has in its place, or at a semicolon in front of that token.
-/

namespace TriLang

open Phrase

theorem Read.Conforms.of_read_all {α : Type} {c : Cursor} {L : List Token → α → Prop} {r : Read α c}
    (h : r.Conforms L) (hf : r.faults = []) (hn : r.next.pending = []) : L c.pending r.node := by
  have hi : r.next.index = c.index + c.pending.length := r.leads.index_eq (by simp [hn])
  simpa [Cursor.upTo, hi] using h.whole hf

namespace Cursor

variable {c : Cursor}

theorem ofTokens_concat (us : List Token) {e : Token} (he : e.kind = .endOfText) :
    ofTokens (us ++ [e]) = ⟨us, e.span, 0, 0, 0⟩ := by
  simp [ofTokens, he]

theorem expect_faults_eq_nil {kind : TokenKind} :
    (c.expect kind).faults = [] ↔ c.current.kind = kind := by
  unfold expect
  split <;> simp_all [refuse]

theorem index_of_mem_expect_faults {kind : TokenKind} {f : Fault}
    (hf : f ∈ (c.expect kind).faults) : f.index = c.index := by
  unfold expect at hf
  split at hf
  · simp at hf
  · obtain rfl : f = _ := by simpa [refuse] using hf
    rfl

theorem program_faults (c : Cursor) : c.program.faults =
    c.singleCommand.faults ++ (c.singleCommand.next.expect .endOfText).faults := by
  simp [program, Read.andThen, Read.done]

/-- In front of no other end of text, a program without faults is a command with nothing behind. -/
theorem program_faults_eq_nil (hc : ∀ t ∈ c.pending, t.kind ≠ .endOfText) :
    c.program.faults = [] ↔ c.singleCommand.faults = [] ∧ c.singleCommand.next.pending = [] := by
  rw [program_faults, List.append_eq_nil_iff, expect_faults_eq_nil, current_kind]
  refine and_congr_right fun _ => ?_
  obtain ⟨us, hp, -⟩ := c.singleCommand.leads
  rcases hn : c.singleCommand.next.pending with _ | ⟨t, ts⟩
  · simp [nextKind]
  · simpa using hc t (by simp [hp, hn])

/-- The tokens before the first fault of a program begin a command. -/
theorem program_completable (c : Cursor) : ∀ f ∈ c.program.faults.head?,
    ∃ ts a, Derives .singleCommand (c.upTo f.index ++ ts) a := by
  intro f hf
  rw [program_faults] at hf
  rcases hs : c.singleCommand.faults with _ | ⟨g, gs⟩
  · rw [hs, List.nil_append] at hf
    rw [index_of_mem_expect_faults (List.mem_of_mem_head? hf)]
    exact ⟨[], _, by simpa using (singleCommand_conforms c).whole hs⟩
  · rw [hs, List.cons_append, List.head?_cons] at hf
    exact (singleCommand_conforms c).completable f (by rwa [hs, List.head?_cons])

/-- All that is read lies in front of the first fault of a program. -/
theorem program_passes_of_singleCommand {n : Nat} (h : c.singleCommand.Passes n) :
    ∀ f ∈ c.program.faults, n ≤ f.index := by
  intro f hf
  rw [program_faults] at hf
  rcases List.mem_append.1 hf with hf | hf
  · exact h.faults f hf
  · rw [index_of_mem_expect_faults hf]
    exact h.stop

end Cursor

/-! ## Programs -/

theorem EndsOnce.exists_ofTokens {ts : List Token} (h : EndsOnce ts) :
    ∃ us e, ts = us ++ [e] ∧ e.kind = .endOfText ∧ (∀ t ∈ us, t.kind ≠ .endOfText) ∧
      Cursor.ofTokens ts = ⟨us, e.span, 0, 0, 0⟩ := by
  obtain ⟨us, e, rfl, he, hu⟩ := h
  exact ⟨us, e, rfl, he, hu, Cursor.ofTokens_concat us he⟩

/-- Whether tokens are a program is a matter of their kinds. -/
theorem IsProgram.of_sentence {ts : List Token} (h : Sentence (ts.map Token.kind)) :
    ∃ c, IsProgram ts c := by
  obtain ⟨us, c, hk, vs, e, rfl, hd, he⟩ := h
  obtain ⟨ws, x, rfl, hw, hx⟩ : ∃ ws x, ts = ws ++ [x] ∧ ws.map Token.kind = vs.map Token.kind ∧
      x.kind = e.kind := by
    rw [List.map_append, eq_comm, List.map_eq_append_iff] at hk
    obtain ⟨ws, xs, rfl, hw, hxs⟩ := hk
    obtain ⟨x, _, rfl, hx, hn⟩ := List.map_eq_cons_iff.1 hxs
    obtain rfl := List.map_eq_nil_iff.1 hn
    exact ⟨ws, x, rfl, hw, hx⟩
  obtain ⟨d, hd⟩ := hd.respell ws hw
  exact ⟨d, ws, x, rfl, hd, hx.trans he⟩

theorem IsProgram.sentence {ts : List Token} {c : Command} (h : IsProgram ts c) :
    Sentence (ts.map Token.kind) := ⟨ts, c, rfl, h⟩

/-- A sentence is a single command in front of an end of text. -/
theorem Sentence.exists_derives {ks : List TokenKind} (h : Sentence ks) :
    ∃ us c, Derives singleCommand us c ∧ ks = us.map Token.kind ++ [.endOfText] := by
  obtain ⟨_, c, rfl, us, e, rfl, hd, he⟩ := h
  exact ⟨us, c, hd, by simp [he]⟩

namespace ViablePrefix

variable {us : List Token}

/-- Of a viable prefix without the end of text, a command can be made. -/
theorem exists_derives (h : ViablePrefix us) (hu : ∀ t ∈ us, t.kind ≠ .endOfText) :
    ∃ vs c, Derives singleCommand (us ++ vs) c := by
  obtain ⟨ks, hs⟩ := h
  obtain ⟨ws, c, hd, hk⟩ := hs.exists_derives
  rcases List.eq_nil_or_concat ks with rfl | ⟨js, k, rfl⟩
  · have he : .endOfText ∈ us.map Token.kind := by simp [List.append_nil _ ▸ hk]
    obtain ⟨t, ht, he⟩ := List.mem_map.1 he
    exact absurd he (hu t ht)
  · rw [List.concat_eq_append, ← List.append_assoc] at hk
    obtain ⟨hk, -⟩ := List.append_inj' hk rfl
    obtain ⟨vs, xs, rfl, hv, -⟩ := List.map_eq_append_iff.1 hk.symm
    obtain ⟨d, hd⟩ := hd.respell (us ++ xs) (by simp [hv])
    exact ⟨xs, d, hd⟩

/-- A viable prefix with the end of text is a program. -/
theorem exists_isProgram {e : Token} (h : ViablePrefix (us ++ [e])) (he : e.kind = .endOfText) :
    ∃ c, IsProgram (us ++ [e]) c := by
  obtain ⟨ks, hs⟩ := h
  obtain ⟨ws, c, hd, hk⟩ := hs.exists_derives
  rcases List.eq_nil_or_concat ks with rfl | ⟨js, k, rfl⟩
  · exact IsProgram.of_sentence (by simpa using hs)
  · rw [List.concat_eq_append, ← List.append_assoc] at hk
    obtain ⟨hk, -⟩ := List.append_inj' hk rfl
    have hm : .endOfText ∈ ws.map Token.kind := by simp [← hk, he]
    obtain ⟨t, ht, he⟩ := List.mem_map.1 hm
    exact absurd he (hd.kind_ne_endOfText t ht)

end ViablePrefix

namespace Program

variable {ts : List Token}

theorem ofTokens_errors_eq_nil : (ofTokens ts).errors = [] ↔ (ofTokens ts).faults = [] :=
  List.map_eq_nil_iff

/-- What is read without a fault is a program, and its tree is the one given. -/
theorem isProgram_of_faults_eq_nil (h : EndsOnce ts) (hf : (ofTokens ts).faults = []) :
    IsProgram ts (ofTokens ts).node.command := by
  obtain ⟨us, e, rfl, he, hu, hc⟩ := h.exists_ofTokens
  unfold ofTokens at hf ⊢
  rw [hc] at hf ⊢
  obtain ⟨hf, hn⟩ := (Cursor.program_faults_eq_nil hu).1 hf
  exact ⟨us, e, rfl, (Cursor.singleCommand_conforms _).of_read_all hf hn, he⟩

/-- A program is read without a fault to its tree. -/
theorem ofTokens_of_isProgram (h : EndsOnce ts) {c : Command} (hc : IsProgram ts c) :
    (ofTokens ts).faults = [] ∧ (ofTokens ts).node.command.shape = c.shape := by
  obtain ⟨us, e, rfl, he, hu, ho⟩ := h.exists_ofTokens
  obtain ⟨vs, x, hv, hd, -⟩ := hc
  obtain ⟨rfl, -⟩ := List.append_inj' hv rfl
  unfold ofTokens
  rw [ho]
  obtain ⟨hf, hn, hs⟩ := (hd.followed _).whole (c := ⟨us, e.span, 0, 0, 0⟩) [] (by simp)
    (by simp [StopsAt, nextKind])
  exact ⟨(Cursor.program_faults_eq_nil hu).2 ⟨hf, hn⟩, hs⟩

/-- The reading of programs accepts the grammar, and builds the trees that the grammar assigns. -/
theorem ofTokens_accepts (h : EndsOnce ts) :
    ((ofTokens ts).errors = [] ↔ Sentence (ts.map Token.kind)) ∧
      ((ofTokens ts).errors = [] → IsProgram ts (ofTokens ts).node.command) ∧
      ∀ c, IsProgram ts c →
        (ofTokens ts).errors = [] ∧ (ofTokens ts).node.command.shape = c.shape := by
  simp only [ofTokens_errors_eq_nil]
  refine ⟨⟨fun hf => ?_, fun hs => ?_⟩, isProgram_of_faults_eq_nil h, fun c =>
    ofTokens_of_isProgram h⟩
  · exact (isProgram_of_faults_eq_nil h hf).sentence
  · obtain ⟨c, hc⟩ := IsProgram.of_sentence hs
    exact (ofTokens_of_isProgram h hc).1

/-- The tokens of `begin x := a - -b - c end`. -/
def differences : List Token :=
  [⟨.kwBegin, "begin", ⟨0, 5⟩⟩, ⟨.identifier, "x", ⟨6, 7⟩⟩, ⟨.becomes, ":=", ⟨8, 10⟩⟩,
    ⟨.identifier, "a", ⟨11, 12⟩⟩, ⟨.operator, "-", ⟨13, 14⟩⟩, ⟨.operator, "-", ⟨15, 16⟩⟩,
    ⟨.identifier, "b", ⟨16, 17⟩⟩, ⟨.operator, "-", ⟨18, 19⟩⟩, ⟨.identifier, "c", ⟨20, 21⟩⟩,
    ⟨.kwEnd, "end", ⟨22, 25⟩⟩, ⟨.endOfText, "", ⟨25, 25⟩⟩]

/-- The block leaves no node, the differences are taken from the left, and the prefix operator is
applied to the name behind it alone. -/
theorem ofTokens_accepts_differences :
    let occurrence (name : String) : Occurrence := ⟨0, name, .empty 0⟩
    let a : Expr := .name (.empty 0) (occurrence "a")
    let b : Expr := .unary (.empty 0) (occurrence "-") (.name (.empty 0) (occurrence "b"))
    let c : Expr := .name (.empty 0) (occurrence "c")
    let difference (l r : Expr) : Expr := .binary (.empty 0) l (occurrence "-") r
    EndsOnce differences ∧ (ofTokens differences).errors = [] ∧
      (ofTokens differences).node.command.shape =
        .assign (.empty 0) (occurrence "x") (difference (difference a b) c) := by
  intro occurrence a b c difference
  have h : EndsOnce differences := ⟨differences.dropLast, _, rfl, rfl, by decide⟩
  have ha : Derives .expression [⟨.identifier, "a", ⟨11, 12⟩⟩] a := .operand (.name rfl)
  have hb := ha.binary (t := ⟨.operator, "-", ⟨13, 14⟩⟩) (s := .empty 0) (i := 0) (m := .empty 0)
    rfl (.unary (t := ⟨.operator, "-", ⟨15, 16⟩⟩) (s := .empty 0) (i := 0) (m := .empty 0) rfl
      (.name (t := ⟨.identifier, "b", ⟨16, 17⟩⟩) (s := .empty 0) (i := 0) (m := .empty 0) rfl))
  have hc := hb.binary (t := ⟨.operator, "-", ⟨18, 19⟩⟩) (s := .empty 0) (i := 0) (m := .empty 0)
    rfl (.name (t := ⟨.identifier, "c", ⟨20, 21⟩⟩) (s := .empty 0) (i := 0) (m := .empty 0) rfl)
  have hx := Derives.assign (t := ⟨.identifier, "x", ⟨6, 7⟩⟩) (u := ⟨.becomes, ":=", ⟨8, 10⟩⟩)
    (s := .empty 0) (i := 0) (m := .empty 0) rfl rfl hc
  have hd := Derives.block (t := ⟨.kwBegin, "begin", ⟨0, 5⟩⟩) (u := ⟨.kwEnd, "end", ⟨22, 25⟩⟩) rfl
    (.lone hx) rfl
  have hp : IsProgram differences _ := ⟨_, ⟨.endOfText, "", ⟨25, 25⟩⟩, rfl, hd, rfl⟩
  exact ⟨h, (ofTokens_accepts h).2.2 _ hp⟩

/-! ## The first fault -/

/-- A fault is raised at the token that stands at its index. -/
theorem exists_token_at_index (h : EndsOnce ts) {f : Fault} (hf : f ∈ (ofTokens ts).faults) :
    ∃ t, ts[f.index]? = some t ∧ f.error.found.kind = t.kind ∧ f.error.span = t.span := by
  obtain ⟨us, e, rfl, he, hu, ho⟩ := h.exists_ofTokens
  obtain ⟨d, ⟨vs, hp, hi, hc⟩, -, hfi, hfd⟩ := (ofTokens _).raised f hf
  rw [ho] at hp hi hc
  obtain rfl : us = vs ++ d.pending := hp
  rw [hfi, hi, SyntaxError.span, hfd, Cursor.current]
  rcases d.pending with _ | ⟨t, ws⟩
  · exact ⟨e, by simp, by simp [he], hc⟩
  · exact ⟨t, by simp, rfl, rfl⟩

/-- What a fault meets is a token, unless it meets the end of the text. -/
theorem found_mem (h : EndsOnce ts) {f : Fault} (hf : f ∈ (ofTokens ts).faults)
    (hk : f.error.found.kind ≠ .endOfText) : f.error.found ∈ ts := by
  obtain ⟨us, e, rfl, he, hu, ho⟩ := h.exists_ofTokens
  obtain ⟨d, ⟨vs, hp, -, -⟩, -, -, hfd⟩ := (ofTokens _).raised f hf
  rw [ho] at hp
  obtain rfl : us = vs ++ d.pending := hp
  rw [hfd, Cursor.current] at hk ⊢
  cases hd : d.pending with
  | nil => simp [hd] at hk
  | cons t ws => simp

theorem index_lt_length (h : EndsOnce ts) {f : Fault} (hf : f ∈ (ofTokens ts).faults) :
    f.index < ts.length := by
  obtain ⟨t, ht, -⟩ := exists_token_at_index h hf
  exact (List.getElem?_eq_some_iff.1 ht).1

/-- The tokens before the first fault can be completed. -/
theorem viablePrefix_take_index (h : EndsOnce ts) {f : Fault}
    (hf : (ofTokens ts).faults.head? = some f) : ViablePrefix (ts.take f.index) := by
  obtain ⟨us, e, rfl, he, hu, ho⟩ := h.exists_ofTokens
  have hl : f.index ≤ us.length := by
    simpa [Nat.lt_succ_iff] using index_lt_length h (List.mem_of_mem_head? hf)
  unfold ofTokens at hf
  rw [ho] at hf
  obtain ⟨vs, c, hd⟩ := Cursor.program_completable _ f hf
  rw [List.take_append_of_le_length hl]
  exact ⟨vs.map Token.kind ++ [e.kind], us.take f.index ++ vs ++ [e], c, by simp,
    _, e, rfl, hd, he⟩

/-- A fault is raised behind the settled tokens of every viable prefix, and no viable prefix takes
in the end of text. -/
theorem settled_le_index (h : EndsOnce ts) {f : Fault} (hf : f ∈ (ofTokens ts).faults) {m : Nat}
    (hv : ViablePrefix (ts.take m)) : m < ts.length ∧ settled (ts.take m) ≤ f.index := by
  obtain ⟨us, e, rfl, he, hu, ho⟩ := h.exists_ofTokens
  -- A prefix that takes in the end of text is a program, and programs have no faults.
  rcases Nat.lt_or_ge us.length m with hm | hm
  · rw [List.take_of_length_le (by simpa using Nat.succ_le_of_lt hm)] at hv
    obtain ⟨c, hc⟩ := hv.exists_isProgram he
    simp [(ofTokens_of_isProgram h hc).1] at hf
  · rw [List.take_append_of_le_length hm] at hv ⊢
    obtain ⟨vs, c, hd⟩ := hv.exists_derives fun t ht => hu t (List.mem_of_mem_take ht)
    have hp := (hd.followed ⟨us, e.span, 0, 0, 0⟩).part _ vs (us.drop m) rfl
      (List.take_append_drop m us).symm
    unfold ofTokens at hf
    rw [ho] at hf
    exact ⟨by simp; omega, by simpa using Cursor.program_passes_of_singleCommand hp f hf⟩

/-- The first fault is raised at the first token that does not continue a viable prefix, or at a
semicolon in front of that token. -/
theorem ofTokens_first_fault (h : EndsOnce ts) {f : Fault}
    (hf : (ofTokens ts).faults.head? = some f) :
    ∃ t, ts[f.index]? = some t ∧ f.error.found.kind = t.kind ∧ f.error.span = t.span ∧
      ViablePrefix (ts.take f.index) ∧ ¬ViablePrefix (ts.take (f.index + 2)) ∧
      (t.kind ≠ .semicolon → ¬ViablePrefix (ts.take (f.index + 1))) := by
  have hm := List.mem_of_mem_head? hf
  obtain ⟨t, ht, hk, hs⟩ := exists_token_at_index h hm
  refine ⟨t, ht, hk, hs, viablePrefix_take_index h hf, fun hv => ?_, fun hn hv => ?_⟩
  · obtain ⟨hl, hi⟩ := settled_le_index h hm hv
    have := length_le_settled (ts.take (f.index + 2))
    rw [List.length_take] at this
    omega
  · obtain ⟨hl, hi⟩ := settled_le_index h hm hv
    rw [List.take_add_one, ht, Option.toList_some, settled_concat _ hn, List.length_take] at hi
    omega

/-- The tokens of `begin x := 1; end`. -/
def semicolonBeforeEnd : List Token :=
  [⟨.kwBegin, "begin", ⟨0, 5⟩⟩, ⟨.identifier, "x", ⟨6, 7⟩⟩, ⟨.becomes, ":=", ⟨8, 10⟩⟩,
    ⟨.intLiteral, "1", ⟨11, 12⟩⟩, ⟨.semicolon, ";", ⟨12, 13⟩⟩, ⟨.kwEnd, "end", ⟨14, 17⟩⟩,
    ⟨.endOfText, "", ⟨17, 17⟩⟩]

/-- The semicolon is where the fault is raised, though a command may follow it. -/
theorem ofTokens_first_fault_semicolonBeforeEnd :
    EndsOnce semicolonBeforeEnd ∧
      (ofTokens semicolonBeforeEnd).faults.head?.map Fault.index = some 4 ∧
      ViablePrefix (semicolonBeforeEnd.take 4) ∧ ¬ViablePrefix (semicolonBeforeEnd.take 6) := by
  have h : EndsOnce semicolonBeforeEnd := ⟨semicolonBeforeEnd.dropLast, _, rfl, rfl, by decide⟩
  have hf : (ofTokens semicolonBeforeEnd).faults.head? =
      some ⟨4, .token .kwEnd, ⟨.semicolon, ";", ⟨12, 13⟩⟩⟩ := by decide +kernel
  obtain ⟨-, -, -, -, hv, hn, -⟩ := ofTokens_first_fault h hf
  exact ⟨h, by rw [hf]; rfl, hv, hn⟩

end Program

end TriLang
