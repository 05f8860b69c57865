import Mathlib.Data.List.TakeWhile
import Mathlib.Data.String.Basic
import TriLang.Token.Scan

/-!
# Nothing is lost between tokens

The tokens of a source text stand in it one behind the other, each spelled as the text is in its
place.  Between them lie blanks and comments.
-/

namespace TriLang

/-! ## Places in a text -/

theorem utf8Length_eq_utf8Len (cs : List Char) : utf8Length cs = String.utf8Len cs := by
  induction cs with
  | nil => rfl
  | cons c cs ih => rw [utf8Length_cons, String.utf8Len_cons, ih, Nat.add_comm]

theorem utf8Length_append (cs ds : List Char) :
    utf8Length (cs ++ ds) = utf8Length cs + utf8Length ds := by
  simp only [utf8Length_eq_utf8Len, String.utf8Len_append]

theorem utf8Length_toList (s : String) : utf8Length s.toList = s.utf8ByteSize := by
  rw [utf8Length_eq_utf8Len, String.utf8Len_toList]

theorem utf8Length_pos {cs : List Char} (h : cs ≠ []) : 0 < utf8Length cs := by
  obtain ⟨c, cs, rfl⟩ := List.exists_cons_of_ne_nil h
  rw [utf8Length_cons]
  exact Nat.add_pos_left c.utf8Size_pos _

namespace Span

/-- The text of `source` at `s`. -/
def text (s : Span) (source : String) : String :=
  String.Pos.Raw.extract source ⟨s.start⟩ ⟨s.stop⟩

/-- No end of `s` cuts a character of `source`. -/
def OnBoundaries (s : Span) (source : String) : Prop :=
  String.Pos.Raw.IsValid source ⟨s.start⟩ ∧ String.Pos.Raw.IsValid source ⟨s.stop⟩

/-- The place of `piece` behind `before`. -/
def place (before piece : List Char) : Span := ⟨utf8Length before, utf8Length (before ++ piece)⟩

variable {source : String} {before piece rest : List Char}

theorem text_place (h : source.toList = before ++ (piece ++ rest)) :
    (place before piece).text source = String.ofList piece := by
  rw [← List.append_assoc] at h
  rw [text, place, utf8Length_append, ← String.ofList_toList (s := source), h]
  simp only [utf8Length_eq_utf8Len]
  exact String.extract_of_valid before piece rest

theorem isValid_utf8Length (h : source.toList = before ++ rest) :
    String.Pos.Raw.IsValid source ⟨utf8Length before⟩ := by
  refine String.Pos.Raw.isValid_iff_exists_append.2
    ⟨String.ofList before, String.ofList rest, ?_, ?_⟩
  · rw [← String.ofList_append, ← h, String.ofList_toList]
  · rw [utf8Length_eq_utf8Len, String.rawEndPos_ofList]

theorem onBoundaries_place (h : source.toList = before ++ (piece ++ rest)) :
    (place before piece).OnBoundaries source :=
  ⟨isValid_utf8Length h, isValid_utf8Length (by rw [h, List.append_assoc])⟩

theorem place_start_lt_stop (before : List Char) (h : piece ≠ []) :
    (place before piece).start < (place before piece).stop := by
  rw [place, utf8Length_append]
  exact Nat.lt_add_of_pos_right (utf8Length_pos h)

end Span

/-! ## Separators -/

/-- `gap` is made of blanks and comments, where the text behind it is `rest`. -/
inductive Separates : List Char → List Char → Prop
  | nothing {rest} : Separates [] rest
  | blank {c gap rest} (h : c ∈ [' ', '\t', '\r', '\n']) (more : Separates gap rest) :
      Separates (c :: gap) rest
  /-- A comment goes up to a newline or the end of the text. -/
  | comment {body gap rest} (h : '\n' ∉ body) (ends : ∀ c ∈ (gap ++ rest).head?, c = '\n')
      (more : Separates gap rest) : Separates ('!' :: (body ++ gap)) rest

theorem Separates.append {sep gap rest cs : List Char} (h : Separates sep cs)
    (hc : cs = gap ++ rest) (hg : Separates gap rest) : Separates (sep ++ gap) rest := by
  induction h with
  | nothing => exact hg
  | blank hb _ ih => exact .blank hb (ih hc)
  | comment hb ends _ ih =>
    rw [List.cons_append, List.append_assoc]
    refine .comment hb ?_ (ih hc)
    rwa [List.append_assoc, ← hc]

/-- From the end of `a` to the start of `b`, there are only blanks and comments in `source`. -/
def Span.Apart (source : String) (a b : Span) : Prop :=
  Separates (Span.text ⟨a.stop, b.start⟩ source).toList
    (Span.text ⟨b.start, source.utf8ByteSize⟩ source).toList

theorem Span.apart {source : String} {before gap rest : List Char} {a b : Span}
    (h : source.toList = before ++ (gap ++ rest)) (ha : a.stop = utf8Length before)
    (hb : b.start = utf8Length (before ++ gap)) (hg : Separates gap rest) : Apart source a b := by
  have hend : source.utf8ByteSize = utf8Length (before ++ gap ++ rest) := by
    rw [← utf8Length_toList, h, List.append_assoc]
  have hr : source.toList = (before ++ gap) ++ (rest ++ []) := by simp [h]
  have hgap : text ⟨a.stop, b.start⟩ source = String.ofList gap := by
    rw [ha, hb]
    exact text_place h
  have hrest : text ⟨b.start, source.utf8ByteSize⟩ source = String.ofList rest := by
    rw [hb, hend]
    exact text_place hr
  rwa [Apart, hgap, hrest, String.toList_ofList, String.toList_ofList]

namespace Scan

theorem separates_blank {c : Char} (h : isBlank c) (rest : List Char) : Separates [c] rest :=
  .blank (by simpa [isBlank, or_assoc] using h) .nothing

theorem take_length_takeWhile (p : Char → Bool) (cs : List Char) :
    cs.take (cs.takeWhile p).length = cs.takeWhile p :=
  (List.prefix_iff_eq_take.1 (List.takeWhile_prefix p)).symm

/-- What follows the longest run of `p` does not begin with `p`. -/
theorem head?_drop_takeWhile (p : Char → Bool) (cs : List Char) :
    ∀ c ∈ (cs.drop (cs.takeWhile p).length).head?, ¬p c := by
  induction cs with
  | nil => simp
  | cons c cs ih =>
    rw [List.takeWhile_cons]
    split
    · exact ih
    · simpa using ‹¬p c›

theorem separates_comment (rest : List Char) {n : Nat}
    (hn : n = (rest.takeWhile (· != '\n')).length) :
    Separates ('!' :: rest.take n) (rest.drop n) := by
  subst hn
  rw [take_length_takeWhile, ← List.append_nil (rest.takeWhile _)]
  refine .comment (fun h => ?_) (fun c hc => ?_) .nothing
  · simpa using List.mem_takeWhile_imp h
  · simpa using head?_drop_takeWhile (· != '\n') rest c (by simpa using hc)

end Scan

/-! ## Lexemes -/

/-- The kinds of the tokens of the language, the end of text aside. -/
def TokenKind.Proper (kind : TokenKind) : Prop := kind ≠ .endOfText ∧ kind ≠ .error

instance : DecidablePred TokenKind.Proper := fun kind =>
  inferInstanceAs (Decidable (kind ≠ .endOfText ∧ kind ≠ .error))

namespace Scan

theorem keyword_proper {spelling : String} {kind : TokenKind}
    (h : TokenKind.keyword? spelling = some kind) : kind.Proper := by
  obtain ⟨us, vs, hk, -⟩ := List.lookup_eq_some_iff.1 h
  have hm : (spelling, kind) ∈ TokenKind.keywords := by rw [hk]; simp
  have hn : ∀ p ∈ TokenKind.keywords, p.2.Proper := by decide
  exact hn _ hm

theorem word_proper {spelling : List Char} {kind : TokenKind} (h : word spelling = .ok kind) :
    kind.Proper := by
  unfold word at h
  split at h
  case h_1 hk =>
    cases h
    exact keyword_proper hk
  case h_2 =>
    split at h
    · cases h
    · cases h
      decide

theorem quoted_proper {rest : List Char} {kind : TokenKind} (h : (quoted rest).1 = .ok kind) :
    kind.Proper := by
  unfold quoted at h
  split at h <;> cases h
  decide

theorem curly_proper {rest : List Char} {kind : TokenKind} (h : (curly rest).1 = .ok kind) :
    kind.Proper := by
  unfold curly at h
  dsimp only at h
  split at h <;> cases h
  decide

theorem punctuation_proper {c : Char} {kind : TokenKind} (h : punctuation? c = some kind) :
    kind.Proper := by
  unfold punctuation? at h
  split at h <;> cases h <;> decide

/-- No token of the language is an end of text or an error. -/
theorem first_proper {c : Char} {rest : List Char} {kind : TokenKind}
    (h : (first c rest).1 = .ok kind) : kind.Proper := by
  unfold first at h
  split at h
  · exact word_proper h
  split at h
  · cases h
    decide
  split at h
  · cases h
    decide
  split at h
  · exact quoted_proper h
  split at h
  · exact curly_proper h
  split at h
  · cases h
    decide
  split at h
  · split at h <;> cases h <;> decide
  · split at h
    case h_1 hk =>
      cases h
      exact punctuation_proper hk
    case h_2 => cases h

end Scan

namespace Lexeme

/-- Any token that `x` is has one of the kinds of the language. -/
def Proper (x : Lexeme) : Prop := ∀ kind, x.verdict = .ok kind → kind.Proper

@[simp] theorem token_span (x : Lexeme) : x.token.span = x.span := by
  unfold token
  split <;> rfl

@[simp] theorem token_spelling (x : Lexeme) : x.token.spelling = x.spelling := by
  unfold token
  split <;> rfl

theorem Proper.token_kind_ne_endOfText {x : Lexeme} (h : x.Proper) : x.token.kind ≠ .endOfText := by
  unfold token
  split
  case h_1 kind hk => exact (h kind hk).1
  case h_2 => simp

end Lexeme

/-- The errors of lexemes are those of their error tokens, in order. -/
theorem Scan.errors_eq {xs : List Lexeme} (h : ∀ x ∈ xs, x.Proper) :
    (xs.filterMap Lexeme.error?).map (fun e => (e.spelling, e.span)) =
      ((xs.map Lexeme.token).filter (·.kind = .error)).map fun t => (t.spelling, t.span) := by
  induction xs with
  | nil => rfl
  | cons x xs ih =>
    have ih := ih fun y hy => h y (List.mem_cons_of_mem x hy)
    rw [List.filterMap_cons, List.map_cons, List.filter_cons]
    rcases hv : x.verdict with fault | kind
    · simp [Lexeme.error?, Lexeme.token, hv, ih]
    · simp [Lexeme.error?, Lexeme.token, hv, ih, (h x (List.mem_cons_self ..) kind hv).2]

/-! ## Layouts -/

/-- `t` is spelled, by at least one character, as `source` is in its place. -/
def Token.StandsIn (t : Token) (source : String) : Prop :=
  t.span.start < t.span.stop ∧ t.span.OnBoundaries source ∧ t.spelling = t.span.text source

namespace Scan

/-- The lexemes `xs` are what `source` is cut into behind `before`. -/
inductive Layout (source : String) : List Char → List Lexeme → Prop
  | done {before gap} (h : source.toList = before ++ gap) (hg : Separates gap []) :
      Layout source before []
  | lexeme {before gap piece rest x xs} (h : source.toList = before ++ (gap ++ (piece ++ rest)))
      (hg : Separates gap (piece ++ rest)) (hp : piece ≠ []) (hx : x.Proper)
      (hspelling : x.spelling = String.ofList piece) (hspan : x.span = .place (before ++ gap) piece)
      (more : Layout source (before ++ gap ++ piece) xs) : Layout source before (x :: xs)

variable {source : String} {before : List Char} {xs : List Lexeme}

/-- A separator in front goes into the first gap. -/
theorem Layout.behind {sep cs : List Char} (h : Layout source (before ++ sep) xs)
    (hs : Separates sep cs) (hcs : source.toList = before ++ (sep ++ cs)) :
    Layout source before xs := by
  -- The first gap of the layout grows by `sep`, whatever comes behind it.
  cases h with
  | @done _ gap h hg =>
    rw [List.append_assoc] at h
    have hgap : cs = gap ++ [] := by simpa [hcs] using h
    exact .done h (hs.append hgap hg)
  | @lexeme _ gap piece rest x xs h hg hp hx hspelling hspan more =>
    rw [List.append_assoc, ← List.append_assoc sep] at h
    have hgap : cs = gap ++ (piece ++ rest) := by simpa [hcs] using h
    rw [List.append_assoc before] at hspan more
    exact .lexeme h (hs.append hgap hg) hp hx hspelling hspan more

theorem layout_lexemes (offset : Nat) (cs before : List Char) (h : source.toList = before ++ cs)
    (ho : offset = utf8Length before) : Layout source before (lexemes offset cs) := by
  induction offset, cs using lexemes.induct generalizing before with
  | case1 offset =>
    rw [lexemes]
    exact .done h .nothing
  | case2 offset c rest hc ih =>
    rw [lexemes, if_pos hc]
    exact (ih (before ++ [c]) (by simp [h]) (by simp [ho, utf8Length_append])).behind
      (separates_blank hc rest) h
  | case3 offset rest n hc ih =>
    rw [lexemes, if_neg hc, if_pos rfl]
    have hcs : source.toList = before ++ (('!' :: rest.take n) ++ rest.drop n) := by simp [h]
    exact (ih (before ++ '!' :: rest.take n) (by simp [h]) (by rw [ho, utf8Length_append])).behind
      (separates_comment rest rfl) hcs
  | case4 offset c rest hc hc' found spelling stop ih =>
    rw [lexemes, if_neg hc, if_neg hc']
    have hcs : source.toList = before ++ ([] ++ (spelling ++ rest.drop found.2)) := by
      simp [h, spelling]
    have hstop : stop = utf8Length (before ++ [] ++ spelling) := by
      rw [List.append_nil, utf8Length_append, ← ho]
    refine .lexeme hcs .nothing (List.cons_ne_nil _ _) (fun _ => first_proper) rfl ?_
      (ih _ (by simp [hcs]) hstop)
    rw [Span.place, ← hstop, List.append_nil, ← ho]

namespace Layout

theorem utf8Length_le_start (h : Layout source before xs) :
    ∀ x ∈ xs, utf8Length before ≤ x.span.start := by
  induction h with
  | done => simp
  | @lexeme before gap piece rest x xs _ _ _ _ _ hspan _ ih =>
    intro y hy
    rcases List.mem_cons.1 hy with rfl | hy
    · rw [hspan, Span.place, utf8Length_append]
      exact Nat.le_add_right _ _
    · have := ih y hy
      rw [utf8Length_append, utf8Length_append] at this
      omega

theorem ordered (h : Layout source before xs) :
    xs.Pairwise fun x y => x.span.stop ≤ y.span.start := by
  induction h with
  | done => exact .nil
  | lexeme _ _ _ _ _ hspan more ih =>
    refine .cons (fun y hy => ?_) ih
    rw [hspan]
    exact more.utf8Length_le_start y hy

theorem standsIn (h : Layout source before xs) : ∀ x ∈ xs, x.token.StandsIn source := by
  induction h with
  | done => simp
  | @lexeme before gap piece rest x xs h _ hp _ hspelling hspan _ ih =>
    intro y hy
    rcases List.mem_cons.1 hy with rfl | hy
    · have h : source.toList = (before ++ gap) ++ (piece ++ rest) := by simp [h]
      rw [Token.StandsIn, Lexeme.token_span, Lexeme.token_spelling, hspelling, hspan]
      exact ⟨Span.place_start_lt_stop _ hp, Span.onBoundaries_place h, (Span.text_place h).symm⟩
    · exact ih y hy

theorem proper (h : Layout source before xs) : ∀ x ∈ xs, x.Proper := by
  induction h with
  | done => simp
  | lexeme _ _ _ hx _ _ _ ih =>
    intro y hy
    rcases List.mem_cons.1 hy with rfl | hy
    · exact hx
    · exact ih y hy

/-- Blanks and comments fill the gaps, the last of them in front of the end of the text. -/
theorem isChain_apart (h : Layout source before xs) {s : Span} (hs : s.stop = utf8Length before) :
    (s :: (xs.map Lexeme.span ++ [.empty source.utf8ByteSize])).IsChain (Span.Apart source) := by
  induction h generalizing s with
  | @done before gap h hg =>
    have hend : source.utf8ByteSize = utf8Length (before ++ gap) := by rw [← utf8Length_toList, h]
    have h : source.toList = before ++ (gap ++ []) := by simpa using h
    exact List.isChain_cons_cons.2 ⟨Span.apart h hs hend hg, .singleton _⟩
  | @lexeme before gap piece rest x xs h hg _ _ _ hspan _ ih =>
    refine List.isChain_cons_cons.2 ⟨Span.apart h hs ?_ hg, ih ?_⟩
    · rw [hspan]
      rfl
    · rw [hspan]
      rfl

end Layout

end Scan

namespace Tokens

/-- Tokens and errors that account for the whole of `source`. -/
structure AccountFor (ts : Tokens) (source : String) : Prop where
  endsOnce : ∃ us, ts.toList = us ++ [⟨.endOfText, "", .empty source.utf8ByteSize⟩] ∧
    ∀ t ∈ us, t.kind ≠ .endOfText
  standIn : ∀ t ∈ ts.toList, t.kind ≠ .endOfText → t.StandsIn source
  ordered : ts.toList.Pairwise fun t u => t.span.stop ≤ u.span.start
  /-- In front of the first token, and between one token and the next. -/
  apart : (Span.empty 0 :: ts.toList.map Token.span).IsChain (Span.Apart source)
  errors : ts.errors.map (fun e => (e.spelling, e.span)) =
    (ts.toList.filter (·.kind = .error)).map fun t => (t.spelling, t.span)

/-- The tokens of a source text, and their errors, account for the whole of it. -/
theorem ofSource_accountFor (source : String) : (ofSource source).AccountFor source := by
  have hl : Scan.Layout source [] (Scan.lexemes 0 source.toList) :=
    Scan.layout_lexemes 0 source.toList [] rfl rfl
  have hk : ∀ t ∈ (Scan.lexemes 0 source.toList).map Lexeme.token, t.kind ≠ .endOfText := by
    intro t ht
    obtain ⟨x, hx, rfl⟩ := List.mem_map.1 ht
    exact (hl.proper x hx).token_kind_ne_endOfText
  have hst : ∀ t ∈ (Scan.lexemes 0 source.toList).map Lexeme.token, t.StandsIn source := by
    intro t ht
    obtain ⟨x, hx, rfl⟩ := List.mem_map.1 ht
    exact hl.standsIn x hx
  refine ⟨⟨_, rfl, hk⟩, fun t ht hn => ?_, ?_, ?_, ?_⟩
  · rcases List.mem_append.1 ht with ht | ht
    · exact hst t ht
    · obtain rfl := List.mem_singleton.1 ht
      exact absurd rfl hn
  · refine List.pairwise_append.2 ⟨?_, List.pairwise_singleton _ _, fun t ht u hu => ?_⟩
    · simpa [List.pairwise_map] using hl.ordered
    · obtain rfl := List.mem_singleton.1 hu
      exact (hst t ht).2.1.2.le_utf8ByteSize
  · have hc := hl.isChain_apart (s := .empty 0) rfl
    simpa [ofSource, Function.comp_def] using hc
  · rw [ofSource, List.filter_append, List.map_append]
    simpa using Scan.errors_eq hl.proper

end Tokens

end TriLang
