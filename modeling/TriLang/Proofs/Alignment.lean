import TriLang.Proofs.Carets

/-!
# Carets and characters

Carets are laid out by bytes, and the source line above them is written in characters.  So carets
stand under the text that they mark just if no character of the line takes more than one byte, up to
the end of this text.  Otherwise there are too many of them, or they stand too far to the right.
-/

namespace TriLang

variable {source file : String} {cs : List Char} {n : Nat}

/-! ## Bytes and characters -/

theorem utf8Length_eq_length_iff :
    utf8Length cs = cs.length ↔ ∀ c ∈ cs, c.utf8Size = 1 := by
  induction cs with
  | nil => simp
  | cons c cs ih =>
    have hpos := c.utf8Size_pos
    have hle := Lines.length_le_utf8Length cs
    rw [utf8Length_cons, List.length_cons, List.forall_mem_cons, ← ih]
    omega

/-- Of two beginnings of a text the one of fewer bytes is a beginning of the other. -/
theorem exists_append_of_utf8Length_le {xs ys zs ws : List Char} (h : xs ++ ys = zs ++ ws)
    (hle : utf8Length xs ≤ utf8Length zs) : ∃ as, zs = xs ++ as ∧ ys = as ++ ws := by
  rcases List.append_eq_append_iff.1 h with ⟨as, hz, hy⟩ | ⟨as, hx, hw⟩
  · exact ⟨as, hz, hy⟩
  · obtain rfl : as = [] := by
      by_contra hne
      have := utf8Length_pos hne
      rw [hx, utf8Length_append] at hle
      omega
    exact ⟨[], by simpa using hx.symm, by simpa using hw.symm⟩

theorem exists_append_of_isValid (h : String.Pos.Raw.IsValid source ⟨n⟩) :
    ∃ before rest, source.toList = before ++ rest ∧ utf8Length before = n := by
  obtain ⟨before, rest, rfl, hn⟩ := String.Pos.Raw.isValid_iff_exists_append.1 h
  refine ⟨before.toList, rest.toList, String.toList_append, ?_⟩
  rw [utf8Length_toList]
  exact (congrArg String.Pos.Raw.byteIdx hn).symm

/-! ## Parts of a line -/

namespace LineOf

/-- The line cut into the text of `s` and what stands on both sides of it. -/
structure Cut (line : LineOf cs) (s : Span) where
  pre : List Char
  marked : List Char
  post : List Char
  text_eq : line.text = pre ++ (marked ++ post)
  start_eq : s.start = line.start + utf8Length pre
  stop_eq : s.stop = s.start + utf8Length marked

theorem exists_append_text {line : LineOf source.toList} (hn : line.Holds n)
    (h : String.Pos.Raw.IsValid source ⟨n⟩) :
    ∃ pre post, line.text = pre ++ post ∧ n = line.start + utf8Length pre := by
  obtain ⟨before, rest, hsource, rfl⟩ := exists_append_of_isValid h
  obtain ⟨hstart, hstop⟩ := hn
  have hsplit := line.eq_append.symm.trans hsource
  obtain ⟨pre, rfl, hrest⟩ := exists_append_of_utf8Length_le hsplit hstart
  rw [utf8Length_append] at hstop ⊢
  have hfits := Nat.le_of_add_le_add_left hstop
  obtain ⟨post, htext, -⟩ := exists_append_of_utf8Length_le hrest.symm hfits
  exact ⟨pre, post, htext, rfl⟩

/-- A slice of one line cuts it. -/
theorem exists_cut {line : LineOf source.toList} {s : Span} (hs : s.IsSliceOf source)
    (hstart : line.Holds s.start) (hstop : s.stop ≤ line.stop) : Nonempty (line.Cut s) := by
  have hle := hs.start_le_stop
  obtain ⟨pre, back, hpre, hs₁⟩ := exists_append_text hstart hs.onBoundaries.1
  obtain ⟨front, post, hfront, hs₂⟩ :=
    exists_append_text ⟨Nat.le_trans hstart.1 hle, hstop⟩ hs.onBoundaries.2
  obtain ⟨marked, rfl, rfl⟩ := exists_append_of_utf8Length_le (hpre.symm.trans hfront) (by omega)
  rw [utf8Length_append] at hs₂
  exact ⟨⟨pre, marked, post, hpre, hs₁, by omega⟩⟩

end LineOf

/-! ## Carets in a row -/

/-- The carets of a row are `n` from index `k` on. -/
def Carets (row : List Char) (k n : Nat) : Prop := ∀ i, row[i]? = some '^' ↔ k ≤ i ∧ i < k + n

theorem Carets.unique {row : List Char} {k k' n' : Nat} (h : Carets row k n)
    (h' : Carets row k' n') (hn : 0 < n) : k = k' ∧ n = n' := by
  have heq (i : Nat) : (k ≤ i ∧ i < k + n) ↔ (k' ≤ i ∧ i < k' + n') := (h i).symm.trans (h' i)
  have hfirst := heq k
  have hfirst' := heq k'
  have hend := heq (k + n)
  have hend' := heq (k' + n')
  omega

/-- What is neither in front of a part nor behind it is found in the part. -/
theorem getElem?_between_iff {left mid right : List Char} {c : Char} (hl : c ∉ left)
    (hr : c ∉ right) (i : Nat) : (left ++ (mid ++ right))[i]? = some c ↔
      left.length ≤ i ∧ mid[i - left.length]? = some c := by
  rw [List.getElem?_append]
  split
  case isTrue hi =>
    refine iff_of_false (fun h => hl (List.mem_of_getElem? h)) (by omega)
  case isFalse hi =>
    rw [List.getElem?_append]
    split
    case isTrue => simp; omega
    case isFalse hmid =>
      refine iff_of_false (fun h => hr (List.mem_of_getElem? h)) ?_
      rw [List.getElem?_eq_none (by omega)]
      simp

namespace Diagnostic.MarkedLine

variable {d : Diagnostic} (m : d.MarkedLine source file) {primary : Label}

/-- The number of characters in front of both rows. -/
def margin : Nat := m.width + 3

/-- The row of the source line. -/
def sourceRow : List Char := sourceText m.width m.line.number m.line.text

/-- The row of the carets. -/
def caretRow : List Char := markText m.width m.cells m.message

/-- The source line stands behind the margin. -/
theorem getElem?_sourceRow {i : Nat} (hi : i < m.line.text.length) :
    m.sourceRow[m.margin + i]? = m.line.text[i]? := by
  have hfits := m.number_fits
  have hmargin : ((padLeft m.width (toString m.line.number)).toList ++ [' ', '|', ' ']).length =
      m.margin := by
    simp only [padLeft, blanks, String.toList_append, String.toList_ofList, List.length_append,
      List.length_replicate, String.length_toList, List.length_cons, List.length_nil, margin]
    omega
  rw [sourceRow, sourceText, List.append_assoc, ← List.append_assoc, ← hmargin,
    List.getElem?_append_right (Nat.le_add_right _ _), Nat.add_sub_cancel_left,
    List.getElem?_append_left hi]

/-- So do the cells below it. -/
theorem caretRow_eq_caret_iff (hmessage : '^' ∉ m.message.toList) (i : Nat) :
    m.caretRow[i]? = some '^' ↔ m.margin ≤ i ∧ m.cells[i - m.margin]? = some '^' := by
  have hrow : m.caretRow = (List.replicate m.width ' ' ++ [' ', '|', ' ']) ++
      (m.cells ++ ' ' :: (m.message.toList ++ ['\n'])) := by
    simp [caretRow, markText]
  rw [hrow, getElem?_between_iff (by simp) (by simpa using hmessage)]
  simp [margin]

/-- Where the place of a label is on one line, its carets are as many as it has bytes, and stand
behind as many cells as the text in front of it has bytes. -/
theorem Underlines.carets {m : d.MarkedLine source file} (h : m.Underlines primary)
    (hmessage : '^' ∉ m.message.toList) (c : m.line.Cut primary.span) (hne : c.marked ≠ []) :
    Carets m.caretRow (m.margin + utf8Length c.pre) (utf8Length c.marked) := by
  intro i
  have hpos := utf8Length_pos hne
  have hstart := c.start_eq
  have hstop := c.stop_eq
  have hend : primary.span.stop ≤ m.line.stop := by
    rw [LineOf.stop, c.text_eq, utf8Length_append, utf8Length_append]
    omega
  rw [m.caretRow_eq_caret_iff hmessage, h.caret_iff, Span.Marks]
  omega

/-- The carets stand under the text of the label just if its characters and those in front of it on
the line take one byte each. -/
theorem Underlines.aligned_iff {m : d.MarkedLine source file} (h : m.Underlines primary)
    (hmessage : '^' ∉ m.message.toList) (c : m.line.Cut primary.span) (hne : c.marked ≠ []) :
    Carets m.caretRow (m.margin + c.pre.length) c.marked.length ↔
      ∀ x ∈ c.pre ++ c.marked, x.utf8Size = 1 := by
  have hcarets := h.carets hmessage c hne
  rw [List.forall_mem_append, ← utf8Length_eq_length_iff, ← utf8Length_eq_length_iff]
  constructor
  · intro haligned
    obtain ⟨hpre, hmarked⟩ := hcarets.unique haligned (utf8Length_pos hne)
    exact ⟨Nat.add_left_cancel hpre, hmarked⟩
  · rintro ⟨hpre, hmarked⟩
    rwa [hpre, hmarked] at hcarets

end Diagnostic.MarkedLine

/-! ## Diagnostics of runs -/

/-- No message of the labels has a caret in it. -/
def Diagnostic.KeepsCarets (d : Diagnostic) : Prop :=
  ∀ l ∈ d.labels, ∀ text, l.message = some text → '^' ∉ text.toList

theorem LexicalError.keepsCarets (e : LexicalError) : e.diagnostic.KeepsCarets := by
  obtain ⟨fault, spelling, span⟩ := e
  have hlabel : '^' ∉ fault.label.toList := by cases fault <;> decide
  refine List.forall_mem_singleton.2 fun text h => ?_
  cases h
  exact hlabel

theorem SyntaxError.keepsCarets (e : SyntaxError) : e.diagnostic.KeepsCarets := by
  refine List.forall_mem_singleton.2 fun text h => ?_
  cases h
  decide

theorem NamingError.keepsCarets (e : NamingError) : e.diagnostic.KeepsCarets := by
  obtain ⟨⟨name, _ | previous⟩ | name | family, span⟩ := e
  case alreadyDeclared.some =>
    refine List.forall_mem_cons.2 ⟨fun text h => ?_, List.forall_mem_singleton.2 fun text h => ?_⟩
    · cases h
      decide
    · cases h
      decide
  all_goals
    refine List.forall_mem_singleton.2 fun text h => ?_
    cases h
    decide

namespace Run

variable {o : Options} {stage : Stage} {d : Diagnostic}

theorem keepsCarets : ∀ e ∈ (ofSource source o).log.entries, e.2.KeepsCarets := by
  obtain ⟨xs, ys, zs, hlog, -⟩ := exists_ofErrors source o
  rw [hlog, Log.entries_ofErrors]
  simp [or_imp, forall_and, LexicalError.keepsCarets, SyntaxError.keepsCarets,
    NamingError.keepsCarets]

/-- The carets of a diagnostic stand under the text of its primary label, where this is on one line
and not empty, just if this text and the line in front of it are all of characters of one byte. -/
theorem ofSource_carets_aligned_iff (hsize : source.utf8ByteSize < 2 ^ 31 - 1)
    (h : (stage, d) ∈ (ofSource source o).log.entries) (file : String) :
    ∃ primary ∈ d.labels, (∀ l ∈ d.labels, l.role = .primary ↔ l = primary) ∧
      (∃ rows, d.plainRows? (.ofSource source) file = some rows ∧
        d.render? (.ofSource source) file false = some (String.ofList rows.flatten)) ∧
      ∃ m : d.MarkedLine source file, m.line.Holds primary.span.start ∧
        (primary.span.start < primary.span.stop → primary.span.stop ≤ m.line.stop →
          ∃ c : m.line.Cut primary.span,
            (∀ i < c.marked.length,
              m.sourceRow[m.margin + c.pre.length + i]? = c.marked[i]?) ∧
            Carets m.caretRow (m.margin + utf8Length c.pre) (utf8Length c.marked) ∧
            (Carets m.caretRow (m.margin + c.pre.length) c.marked.length ↔
              ∀ x ∈ c.pre ++ c.marked, x.utf8Size = 1)) := by
  obtain ⟨primary, hp⟩ := exists_pointsAt hsize _ h
  have hslices := isIn_log source o (stage, d) h
  obtain ⟨m, hm⟩ := hp.exists_underlines (by omega) hslices file
  have hmessage : '^' ∉ m.message.toList := keepsCarets _ h primary hp.primary_mem _ hm.message
  have hrole : ∀ l ∈ d.labels, l.role = .primary ↔ l = primary := fun l hl =>
    ⟨hp.eq_primary hl, fun heq => heq ▸ hp.role⟩
  refine ⟨primary, hp.primary_mem, hrole, ⟨_, m.rows_eq, ?_⟩, m, hm.holds, fun hlt hstop => ?_⟩
  · rw [Diagnostic.render?_false, m.rows_eq]
    rfl
  obtain ⟨c⟩ := LineOf.exists_cut (hslices _ (List.mem_map_of_mem hp.primary_mem)) hm.holds hstop
  have hne : c.marked ≠ [] := by
    intro hnil
    have := c.stop_eq
    rw [hnil, utf8Length_nil] at this
    omega
  refine ⟨c, fun i hi => ?_, hm.carets hmessage c hne, hm.aligned_iff hmessage c hne⟩
  have htext := c.text_eq
  rw [Nat.add_assoc, m.getElem?_sourceRow (by rw [htext]; simp; omega), htext,
    List.getElem?_append_right (Nat.le_add_right _ _), Nat.add_sub_cancel_left,
    List.getElem?_append_left hi]

/-- A character that is no token, behind others, all of one byte. -/
theorem ofSource_carets_aligned_iff_oneByte :
    let source := "n := $"
    let d := LexicalError.diagnostic ⟨.unexpectedCharacter, "$", ⟨5, 6⟩⟩
    source.utf8ByteSize < 2 ^ 31 - 1 ∧ (.tokenizer, d) ∈ (ofSource source {}).log.entries ∧
      ∃ m : d.MarkedLine source "price.tri", ∃ c : m.line.Cut ⟨5, 6⟩,
        Carets m.caretRow (m.margin + c.pre.length) c.marked.length := by
  intro source d
  have hsize : source.utf8ByteSize < 2 ^ 31 - 1 := by decide +kernel
  have hd : (.tokenizer, d) ∈ (ofSource source {}).log.entries := by decide +kernel
  obtain ⟨primary, hmem, -, -, m, -, hcarets⟩ := ofSource_carets_aligned_iff hsize hd "price.tri"
  obtain rfl := List.mem_singleton.1 hmem
  have hsource := m.line.eq_append
  have hafter : m.line.after = [] := by
    -- There is no other line.
    by_contra hne
    obtain ⟨y, ys, hcons⟩ := List.exists_cons_of_ne_nil hne
    obtain rfl : y = '\n' := m.line.after_begins y (by rw [hcons]; rfl)
    have hnewline : '\n' ∈ source.toList := by simp [hsource, hcons]
    exact absurd hnewline (by decide)
  have hstop := m.line.after_eq_nil_iff.1 hafter
  obtain ⟨c, -, -, haligned⟩ := hcarets (by decide) (by rw [hstop]; decide +kernel)
  have hall : source.toList.all fun x => x.utf8Size == 1 := by decide +kernel
  refine ⟨hsize, hd, m, c, haligned.2 fun x hx => ?_⟩
  have hmem : x ∈ source.toList := by
    rw [hsource, c.text_eq, ← List.append_assoc c.pre]
    exact List.mem_append_right _ (List.mem_append_left _ (List.mem_append_left _ hx))
  exact beq_iff_eq.1 (List.all_eq_true.1 hall x hmem)

/-- A character of two bytes has two carets. -/
theorem ofSource_carets_twoBytes :
    let source := "é"
    let d := LexicalError.diagnostic ⟨.unexpectedCharacter, "é", ⟨0, 2⟩⟩
    let above := "  1 | é\n".toList
    let below := "    | ^^ not part of the language\n".toList
    (.tokenizer, d) ∈ (ofSource source {}).log.entries ∧
      d.plainRows? (.ofSource source) "<source>" =
        some ["error[E0001]: unexpected character 'é'\n".toList, "  --> <source>:1:1\n".toList,
          "    |\n".toList, above, below] ∧
      above[6]? = some 'é' ∧ Carets below 6 2 ∧ ¬Carets below 6 1 := by
  intro source d above below
  have hrow : below = "    | ".toList ++ (List.replicate 2 '^' ++
      " not part of the language\n".toList) := by decide +kernel
  have hcarets : Carets below 6 2 := by
    intro i
    rw [hrow, getElem?_between_iff (by decide) (by decide), List.getElem?_replicate]
    simp
    omega
  refine ⟨by decide +kernel, by decide +kernel, by decide, hcarets, fun h => ?_⟩
  exact absurd (h.unique hcarets Nat.one_pos).2 (by decide)

end Run

end TriLang
