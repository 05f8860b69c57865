import TriLang.Proofs.Declarations
import TriLang.Proofs.LineTexts
import TriLang.Proofs.Marks
import TriLang.Proofs.Places
import TriLang.Proofs.Slices

/-!
# Carets are never hidden

The plain rendering of a diagnostic has a row of carets below the line that its place begins on.
They stand under the bytes of its place on that line and under no other, although secondary marks
are drawn over primary ones: a secondary label shows a declaration that lies in front of the name
that is declared again.
-/

namespace TriLang

variable {source file : String} {cs : List Char} {n i : Nat}

/-! ## Labels and their lines -/

/-- The place `n` on the line that `s` begins on is marked for `s`: it is where `s` begins, or that of
a later byte of `s` on the line. -/
def Span.Marks (s : Span) (line : LineOf cs) (n : Nat) : Prop :=
  n = s.start ∨ s.start < n ∧ n < s.stop ∧ n < line.stop

namespace Mark

/-- The mark of a label whose ends have positions. -/
def ofLabel (ls : Lines) (l : Label) : Mark :=
  between ls l (ls.position l.span.start) (ls.position l.span.stop)

theorem ofLabel?_eq_some {ls : Lines} {l : Label} (hstart : l.span.start < 2 ^ 32 - 1)
    (hstop : l.span.stop < 2 ^ 32 - 1) : ofLabel? ls l = some (ofLabel ls l) := by
  rw [ofLabel?, Lines.position?_eq_some_position hstart, Lines.position?_eq_some_position hstop]
  rfl

variable {l : Label} {line : LineOf source.toList} (hsize : source.utf8ByteSize < 2 ^ 32 - 1)
include hsize

theorem line_ofLabel_eq_iff (line : LineOf source.toList)
    (hl : l.span.start ≤ source.utf8ByteSize) :
    (ofLabel (.ofSource source) l).line = line.number ↔ line.Holds l.span.start := by
  rw [line.holds_iff hsize hl, ← UInt32.toNat_inj,
    Lines.toNat_toUInt32_of_lt (line.number_lt hsize)]
  rfl

theorem column_ofLabel (h : line.Holds l.span.start) :
    (ofLabel (.ofSource source) l).column = l.span.start - line.start + 1 := by
  have hle := Nat.le_trans h.2 line.stop_le
  show ((Lines.ofSource source).position l.span.start).column.toNat = _
  rw [h.position_eq hsize]
  exact Lines.toNat_toUInt32_of_lt (by omega)

/-- A mark ends where its label does, or else at the end of the line; it has one column at least. -/
theorem stop_ofLabel (hstop : l.span.stop < 2 ^ 32 - 1) (h : line.Holds l.span.start) :
    (ofLabel (.ofSource source) l).stop =
      max (if line.Reaches l.span.stop then l.span.stop - line.start + 1
        else utf8Length line.text + 1) (l.span.start - line.start + 2) := by
  have hcolumn := column_ofLabel hsize h
  have hwidth : (((Lines.ofSource source).text?
      ((Lines.ofSource source).position l.span.start).line).getD "").utf8ByteSize =
        utf8Length line.text := by
    rw [h.position_eq hsize, line.text?_number hsize, Option.getD_some, ← utf8Length_toList,
      String.toList_ofList]
  have hsame : ((Lines.ofSource source).position l.span.stop).line =
      ((Lines.ofSource source).position l.span.start).line ↔ line.Reaches l.span.stop := by
    rw [line.reaches_iff hsize hstop, h.position_eq hsize]
  rw [ofLabel, between] at hcolumn ⊢
  dsimp only at hcolumn ⊢
  rw [hcolumn, hwidth]
  by_cases hreaches : line.Reaches l.span.stop
  · rw [if_pos (hsame.2 hreaches), if_pos hreaches,
      line.position_eq hsize hstop hreaches.1 hreaches.2, Lines.toNat_toUInt32_of_lt (by omega)]
  · rw [if_neg (hsame.not.2 hreaches), if_neg hreaches]

/-- A mark of a slice ends on its line. -/
theorem stop_ofLabel_of_isSliceOf (hl : l.span.IsSliceOf source) (h : line.Holds l.span.start) :
    (ofLabel (.ofSource source) l).stop =
      max (min l.span.stop line.stop - line.start + 1) (l.span.start - line.start + 2) := by
  have hreaches := line.reaches_iff_holds hl.stop_le
  have hend := hl.start_le_stop
  have hbegin := h.1
  rw [stop_ofLabel hsize (Nat.lt_of_le_of_lt hl.stop_le hsize) h]
  split
  case isTrue hstop => rw [Nat.min_eq_left (hreaches.1 hstop).2]
  case isFalse hstop =>
    have : line.stop < l.span.stop := by
      rw [hreaches, LineOf.Holds] at hstop
      omega
    rw [Nat.min_eq_right (Nat.le_of_lt this), LineOf.stop, Nat.add_sub_cancel_left]

theorem covers_ofLabel_iff (hl : l.span.IsSliceOf source) (h : line.Holds l.span.start) :
    (ofLabel (.ofSource source) l).Covers (i + 1) ↔ l.span.Marks line (line.start + i) := by
  have hbegin := h.1
  rw [Covers, column_ofLabel hsize h, stop_ofLabel_of_isSliceOf hsize hl h, Span.Marks]
  omega

end Mark

/-! ## The rows of a diagnostic -/

/-- The row of the line numbered `number`, without colour. -/
def sourceText (width number : Nat) (text : List Char) : List Char :=
  (padLeft width (toString number)).toList ++ ([' ', '|', ' '] ++ text ++ ['\n'])

/-- The row of `cells` below a source line, with a message at its end, without colour. -/
def markText (width : Nat) (cells : List Char) (message : String) : List Char :=
  List.replicate width ' ' ++ ([' ', '|', ' '] ++ cells ++ ' ' :: (message.toList ++ ['\n']))

namespace Excerpt

variable {gutter width line : Nat} {text : String} {marks : List Mark}

theorem write_sourceRow : (sourceRow gutter line text).write false =
    sourceText (gutter + 1) line text.toList := by
  simp [sourceRow, Row.write_false, Piece.plain, Piece.styled, sourceText]

theorem write_drawn (style : Style) :
    Row.write false (drawn gutter width marks ++ [.plain " ", .styled style text]) =
      markText (gutter + 1) (underline width (marks.mergeSort Mark.le)) text := by
  simp [drawn, margin, blanks, Row.write_false, Piece.plain, Piece.styled, markText]

end Excerpt

namespace Diagnostic

theorem exists_place?_eq {d : Diagnostic} {l : Label} (hl : l ∈ d.labels) :
    ∃ s, d.place? = some s :=
  Option.ne_none_iff_exists'.1 fun h => List.ne_nil_of_mem hl (place?_eq_none_iff.1 h)

/-- The rows of a diagnostic whose labels have positions. -/
def rows (ls : Lines) (file : String) (d : Diagnostic) : List Row :=
  let excerpt := match d.place? with
    | some span =>
      Excerpt.rows ls file (ls.position span.start) (d.labels.map (Mark.ofLabel ls))
    | none => []
  d.headerRow :: (excerpt ++ d.footerRows)

section Ends

variable {ls : Lines} {d : Diagnostic}
  (h : ∀ l ∈ d.labels, l.span.start < 2 ^ 32 - 1 ∧ l.span.stop < 2 ^ 32 - 1)
include h

theorem position?_place {span : Span} (hplace : d.place? = some span) :
    ls.position? span.start = some (ls.position span.start) := by
  obtain ⟨l, hl, rfl⟩ := List.mem_map.1 (place?_mem hplace)
  exact Lines.position?_eq_some_position (h l hl).1

theorem position?_eq_some :
    d.position? ls = some (d.place?.map fun span => ls.position span.start) := by
  rw [position?]
  cases hplace : d.place? with
  | none => rfl
  | some span => simp [position?_place h hplace]

theorem rows?_eq_some (file : String) : d.rows? ls file = some (d.rows ls file) := by
  have hmarks : d.labels.mapM (Mark.ofLabel? ls) = some (d.labels.map (Mark.ofLabel ls)) :=
    mapM_eq_some_map fun l hl => Mark.ofLabel?_eq_some (h l hl).1 (h l hl).2
  rw [rows?, excerpt?, hmarks, rows]
  cases hplace : d.place? with
  | none => rfl
  | some span => simp [position?_place h hplace]

end Ends

/-- The rows of a diagnostic without colour, each with the newline that ends it. -/
def plainRows? (ls : Lines) (file : String) (d : Diagnostic) : Option (List (List Char)) :=
  (d.rows? ls file).map (List.map (Row.write false))

theorem render?_false (ls : Lines) (file : String) (d : Diagnostic) : d.render? ls file false =
    (d.plainRows? ls file).map fun rows => String.ofList rows.flatten := by
  rw [render?, plainRows?, Option.map_map]
  rfl

/-- The diagnostic has one primary label, and others only in front of it.  All have messages. -/
structure PointsAt (d : Diagnostic) (primary : Label) : Prop where
  role : primary.role = .primary
  labels : ∃ others, d.labels = primary :: others ∧
    ∀ l ∈ others, l.role = .secondary ∧ l.span.Precedes primary.span
  messages : ∀ l ∈ d.labels, ∃ text, l.message = some text

/-- A source line in the plain rendering of `d`, and the row below it, with cells under its bytes
and a message. -/
structure MarkedLine (d : Diagnostic) (source file : String) where
  line : LineOf source.toList
  width : Nat
  cells : List Char
  message : String
  above : List (List Char)
  below : List (List Char)
  number_fits : (toString line.number).length ≤ width
  rows_eq : d.plainRows? (.ofSource source) file =
    some (above ++ sourceText width line.number line.text :: markText width cells message :: below)

/-- The cells below the line that `primary` begins on have carets under its bytes and under no
others, dashes under those of secondary labels, and the message of `primary` behind them. -/
structure MarkedLine.Underlines {d : Diagnostic} (m : d.MarkedLine source file) (primary : Label) :
    Prop where
  holds : m.line.Holds primary.span.start
  columns : ∀ n, m.line.Holds n → (Lines.ofSource source).position? n =
    some ⟨m.line.number.toUInt32, (n - m.line.start + 1).toUInt32⟩
  message : primary.message = some m.message
  caret_iff : ∀ i, m.cells[i]? = some '^' ↔ primary.span.Marks m.line (m.line.start + i)
  dash_iff : ∀ i, m.cells[i]? = some '-' ↔ ∃ l ∈ d.labels, l.role = .secondary ∧
    m.line.Holds l.span.start ∧ l.span.Marks m.line (m.line.start + i)

variable {d : Diagnostic} {primary : Label} {line : LineOf source.toList}

/-! ### Marks on a line -/

/-- The labels of `d` that start on a line. -/
def labelsOn (d : Diagnostic) (line : LineOf source.toList) : List Label :=
  d.labels.filter (line.Holds ·.span.start)

/-- The marks of `d` on a line. -/
def marksOn (d : Diagnostic) (line : LineOf source.toList) : List Mark :=
  (d.labels.map (Mark.ofLabel (.ofSource source))).filter (·.line == line.number)

theorem mem_labelsOn {l : Label} :
    l ∈ d.labelsOn line ↔ l ∈ d.labels ∧ line.Holds l.span.start := by
  rw [labelsOn, List.mem_filter, decide_eq_true_eq]

section LabelsOn

variable (hsize : source.utf8ByteSize < 2 ^ 32 - 1)
  (hstarts : ∀ l ∈ d.labels, l.span.start ≤ source.utf8ByteSize) (line : LineOf source.toList)
include hsize hstarts

theorem marksOn_eq :
    d.marksOn line = (d.labelsOn line).map (Mark.ofLabel (.ofSource source)) := by
  rw [marksOn, labelsOn, List.filter_map]
  refine congrArg _ (List.filter_congr fun l hl => Bool.eq_iff_iff.2 ?_)
  simpa using Mark.line_ofLabel_eq_iff hsize line (hstarts l hl)

theorem mem_marksOn {m : Mark} :
    m ∈ d.marksOn line ↔ ∃ l ∈ d.labels, line.Holds l.span.start ∧
      Mark.ofLabel (.ofSource source) l = m := by
  simp only [marksOn_eq hsize hstarts, List.mem_map, mem_labelsOn, and_assoc]

end LabelsOn

section MarksOn

variable (hsize : source.utf8ByteSize < 2 ^ 32 - 1)
  (hslices : Slices source (d.labels.map Label.span)) (line : LineOf source.toList)

include hslices in
theorem labels_start_le : ∀ l ∈ d.labels, l.span.start ≤ source.utf8ByteSize :=
  fun _ hl => (hslices _ (List.mem_map_of_mem hl)).start_le

include hsize hslices in
theorem rows?_of_slices (file : String) :
    d.rows? (.ofSource source) file = some (d.rows (.ofSource source) file) := by
  refine rows?_eq_some (fun l hl => ?_) file
  have hslice := hslices _ (List.mem_map_of_mem hl)
  have hle := hslice.start_le_stop
  have hstop := Nat.lt_of_le_of_lt hslice.stop_le hsize
  exact ⟨Nat.lt_of_le_of_lt hle hstop, hstop⟩

include hsize hslices

theorem onLine_marksOn : Excerpt.OnLine (utf8Length line.text) (d.marksOn line) := by
  intro m hm
  obtain ⟨l, hl, h, rfl⟩ := (mem_marksOn hsize (labels_start_le hslices) line).1 hm
  have hcolumn := Mark.column_ofLabel hsize h
  have hstop := Mark.stop_ofLabel_of_isSliceOf hsize (hslices _ (List.mem_map_of_mem hl)) h
  have hend : l.span.start ≤ line.start + utf8Length line.text := h.2
  have hbegin := h.1
  rw [hcolumn, hstop, LineOf.stop]
  omega

/-- A column is covered by a mark where its byte is marked for a label. -/
theorem exists_covers_iff (role : LabelRole) (i : Nat) :
    (∃ m ∈ d.marksOn line, m.role = role ∧ m.Covers (i + 1)) ↔
      ∃ l ∈ d.labels, l.role = role ∧ line.Holds l.span.start ∧
        l.span.Marks line (line.start + i) := by
  have hcovers (l : Label) (hl : l ∈ d.labels) (h : line.Holds l.span.start) :=
    Mark.covers_ofLabel_iff (i := i) hsize (hslices _ (List.mem_map_of_mem hl)) h
  constructor
  · rintro ⟨m, hm, hrole, hc⟩
    obtain ⟨l, hl, h, rfl⟩ := (mem_marksOn hsize (labels_start_le hslices) line).1 hm
    exact ⟨l, hl, hrole, h, (hcovers l hl h).1 hc⟩
  · rintro ⟨l, hl, hrole, h, hmarked⟩
    have hmem := (mem_marksOn hsize (labels_start_le hslices) line).2 ⟨l, hl, h, rfl⟩
    exact ⟨_, hmem, hrole, (hcovers l hl h).2 hmarked⟩

variable {line} {l : Label} (hl : l ∈ d.labels)
include hl

/-- A line on which a label begins is shown. -/
theorem exists_lineRows_infix (file : String) (h : line.Holds l.span.start) :
    ∃ gutter, (toString line.number).length ≤ gutter ∧
      Excerpt.sourceRow gutter line.number (String.ofList line.text) ::
        Excerpt.markRows gutter (utf8Length line.text) (d.marksOn line) <:+:
          d.rows (.ofSource source) file := by
  have hslice := hslices _ (List.mem_map_of_mem hl)
  have hline := (Mark.line_ofLabel_eq_iff hsize line hslice.start_le).2 h
  obtain ⟨place, hplace⟩ := exists_place?_eq hl
  obtain ⟨gutter, hgutter, hinfix⟩ := Excerpt.exists_lineRows_infix_rows (.ofSource source) file
    (Lines.position (.ofSource source) place.start)
    (List.mem_map_of_mem (f := Mark.ofLabel (.ofSource source)) hl)
  rw [hline] at hgutter hinfix
  rw [Excerpt.lineRows_eq, line.text?_number hsize, Option.getD_some, ← utf8Length_toList,
    String.toList_ofList] at hinfix
  refine ⟨gutter, hgutter, hinfix.trans ?_⟩
  rw [rows, hplace]
  exact (List.prefix_append _ _).isInfix.trans (List.suffix_cons _ _).isInfix

/-- The message of a label ends a row in its style. -/
theorem exists_mem_rows (file : String) {text : String} (ht : l.message = some text) :
    ∃ row ∈ d.rows (.ofSource source) file, row.getLast? = some (.styled l.role.style text) := by
  have hslice := hslices _ (List.mem_map_of_mem hl)
  obtain ⟨line, hline⟩ := LineOf.exists_of_le hslice.start_le
  have hmark := (mem_marksOn hsize (labels_start_le hslices) line).2 ⟨l, hl, hline, rfl⟩
  obtain ⟨gutter, -, hinfix⟩ := exists_lineRows_infix hsize hslices hl file hline
  obtain ⟨row, hrow, hlast⟩ := Excerpt.exists_mem_markRows gutter
    (onLine_marksOn hsize hslices line) hmark ht
  exact ⟨row, hinfix.subset (List.mem_cons_of_mem _ hrow), hlast⟩

end MarksOn

/-! ### The label pointed at -/

namespace PointsAt

theorem of_labels_eq {text : String} (h : d.labels = [primary]) (hrole : primary.role = .primary)
    (ht : primary.message = some text) : d.PointsAt primary :=
  ⟨hrole, ⟨[], h, List.forall_mem_nil _⟩, h ▸ List.forall_mem_singleton.2 ⟨text, ht⟩⟩

variable (h : d.PointsAt primary)
include h

theorem primary_mem : primary ∈ d.labels := by
  obtain ⟨others, hlabels, -⟩ := h.labels
  exact hlabels ▸ List.mem_cons_self

theorem eq_primary {l : Label} (hl : l ∈ d.labels) (hrole : l.role = .primary) : l = primary := by
  obtain ⟨others, hlabels, hothers⟩ := h.labels
  rcases List.mem_cons.1 (hlabels ▸ hl) with rfl | hl
  · rfl
  · rw [(hothers l hl).1] at hrole
    cases hrole

theorem place?_eq : d.place? = some primary.span := by
  obtain ⟨others, hlabels, -⟩ := h.labels
  rw [place?, hlabels, List.find?_cons_of_pos (by simp [h.role])]
  rfl

/-- No byte is marked for the primary label and for another. -/
theorem not_marks {l : Label} (hl : l ∈ d.labels) (hrole : l.role = .secondary)
    (hp : primary.span.Marks line n) : ¬ l.span.Marks line n := by
  obtain ⟨others, hlabels, hothers⟩ := h.labels
  rcases List.mem_cons.1 (hlabels ▸ hl) with rfl | hl
  · rw [h.role] at hrole
    cases hrole
  · obtain ⟨hstart, hstop⟩ := (hothers l hl).2
    rw [Span.Marks] at hp ⊢
    omega

variable (hsize : source.utf8ByteSize < 2 ^ 32 - 1)
  (hslices : Slices source (d.labels.map Label.span))
include hsize hslices

/-- Nothing is drawn over the carets of the primary label. -/
theorem symbolAt_marksOn_iff (hline : line.Holds primary.span.start) (i : Nat) :
    symbolAt (d.marksOn line) (i + 1) = '^' ↔ primary.span.Marks line (line.start + i) := by
  have hcovers := exists_covers_iff hsize hslices line
  rw [symbolAt_eq_caret_iff, hcovers]
  constructor
  · rintro ⟨⟨l, hl, hrole, -, hmarked⟩, -⟩
    exact h.eq_primary hl hrole ▸ hmarked
  · refine fun hmarked => ⟨⟨primary, h.primary_mem, h.role, hline, hmarked⟩, fun m hm hc => ?_⟩
    cases hrole : m.role with
    | primary => rfl
    | secondary =>
      obtain ⟨l, hl, hsecondary, -, hother⟩ := (hcovers _ i).1 ⟨m, hm, hrole, hc⟩
      exact absurd hother (h.not_marks hl hsecondary hmarked)

/-- A diagnostic that points at one label underlines it. -/
theorem exists_underlines (file : String) :
    ∃ m : d.MarkedLine source file, m.Underlines primary := by
  have hslice := hslices _ (List.mem_map_of_mem h.primary_mem)
  obtain ⟨message, hmessage⟩ := h.messages primary h.primary_mem
  obtain ⟨line, hline⟩ := LineOf.exists_of_le hslice.start_le
  have hmarks (m : Mark) := mem_marksOn (m := m) hsize (labels_start_le hslices) line
  have hon := onLine_marksOn hsize hslices line
  have hcell {i : Nat} {c : Char} (hc : c ≠ ' ') :=
    getElem?_underline_iff (i := i) (fun m hm => ⟨(hon m hm).1, (hon m hm).2.2⟩) hc
  have honly : ∀ m ∈ d.marksOn line, m.role = .primary →
      m = Mark.ofLabel (.ofSource source) primary := by
    intro m hm hrole
    obtain ⟨l, hl, -, rfl⟩ := (hmarks m).1 hm
    rw [h.eq_primary hl hrole]
  obtain ⟨gutter, hgutter, above, below, hrows⟩ :=
    exists_lineRows_infix hsize hslices h.primary_mem file hline
  obtain ⟨rest, hrest⟩ := Excerpt.exists_markRows_eq gutter hon
    ((hmarks _).2 ⟨primary, h.primary_mem, hline, rfl⟩) h.role honly hmessage
  refine ⟨⟨line, gutter + 1, underline (utf8Length line.text) ((d.marksOn line).mergeSort Mark.le),
    message, above.map (Row.write false), rest.map (Row.write false) ++ below.map (Row.write false),
    Nat.le_succ_of_le hgutter, ?_⟩, hline, fun n hn => hn.position?_eq hsize, hmessage, fun i => ?_,
    fun i => ?_⟩
  · rw [plainRows?, rows?_of_slices hsize hslices, ← hrows, hrest, Option.map_some]
    simp only [List.map_append, List.map_cons, List.append_assoc, List.cons_append,
      Excerpt.write_sourceRow, Excerpt.write_drawn, String.toList_ofList]
  · exact (hcell (by decide)).trans (h.symbolAt_marksOn_iff hsize hslices hline i)
  · exact (hcell (by decide)).trans
      (symbolAt_eq_dash_iff.trans (exists_covers_iff hsize hslices line .secondary i))

end PointsAt

end Diagnostic

/-! ## Diagnostics of runs -/

theorem LexicalError.pointsAt (e : LexicalError) :
    ∃ primary, e.diagnostic.PointsAt primary := ⟨_, .of_labels_eq rfl rfl rfl⟩

theorem SyntaxError.pointsAt (e : SyntaxError) :
    ∃ primary, e.diagnostic.PointsAt primary := ⟨_, .of_labels_eq rfl rfl rfl⟩

/-- The declaration that has the name of `e` lies in front of its place. -/
def NamingError.LooksBack (e : NamingError) : Prop :=
  ∀ name previous, e.fault = .alreadyDeclared name (some previous) → previous.Precedes e.span

theorem NamingError.LooksBack.pointsAt {e : NamingError} (h : e.LooksBack) :
    ∃ primary, e.diagnostic.PointsAt primary := by
  obtain ⟨fault, span⟩ := e
  cases fault with
  | undeclared name => exact ⟨_, .of_labels_eq rfl rfl rfl⟩
  | malformed what => exact ⟨_, .of_labels_eq rfl rfl rfl⟩
  | alreadyDeclared name previous =>
    cases previous with
    | none => exact ⟨_, .of_labels_eq rfl rfl rfl⟩
    | some previous =>
      refine ⟨_, rfl, ⟨[⟨previous, .secondary, some "first declared here"⟩], rfl,
        List.forall_mem_singleton.2 ⟨rfl, h name previous rfl⟩⟩, ?_⟩
      exact List.forall_mem_cons.2 ⟨⟨_, rfl⟩, List.forall_mem_singleton.2 ⟨_, rfl⟩⟩

theorem Log.exists_pointsAt_ofErrors {xs : List LexicalError} {ys : List SyntaxError}
    {zs : List NamingError} (hz : ∀ e ∈ zs, e.LooksBack) :
    ∀ e ∈ (ofErrors xs ys zs).entries, ∃ primary, e.2.PointsAt primary := by
  intro e he
  rw [entries_ofErrors, List.append_assoc] at he
  rcases List.mem_append.1 he with he | he
  · obtain ⟨x, -, rfl⟩ := List.mem_map.1 he
    exact x.pointsAt
  rcases List.mem_append.1 he with he | he
  · obtain ⟨y, -, rfl⟩ := List.mem_map.1 he
    exact y.pointsAt
  · obtain ⟨z, hm, rfl⟩ := List.mem_map.1 he
    exact (hz z hm).pointsAt

namespace Run

variable {o : Options} {stage : Stage} {d : Diagnostic}

theorem exists_pointsAt (hsize : source.utf8ByteSize < 2 ^ 31 - 1) :
    ∀ e ∈ (ofSource source o).log.entries, ∃ primary, e.2.PointsAt primary := by
  have hnaming : ∀ e ∈ (Naming.ofProgram (Program.ofSource source)).errors, e.LooksBack := by
    rintro ⟨fault, span⟩ he name previous rfl
    exact Naming.precedes_of_alreadyDeclared hsize he
  obtain ⟨xs, ys, zs, hlog, -, -, hzs⟩ := exists_ofErrors source o
  rw [hlog]
  exact Log.exists_pointsAt_ofErrors fun e he => hnaming e (hzs.mem he)

/-- However a diagnostic of a run lies in the source, its carets are seen and its messages read. -/
theorem ofSource_underlines (hsize : source.utf8ByteSize < 2 ^ 31 - 1)
    (h : (stage, d) ∈ (ofSource source o).log.entries) (file : String) :
    ∃ primary ∈ d.labels, primary.role = .primary ∧
      (∀ l ∈ d.labels, l.role = .primary → l = primary) ∧ d.place? = some primary.span ∧
      (∃ m : d.MarkedLine source file, m.Underlines primary) ∧
      ∃ rows, d.rows? (.ofSource source) file = some rows ∧
        d.render? (.ofSource source) file false =
          some (String.ofList (rows.map (Row.write false)).flatten) ∧
        ∀ l ∈ d.labels, ∃ text, l.message = some text ∧
          ∃ row ∈ rows, row.getLast? = some (.styled l.role.style text) := by
  obtain ⟨primary, hp⟩ := exists_pointsAt hsize _ h
  have hslices := isIn_log source o (stage, d) h
  have hsize : source.utf8ByteSize < 2 ^ 32 - 1 := by omega
  have hrows := Diagnostic.rows?_of_slices hsize hslices file
  refine ⟨primary, hp.primary_mem, hp.role, fun l hl => hp.eq_primary hl, hp.place?_eq,
    hp.exists_underlines hsize hslices file, _, hrows, ?_, fun l hl => ?_⟩
  · rw [Diagnostic.render?_false, Diagnostic.plainRows?, hrows]
    rfl
  obtain ⟨text, htext⟩ := hp.messages l hl
  exact ⟨text, htext, Diagnostic.exists_mem_rows hsize hslices hl file htext⟩

/-- A name declared again on the line of its first declaration, behind another line. -/
theorem ofSource_underlines_declaredTwice :
    let source := "let\n  integer n; char n in n := 1"
    let d := NamingError.diagnostic ⟨.alreadyDeclared "n" (some ⟨6, 15⟩), ⟨22, 23⟩⟩
    source.utf8ByteSize < 2 ^ 31 - 1 ∧ (.identifier, d) ∈ (ofSource source {}).log.entries ∧
      ∃ m : d.MarkedLine source "twice.tri",
        m.Underlines ⟨⟨22, 23⟩, .primary, some "declared again here"⟩ := by
  intro source d
  have hsize : source.utf8ByteSize < 2 ^ 31 - 1 := by decide +kernel
  have hd : (.identifier, d) ∈ (ofSource source {}).log.entries := by decide +kernel
  obtain ⟨primary, hmem, hrole, -, -, hm, -⟩ := ofSource_underlines hsize hd "twice.tri"
  refine ⟨hsize, hd, ?_⟩
  rcases List.mem_cons.1 hmem with rfl | hmem
  · exact hm
  · obtain rfl := List.mem_singleton.1 hmem
    cases hrole

end Run

end TriLang
