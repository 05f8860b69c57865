import TriLang.Proofs.Carets

/-!
# Snippets for arbitrary labels

The plain rendering of a diagnostic shows the lines that its labels start on, whatever the labels
are: they may overlap, end on other lines, behind the text, or in front of where they start.  No
label vanishes, and every message is read once, in a fixed order.
-/

namespace TriLang

variable {source file : String} {cs : List Char} {n : Nat}

/-! ## Labels on a line -/

namespace LineOf

/-- Columns count bytes, from one. -/
def column (line : LineOf cs) (n : Nat) : Nat := n - line.start + 1

/-- The number of bytes of the line. -/
def width (line : LineOf cs) : Nat := utf8Length line.text

end LineOf

/-- The columns of its line that a label covers: from its start up to its end, or to the end of the
line if it ends on another one; one column at least, and no more than two behind the line. -/
def Label.Covers (l : Label) (line : LineOf cs) (column : Nat) : Prop :=
  let start := line.column l.span.start
  let stop := if line.Reaches l.span.stop then line.column l.span.stop else line.width + 1
  start ≤ column ∧ column < max stop (start + 1) ∧ column ≤ line.width + 2

instance (l : Label) (line : LineOf cs) (column : Nat) : Decidable (l.Covers line column) :=
  inferInstanceAs (Decidable (_ ∧ _))

/-- What a column shows below a line: that a secondary label covers it, or else a primary one. -/
def LineOf.symbolAt (line : LineOf cs) (labels : List Label) (column : Nat) : Char :=
  if ∃ l ∈ labels, l.role = .secondary ∧ l.Covers line column then '-'
  else if ∃ l ∈ labels, l.role = .primary ∧ l.Covers line column then '^'
  else ' '

/-- The message of `a` comes before that of `b`, as far as roles and columns tell. -/
def Label.NotAfter (a b : Label) : Prop :=
  a.role = .primary ∧ b.role = .secondary ∨ a.role = b.role ∧ a.span.start ≤ b.span.start

/-- Primary labels come first, and labels of one role in the order of their starts.  Labels that
stand in this order already keep it. -/
structure Label.InOrder (labels ordered : List Label) : Prop where
  perm : ordered.Perm labels
  sorted : ordered.Pairwise NotAfter
  stable : ∀ part : List Label, part.Sublist labels → part.Pairwise NotAfter → part.Sublist ordered

/-! ## The text of a snippet -/

/-- What stands in front of the rows below a source line. -/
def marginText (width : Nat) : List Char := List.replicate width ' ' ++ [' ', '|', ' ']

/-- The row of `cells` below a source line, without colour. -/
def cellsText (width : Nat) (cells : List Char) : List Char := marginText width ++ cells ++ ['\n']

/-- The rows of a message that hangs below its column. -/
def hangingText (width : Nat) (message : Nat × String) : List (List Char) :=
  let pad := List.replicate (message.1 - 1) ' '
  [cellsText width (pad ++ ['|']), cellsText width (pad ++ message.2.toList)]

/-- A line on which labels start, the labels, and the cells below the line. -/
structure ShownLine (source : String) where
  line : LineOf source.toList
  labels : List Label
  cells : List Char

namespace ShownLine

/-- The messages of the labels, with the columns that the labels start at. -/
def messages (s : ShownLine source) : List (Nat × String) :=
  s.labels.filterMap fun l => l.message.map fun text => (s.line.column l.span.start, text)

/-- The source line, its cells with the first message, and the other messages below. -/
def rows (width : Nat) (s : ShownLine source) : List (List Char) :=
  sourceText width s.line.number s.line.text ::
    match s.messages with
    | [] => [cellsText width s.cells]
    | first :: others => markText width s.cells first.2 :: others.flatMap (hangingText width)

/-- All labels of `d` that start on the line are shown below it. -/
structure Shows (s : ShownLine source) (d : Diagnostic) : Prop where
  inOrder : Label.InOrder (d.labelsOn s.line) s.labels
  cells_ne_nil : s.cells ≠ []
  cell_eq : ∀ column, 0 < column →
    s.cells[column - 1]?.getD ' ' = s.line.symbolAt s.labels column

end ShownLine

/-- The rows of lines, with a row of dots where lines are left out after `previous`. -/
def snippetText (width : Nat) (previous : Option Nat) : List (ShownLine source) → List (List Char)
  | [] => []
  | s :: shown =>
    (if previous.any (· + 1 < s.line.number) then
        [List.replicate width ' ' ++ ['.', '.', '.', '\n']] else [])
      ++ s.rows width ++ snippetText width (some s.line.number) shown

/-- The rows in front of a snippet that tell the position of a diagnostic, if it has a place. -/
def placeText (width : Nat) (file : String) : Option Position → List (List Char)
  | none => []
  | some p =>
    [[' ', ' ', '-', '-', '>', ' '] ++ file.toList
        ++ ':' :: s!"{p.line.toNat}:{p.column.toNat}".toList ++ ['\n'],
      List.replicate width ' ' ++ [' ', '|', '\n']]

/-- The plain rendering of `d` shows the lines that its labels start on, each once and in order, and
all the labels on each of them. -/
structure Diagnostic.ShowsLabels (d : Diagnostic) (source file : String) (width : Nat)
    (shown : List (ShownLine source)) : Prop where
  sorted : shown.Pairwise (·.line.number < ·.line.number)
  mem_iff : ∀ line : LineOf source.toList,
    (∃ s ∈ shown, s.line.number = line.number) ↔ ∃ l ∈ d.labels, line.Holds l.span.start
  shows : ∀ s ∈ shown, s.Shows d
  render_eq : ∃ place, d.position? (.ofSource source) = some place ∧
    d.render? (.ofSource source) file false = some (String.ofList (d.headerRow.write false ++
      (placeText width file place ++ snippetText width none shown).flatten ++
      d.footerRows.flatMap (Row.write false)))

/-! ## Rows without colour -/

namespace Excerpt

variable {gutter width : Nat} {marks : List Mark}

theorem write_placeRow (position : String) :
    Row.write false [.plain "  ", .styled .blue "-->", .plain s!" {file}:{position}"] =
      [' ', ' ', '-', '-', '>', ' '] ++ file.toList ++ ':' :: position.toList ++ ['\n'] := by
  have hself (s : String) : toString s = s := rfl
  simp [Row.write_false, Piece.plain, Piece.styled, hself]

theorem write_margin (gutter : Nat) :
    (margin gutter).write false = List.replicate (gutter + 1) ' ' ++ [' ', '|', '\n'] := by
  simp [margin, blanks, Row.write_false, Piece.plain, Piece.styled]

theorem write_drawn_alone : Row.write false (drawn gutter width marks) =
    cellsText (gutter + 1) (underline width (marks.mergeSort Mark.le)) := by
  simp [drawn, margin, blanks, Row.write_false, Piece.plain, Piece.styled, cellsText, marginText]

theorem write_hanging (m : Mark × String) :
    (hanging gutter m).map (Row.write false) = hangingText (gutter + 1) (m.1.column, m.2) := by
  simp [hanging, margin, blanks, Row.write_false, Piece.plain, Piece.styled, hangingText, cellsText,
    marginText]

theorem write_markRows {m : Mark} (h : StartOnLine width marks) (hm : m ∈ marks) :
    (markRows gutter width marks).map (Row.write false) =
      match (messages marks).map fun m => (m.1.column, m.2) with
      | [] => [cellsText (gutter + 1) (underline width (marks.mergeSort Mark.le))]
      | first :: others =>
        markText (gutter + 1) (underline width (marks.mergeSort Mark.le)) first.2 ::
          others.flatMap (hangingText (gutter + 1)) := by
  rw [markRows_eq h hm]
  cases messages marks with
  | nil => rw [List.map_nil, List.map_singleton, write_drawn_alone]
  | cons first others =>
    rw [List.map_cons, List.map_cons, write_drawn, List.map_flatMap]
    dsimp only
    rw [List.flatMap_map]
    simp only [write_hanging]

end Excerpt

/-! ## Marks of labels -/

section Marks

variable {l : Label} {line : LineOf source.toList} (hsize : source.utf8ByteSize < 2 ^ 32 - 1)
include hsize

namespace Mark

theorem covers_ofLabel (column : Nat) (h : line.Holds l.span.start)
    (hstop : l.span.stop < 2 ^ 32 - 1) :
    (ofLabel (.ofSource source) l).Covers column ∧ column ≤ line.width + 2 ↔
      l.Covers line column := by
  rw [Covers, column_ofLabel hsize h, stop_ofLabel hsize hstop h, and_assoc]
  rfl

theorem le_ofLabel_iff {a b : Label} (ha : line.Holds a.span.start) (hb : line.Holds b.span.start) :
    (ofLabel (.ofSource source) a).le (ofLabel (.ofSource source) b) ↔ a.NotAfter b := by
  have hstart := ha.1
  have hstart' := hb.1
  rw [le, column_ofLabel hsize ha, column_ofLabel hsize hb, Label.NotAfter]
  have hrole (l : Label) : (ofLabel (.ofSource source) l).role = l.role := rfl
  rw [hrole, hrole]
  cases a.role <;> cases b.role <;> simp <;> omega

end Mark

/-- Sorted by their marks, the labels of a line are in order. -/
theorem Label.inOrder_mergeSort (line : LineOf source.toList) {labels : List Label}
    (h : ∀ l ∈ labels, line.Holds l.span.start) : InOrder labels (labels.mergeSort fun a b =>
      (Mark.ofLabel (.ofSource source) a).le (Mark.ofLabel (.ofSource source) b)) := by
  have htrans (a b c : Label) := Mark.le_trans (.ofLabel (.ofSource source) a)
    (.ofLabel (.ofSource source) b) (.ofLabel (.ofSource source) c)
  have htotal (a b : Label) := Mark.le_total (.ofLabel (.ofSource source) a)
    (.ofLabel (.ofSource source) b)
  refine ⟨List.mergeSort_perm _ _, ?_, fun part hpart hsorted => ?_⟩
  · refine (List.pairwise_mergeSort htrans htotal labels).imp_of_mem fun ha hb hle => ?_
    exact (Mark.le_ofLabel_iff hsize (h _ (List.mem_mergeSort.1 ha))
      (h _ (List.mem_mergeSort.1 hb))).1 hle
  · refine List.sublist_mergeSort htrans htotal (hsorted.imp_of_mem fun ha hb hle => ?_) hpart
    exact (Mark.le_ofLabel_iff hsize (h _ (hpart.subset ha)) (h _ (hpart.subset hb))).2 hle

end Marks

/-! ## Lines of a diagnostic -/

namespace Diagnostic

/-- A line with the labels that start on it in order, and its underline. -/
def shownLine (d : Diagnostic) (line : LineOf source.toList) : ShownLine source where
  line := line
  labels := (d.labelsOn line).mergeSort fun a b =>
    (Mark.ofLabel (.ofSource source) a).le (Mark.ofLabel (.ofSource source) b)
  cells := underline line.width ((d.marksOn line).mergeSort Mark.le)

section Layout

variable {d : Diagnostic} (hsize : source.utf8ByteSize < 2 ^ 32 - 1)
  (hlabels : ∀ l ∈ d.labels, l.span.start ≤ source.utf8ByteSize ∧ l.span.stop < 2 ^ 32 - 1)
  (line : LineOf source.toList)
include hsize hlabels

theorem ofLabel_mem_marksOn {l : Label} (hl : l ∈ d.labels) (h : line.Holds l.span.start) :
    Mark.ofLabel (.ofSource source) l ∈ d.marksOn line :=
  (mem_marksOn hsize (fun l hl => (hlabels l hl).1) line).2 ⟨l, hl, h, rfl⟩

theorem startOnLine_marksOn : Excerpt.StartOnLine line.width (d.marksOn line) := by
  intro m hm
  obtain ⟨l, hl, h, rfl⟩ := (mem_marksOn hsize (fun l hl => (hlabels l hl).1) line).1 hm
  have hend : l.span.start ≤ line.start + line.width := h.2
  have hbegin := h.1
  rw [Mark.column_ofLabel hsize h, Mark.stop_ofLabel hsize (hlabels l hl).2 h]
  omega

theorem messages_shownLine : (d.shownLine line).messages =
    (Excerpt.messages (d.marksOn line)).map fun m => (m.1.column, m.2) := by
  have hmap : (d.marksOn line).mergeSort Mark.le =
      (d.shownLine line).labels.map (Mark.ofLabel (.ofSource source)) := by
    rw [marksOn_eq hsize fun l hl => (hlabels l hl).1]
    exact (List.map_mergeSort (f := Mark.ofLabel (.ofSource source)) fun _ _ _ _ => rfl).symm
  rw [Excerpt.messages, hmap, List.filterMap_map, List.map_filterMap, ShownLine.messages]
  refine List.filterMap_congr fun l hl => ?_
  have hholds := (mem_labelsOn.1 (List.mem_mergeSort.1 hl)).2
  have hmessage : (Mark.ofLabel (.ofSource source) l).message = l.message := rfl
  rw [Function.comp_apply, hmessage, Option.map_map]
  cases l.message with
  | none => rfl
  | some text =>
    rw [Option.map_some, Option.map_some, Function.comp_apply, Mark.column_ofLabel hsize hholds]
    rfl

/-- A column is covered by a mark where it is covered by a label. -/
theorem exists_covers_labels_iff (role : LabelRole) (column : Nat) :
    (∃ m ∈ d.marksOn line, m.role = role ∧ m.Covers column) ∧ column ≤ line.width + 2 ↔
      ∃ l ∈ (d.shownLine line).labels, l.role = role ∧ l.Covers line column := by
  have hmarks (m : Mark) := mem_marksOn (m := m) hsize (fun l hl => (hlabels l hl).1) line
  have hcovers (l : Label) (hl : l ∈ d.labels) (h : line.Holds l.span.start) :=
    Mark.covers_ofLabel hsize column h (hlabels l hl).2
  constructor
  · rintro ⟨⟨m, hm, hrole, hc⟩, hcolumn⟩
    obtain ⟨l, hl, h, rfl⟩ := (hmarks m).1 hm
    refine ⟨l, ?_, hrole, (hcovers l hl h).1 ⟨hc, hcolumn⟩⟩
    exact List.mem_mergeSort.2 (mem_labelsOn.2 ⟨hl, h⟩)
  · rintro ⟨l, hl, hrole, hc⟩
    obtain ⟨hl, h⟩ := mem_labelsOn.1 (List.mem_mergeSort.1 hl)
    obtain ⟨hc, hcolumn⟩ := (hcovers l hl h).2 hc
    exact ⟨⟨_, (hmarks _).2 ⟨l, hl, h, rfl⟩, hrole, hc⟩, hcolumn⟩

/-- The cells of a line show the labels that cover them. -/
theorem getD_cells_shownLine {column : Nat} (hcolumn : 0 < column) :
    (d.shownLine line).cells[column - 1]?.getD ' ' =
      line.symbolAt (d.shownLine line).labels column := by
  have hlabelled := exists_covers_labels_iff hsize hlabels line
  have hstart := startOnLine_marksOn hsize hlabels line
  have hpred : column - 1 + 1 = column := by omega
  have hcells := getD_underline line.width (fun m hm => (hstart m hm).1) (column - 1)
  rw [hpred] at hcells
  simp only [LineOf.symbolAt, ← hlabelled]
  refine hcells.trans ?_
  by_cases hwidth : column ≤ line.width + 2
  · rw [if_pos (by omega), symbolAt]
    simp only [hwidth, and_true]
    refine ite_congr rfl (fun _ => rfl) fun hnone => ?_
    -- Where no secondary mark is, what covers the column is primary.
    have hprimary : (∃ m ∈ d.marksOn line, m.Covers column) ↔
        ∃ m ∈ d.marksOn line, m.role = .primary ∧ m.Covers column := by
      constructor
      · rintro ⟨m, hm, hc⟩
        cases hrole : m.role with
        | primary => exact ⟨m, hm, hrole, hc⟩
        | secondary => exact absurd ⟨m, hm, hrole, hc⟩ hnone
      · rintro ⟨m, hm, -, hc⟩
        exact ⟨m, hm, hc⟩
    simp only [hprimary]
  · rw [if_neg (by omega), if_neg fun h => hwidth h.2, if_neg fun h => hwidth h.2]

theorem shows_shownLine {l : Label} (hl : l ∈ d.labels) (h : line.Holds l.span.start) :
    (d.shownLine line).Shows d := by
  have hmark := ofLabel_mem_marksOn hsize hlabels line hl h
  exact ⟨Label.inOrder_mergeSort hsize line fun _ hl => (mem_labelsOn.1 hl).2,
    Excerpt.underline_ne_nil (startOnLine_marksOn hsize hlabels line) hmark,
    fun _ => getD_cells_shownLine hsize hlabels line⟩

/-- The rows of a line on which a label starts. -/
theorem write_lineRows {l : Label} (hl : l ∈ d.labels) (h : line.Holds l.span.start)
    (gutter : Nat) :
    (Excerpt.lineRows (.ofSource source) gutter (d.labels.map (Mark.ofLabel (.ofSource source)))
      line.number).map (Row.write false) = (d.shownLine line).rows (gutter + 1) := by
  have hstart := startOnLine_marksOn hsize hlabels line
  have hmark := ofLabel_mem_marksOn hsize hlabels line hl h
  rw [Excerpt.lineRows_eq, line.text?_number hsize, Option.getD_some, ← utf8Length_toList,
    String.toList_ofList, List.map_cons, Excerpt.write_sourceRow, String.toList_ofList]
  refine congrArg _ ((Excerpt.write_markRows hstart hmark).trans ?_)
  rw [← messages_shownLine hsize hlabels]
  rfl

omit hsize hlabels

/-- The header, the place, the lines and the footer of a diagnostic, without colour. -/
theorem flatten_rows_eq (ls : Lines) (file : String) (d : Diagnostic) :
    let marks := d.labels.map (Mark.ofLabel ls)
    let numbers := Excerpt.lineNumbers marks
    let gutter := max 2 (toString (numbers.getLast?.getD 1)).length
    ((d.rows ls file).map (Row.write false)).flatten = d.headerRow.write false ++
      (placeText (gutter + 1) file (d.place?.map fun span => ls.position span.start) ++
        (Excerpt.linesRows ls gutter marks none numbers).map (Row.write false)).flatten ++
      d.footerRows.flatMap (Row.write false) := by
  intro marks numbers gutter
  rw [rows]
  cases hplace : d.place? with
  | none =>
    have hnumbers : numbers = [] := List.eq_nil_iff_forall_not_mem.2 fun k hk => by
      obtain ⟨m, hm, -⟩ := Excerpt.mem_lineNumbers_iff.1 hk
      simp [marks, place?_eq_none_iff.1 hplace] at hm
    simp [hnumbers, placeText, Excerpt.linesRows, List.flatMap_def]
  | some span =>
    dsimp only
    rw [Excerpt.rows, Option.map_some, placeText]
    simp only [List.map_cons, List.map_append, Excerpt.write_placeRow, Excerpt.write_margin,
      List.flatten_cons, List.flatten_append, List.cons_append, List.nil_append, List.append_assoc,
      List.flatMap_def]
    rfl

/-- Lines whose rows are those of shown lines are written as a snippet. -/
theorem exists_snippetText {gutter : Nat} {marks : List Mark} {numbers : List Nat}
    (h : ∀ k ∈ numbers, ∃ s : ShownLine source, s.line.number = k ∧ s.Shows d ∧
      (Excerpt.lineRows (.ofSource source) gutter marks k).map (Row.write false) =
        s.rows (gutter + 1)) (previous : Option Nat) :
    ∃ shown : List (ShownLine source), shown.map (·.line.number) = numbers ∧
      (∀ s ∈ shown, s.Shows d) ∧
      (Excerpt.linesRows (.ofSource source) gutter marks previous numbers).map (Row.write false) =
        snippetText (gutter + 1) previous shown := by
  induction numbers generalizing previous with
  | nil => exact ⟨[], rfl, List.forall_mem_nil _, rfl⟩
  | cons k numbers ih =>
    obtain ⟨⟨s, hnumber, hshows, hrows⟩, hrest⟩ := List.forall_mem_cons.1 h
    obtain ⟨shown, hmap, hall, htext⟩ := ih hrest (some k)
    refine ⟨s :: shown, by rw [List.map_cons, hnumber, hmap], List.forall_mem_cons.2 ⟨hshows, hall⟩,
      ?_⟩
    rw [Excerpt.linesRows, List.map_append, List.map_append, hrows, htext, snippetText, hnumber]
    congr 2
    split
    · simp [Row.write_false, Piece.plain, Piece.styled, blanks, List.replicate_succ']
    · rfl

include hsize hlabels

/-- No label of a diagnostic vanishes from its plain rendering, and no message. -/
theorem render_labels (file : String) :
    ∃ (width : Nat) (shown : List (ShownLine source)), d.ShowsLabels source file width shown := by
  let marks := d.labels.map (Mark.ofLabel (.ofSource source))
  let numbers := Excerpt.lineNumbers marks
  let gutter := max 2 (toString (numbers.getLast?.getD 1)).length
  have hnumbers (k : Nat) : k ∈ numbers ↔
      ∃ l ∈ d.labels, (Mark.ofLabel (.ofSource source) l).line = k := by
    rw [Excerpt.mem_lineNumbers_iff]
    simp [marks]
  have hrows : ∀ k ∈ numbers, ∃ s : ShownLine source, s.line.number = k ∧ s.Shows d ∧
      (Excerpt.lineRows (.ofSource source) gutter marks k).map (Row.write false) =
        s.rows (gutter + 1) := by
    intro k hk
    obtain ⟨l, hl, hline⟩ := (hnumbers k).1 hk
    obtain ⟨line, hholds⟩ := LineOf.exists_of_le (hlabels l hl).1
    have hnumber := (Mark.line_ofLabel_eq_iff hsize line (hlabels l hl).1).2 hholds
    obtain rfl : line.number = k := hnumber.symm.trans hline
    exact ⟨d.shownLine line, rfl, shows_shownLine hsize hlabels line hl hholds,
      write_lineRows hsize hlabels line hl hholds gutter⟩
  obtain ⟨shown, hmap, hshows, htext⟩ := exists_snippetText hrows none
  refine ⟨gutter + 1, shown, ?_, fun line => ?_, hshows, ?_⟩
  · have hsorted : (shown.map (·.line.number)).Pairwise (· < ·) :=
      hmap ▸ Excerpt.pairwise_lineNumbers marks
    exact List.pairwise_map.1 hsorted
  · rw [← List.mem_map, hmap, hnumbers]
    exact exists_congr fun l => and_congr_right fun hl =>
      Mark.line_ofLabel_eq_iff hsize line (hlabels l hl).1
  · have hends : ∀ l ∈ d.labels, l.span.start < 2 ^ 32 - 1 ∧ l.span.stop < 2 ^ 32 - 1 :=
      fun l hl => ⟨Nat.lt_of_le_of_lt (hlabels l hl).1 hsize, (hlabels l hl).2⟩
    refine ⟨_, position?_eq_some hends, ?_⟩
    rw [render?_false, plainRows?, rows?_eq_some hends, Option.map_some, Option.map_some,
      flatten_rows_eq, ← htext]

end Layout

/-- Labels that overlap, one that ends in front of its start and one that ends behind the text. -/
theorem render_labels_reversed :
    let source := "é := 1;\n\nlast"
    let d : Diagnostic := ⟨.error, none, "odd",
      [⟨⟨5, 2⟩, .secondary, some "back"⟩, ⟨⟨3, 20⟩, .primary, none⟩,
        ⟨⟨10, 40⟩, .primary, some "end"⟩, ⟨⟨14, 14⟩, .secondary, some "behind"⟩], [], none⟩
    source.utf8ByteSize < 2 ^ 32 - 1 ∧
      (∀ l ∈ d.labels, l.span.start ≤ source.utf8ByteSize ∧ l.span.stop < 2 ^ 32 - 1) ∧
      ∃ (width : Nat) (shown : List (ShownLine source)),
        d.ShowsLabels source "odd.tri" width shown := by
  intro source d
  have hsize : source.utf8ByteSize < 2 ^ 32 - 1 := by decide +kernel
  have hlabels : ∀ l ∈ d.labels,
      l.span.start ≤ source.utf8ByteSize ∧ l.span.stop < 2 ^ 32 - 1 := by decide +kernel
  exact ⟨hsize, hlabels, render_labels hsize hlabels "odd.tri"⟩

end Diagnostic

end TriLang
