import Mathlib.Data.List.DropRight
import Mathlib.Data.List.SplitBy
import TriLang.Diagnostic.Excerpt

/-!
# Marks in an excerpt

What is seen of the marks of a diagnostic.  Each column of an underline shows the marks over it,
secondary ones on top, each marked line is shown with its underline below it, and each message
ends a row of its own.
-/

namespace TriLang

/-! ## Columns -/

namespace Mark

/-- The mark lies over a column. -/
def Covers (m : Mark) (column : Nat) : Prop := m.column ≤ column ∧ column < m.stop

instance (m : Mark) (column : Nat) : Decidable (m.Covers column) :=
  inferInstanceAs (Decidable (_ ∧ _))

theorem le_trans (a b c : Mark) (hab : le a b) (hbc : le b c) : le a c := by
  simp only [le] at *
  cases ha : a.role <;> cases hb : b.role <;> cases hc : c.role <;> simp_all <;> omega

theorem le_total (a b : Mark) : le a b || le b a := by
  simp only [le]
  cases ha : a.role <;> cases hb : b.role <;> simp <;> omega

/-- Only a primary mark comes before a primary one. -/
theorem le_primary {a b : Mark} (h : le a b) (hb : b.role = .primary) : a.role = .primary := by
  simp only [le] at h
  cases ha : a.role <;> simp_all

end Mark

/-- What is seen of marks in a column: secondary ones, or else primary ones, or else nothing. -/
def symbolAt (marks : List Mark) (column : Nat) : Char :=
  if ∃ m ∈ marks, m.role = .secondary ∧ m.Covers column then '-'
  else if ∃ m ∈ marks, m.Covers column then '^'
  else ' '

section Symbols

variable {marks : List Mark} {column : Nat}

theorem symbolAt_eq_dash_iff :
    symbolAt marks column = '-' ↔ ∃ m ∈ marks, m.role = .secondary ∧ m.Covers column := by
  rw [symbolAt]
  split
  case isTrue h => exact ⟨fun _ => h, fun _ => rfl⟩
  case isFalse h =>
    refine ⟨fun hc => ?_, fun h' => absurd h' h⟩
    split at hc <;> exact absurd hc (by decide)

theorem symbolAt_eq_caret_iff :
    symbolAt marks column = '^' ↔ (∃ m ∈ marks, m.role = .primary ∧ m.Covers column) ∧
      ∀ m ∈ marks, m.Covers column → m.role = .primary := by
  rw [symbolAt]
  split
  case isTrue h =>
    obtain ⟨m, hm, hrole, hc⟩ := h
    refine ⟨fun hc => absurd hc (by decide), fun h => ?_⟩
    simp [h.2 m hm hc] at hrole
  case isFalse h =>
    have hall : ∀ m ∈ marks, m.Covers column → m.role = .primary := by
      intro m hm hc
      cases hrole : m.role with
      | primary => rfl
      | secondary => exact absurd ⟨m, hm, hrole, hc⟩ h
    split
    case isTrue h =>
      obtain ⟨m, hm, hc⟩ := h
      exact ⟨fun _ => ⟨⟨m, hm, hall m hm hc, hc⟩, hall⟩, fun _ => rfl⟩
    case isFalse h =>
      refine ⟨fun hc => absurd hc (by decide), ?_⟩
      rintro ⟨⟨m, hm, -, hc⟩, -⟩
      exact absurd ⟨m, hm, hc⟩ h

end Symbols

namespace Mark

variable {marks : List Mark}

theorem getElem?_draw (cells : List Char) {m : Mark} (hm : 0 < m.column) (i : Nat) :
    (draw cells m)[i]? = cells[i]?.map fun cell =>
      if m.Covers (i + 1) then m.role.symbol else cell := by
  have hcovers : m.column - 1 ≤ i ∧ i < m.stop - 1 ↔ m.Covers (i + 1) := by
    rw [Covers]
    omega
  simp only [draw, List.getElem?_mapIdx, hcovers]

/-- A cell shows the last mark drawn over it. -/
theorem getElem?_foldl_draw (cells : List Char) (hm : ∀ m ∈ marks, 0 < m.column) (i : Nat) :
    (marks.foldl draw cells)[i]? = cells[i]?.map fun cell =>
      ((marks.filter (·.Covers (i + 1))).getLast?.map (·.role.symbol)).getD cell := by
  induction marks generalizing cells with
  | nil => simp
  | cons m marks ih =>
    obtain ⟨hm, hms⟩ := List.forall_mem_cons.1 hm
    rw [List.foldl_cons, ih _ hms, getElem?_draw _ hm, Option.map_map]
    congr 1
    funext cell
    rw [List.filter_cons, Function.comp_apply]
    by_cases hc : m.Covers (i + 1)
    · rw [if_pos hc, if_pos (decide_eq_true hc), List.getLast?_cons]
      cases (marks.filter (·.Covers (i + 1))).getLast? <;> rfl
    · rw [if_neg hc, if_neg (by simpa using hc)]

/-- Where secondary marks are drawn after primary ones, they lie on top. -/
theorem symbol_getLast?_covering (h : marks.Pairwise (le · ·)) (column : Nat) :
    ((marks.filter (·.Covers column)).getLast?.map (·.role.symbol)).getD ' ' =
      symbolAt marks column := by
  have hmem : ∀ m, m ∈ marks.filter (·.Covers column) ↔ m ∈ marks ∧ m.Covers column := by simp
  have hsorted := h.filter (fun m => decide (m.Covers column))
  rw [symbolAt]
  rcases (marks.filter (·.Covers column)).eq_nil_or_concat' with hnil | ⟨front, last, hlast⟩
  · have hnone : ∀ m ∈ marks, ¬ m.Covers column := fun m hm hc => by
      simpa [hnil] using (hmem m).2 ⟨hm, hc⟩
    rw [hnil, if_neg fun ⟨m, hm, _, hc⟩ => hnone m hm hc, if_neg fun ⟨m, hm, hc⟩ => hnone m hm hc]
    rfl
  · rw [hlast] at hmem hsorted
    obtain ⟨hlastmem, hlastcovers⟩ := (hmem last).1 (by simp)
    rw [hlast, List.getLast?_concat, Option.map_some, Option.getD_some]
    cases hrole : last.role with
    | primary =>
      -- What is drawn before a primary mark is primary too.
      have hprimary : ∀ m ∈ marks, m.Covers column → m.role = .primary := by
        intro m hm hc
        rcases List.mem_append.1 ((hmem m).2 ⟨hm, hc⟩) with hfront | hm
        · exact le_primary ((List.pairwise_append.1 hsorted).2.2 m hfront last (by simp)) hrole
        · rw [List.mem_singleton.1 hm, hrole]
      rw [if_neg, if_pos ⟨last, hlastmem, hlastcovers⟩]
      · rfl
      · rintro ⟨m, hm, hs, hc⟩
        rw [hprimary m hm hc] at hs
        cases hs
    | secondary => rw [if_pos ⟨last, hlastmem, hrole, hlastcovers⟩]; rfl

end Mark

theorem symbolAt_congr {xs ys : List Mark} (h : ∀ m, m ∈ xs ↔ m ∈ ys) (column : Nat) :
    symbolAt xs column = symbolAt ys column := by
  simp only [symbolAt, h]

/-- What is dropped at the end is read as `x` all the same. -/
theorem getD_rdropWhile {α : Type} [BEq α] [LawfulBEq α] (x : α) (xs : List α) (i : Nat) :
    (xs.rdropWhile (· == x))[i]?.getD x = xs[i]?.getD x := by
  conv_rhs => rw [← List.rdropWhile_append_rtakeWhile (p := (· == x)) (l := xs),
    List.getElem?_append]
  split
  case isTrue => rfl
  case isFalse h =>
    rw [List.getElem?_eq_none (Nat.le_of_not_lt h), Option.getD_none]
    rcases hdropped : (xs.rtakeWhile (· == x))[i - (xs.rdropWhile (· == x)).length]? with _ | y
    · rfl
    · have hmem := List.mem_of_getElem? hdropped
      exact (eq_of_beq (List.mem_rtakeWhile_imp (p := (· == x)) hmem)).symm

section Underlines

variable {width : Nat} {marks : List Mark}

/-- The underline of sorted marks shows in each column of its width what is seen of them. -/
theorem getD_underline (width : Nat) (hm : ∀ m ∈ marks, 0 < m.column) (i : Nat) :
    (underline width (marks.mergeSort Mark.le))[i]?.getD ' ' =
      if i < width + 2 then symbolAt marks (i + 1) else ' ' := by
  have hsorted := List.pairwise_mergeSort Mark.le_trans Mark.le_total marks
  have hmem : ∀ m, m ∈ marks.mergeSort Mark.le ↔ m ∈ marks := fun m => List.mem_mergeSort
  have hunderline : underline width (marks.mergeSort Mark.le) =
      ((marks.mergeSort Mark.le).foldl Mark.draw
        (List.replicate (width + 2) ' ')).rdropWhile (· == ' ') := rfl
  rw [hunderline, getD_rdropWhile, Mark.getElem?_foldl_draw _ (fun m h => hm m ((hmem m).1 h)),
    List.getElem?_replicate]
  split
  · rw [Option.map_some, Option.getD_some, Mark.symbol_getLast?_covering hsorted,
      symbolAt_congr hmem]
  · rfl

theorem getElem?_underline_iff (hm : ∀ m ∈ marks, 0 < m.column ∧ m.stop ≤ width + 2) {i : Nat}
    {c : Char} (hc : c ≠ ' ') :
    (underline width (marks.mergeSort Mark.le))[i]? = some c ↔ symbolAt marks (i + 1) = c := by
  have hcell : (underline width (marks.mergeSort Mark.le))[i]? = some c ↔
      (underline width (marks.mergeSort Mark.le))[i]?.getD ' ' = c := by
    cases (underline width (marks.mergeSort Mark.le))[i]? with
    | none => simpa using hc.symm
    | some x => simp
  have hbehind : ¬ i < width + 2 → symbolAt marks (i + 1) = ' ' := by
    intro hi
    have hnone : ∀ m ∈ marks, ¬ m.Covers (i + 1) := fun m h hcovers => by
      have := (hm m h).2
      have := hcovers.2
      omega
    rw [symbolAt, if_neg fun ⟨m, h, _, hcovers⟩ => hnone m h hcovers,
      if_neg fun ⟨m, h, hcovers⟩ => hnone m h hcovers]
  rw [hcell, getD_underline width (fun m h => (hm m h).1) i]
  split
  case isTrue => rfl
  case isFalse hi => rw [hbehind hi]

end Underlines

/-! ## Rows without colour -/

/-- The text of a row without colour. -/
def Row.text (r : Row) : List Char := r.flatMap Piece.text

namespace Row

variable {p : Piece} {r s : Row}

theorem write_false (r : Row) : r.write false = r.text ++ ['\n'] := by
  have hpiece : Piece.write false = Piece.text := by
    funext ⟨style, text⟩
    cases style <;> rfl
  rw [write, text, hpiece]

@[simp] theorem text_nil : text [] = [] := rfl

@[simp] theorem text_cons : text (p :: r) = p.text ++ text r := List.flatMap_cons

@[simp] theorem text_append : text (r ++ s) = text r ++ text s := List.flatMap_append

end Row

namespace Excerpt

variable {ls : Lines} {gutter width line : Nat} {marks : List Mark} {m : Mark}

@[simp] theorem text_underlineRow (cells : List Char) : Row.text (underlineRow cells) = cells := by
  conv_rhs => rw [← List.flatten_splitBy (· == ·) cells]
  rw [Row.text, underlineRow, List.flatMap_map, List.flatMap_def]
  congr 1
  conv_rhs => rw [← List.map_id (List.splitBy _ cells)]
  refine List.map_congr_left fun run _ => ?_
  split <;> rfl

/-! ## Underlines and messages -/

/-- All marks are on a line of `width` bytes, or just behind it. -/
def OnLine (width : Nat) (marks : List Mark) : Prop :=
  ∀ m ∈ marks, 0 < m.column ∧ m.column < m.stop ∧ m.stop ≤ width + 2

/-- All marks start on a line of `width` bytes, or just behind it. -/
def StartOnLine (width : Nat) (marks : List Mark) : Prop :=
  ∀ m ∈ marks, 0 < m.column ∧ m.column < m.stop ∧ m.column ≤ width + 2

theorem OnLine.startOnLine (h : OnLine width marks) : StartOnLine width marks :=
  fun m hm => ⟨(h m hm).1, (h m hm).2.1, Nat.le_of_lt (Nat.lt_of_lt_of_le (h m hm).2.1 (h m hm).2.2)⟩

/-- The marks of a line that have messages, in the order of the messages. -/
def messages (marks : List Mark) : List (Mark × String) :=
  (marks.mergeSort Mark.le).filterMap fun m => m.message.map fun text => (m, text)

/-- The underline of a line and what stands in front of it. -/
def drawn (gutter width : Nat) (marks : List Mark) : Row :=
  margin gutter ++ [.plain " "] ++ underlineRow (underline width (marks.mergeSort Mark.le))

theorem underline_ne_nil (h : StartOnLine width marks) (hm : m ∈ marks) :
    underline width (marks.mergeSort Mark.le) ≠ [] := by
  obtain ⟨hpos, hcovers, hstart⟩ := h m hm
  have hcolumn : m.column - 1 + 1 = m.column := by omega
  have hcell := getD_underline width (fun n hn => (h n hn).1) (m.column - 1)
  intro hnil
  rw [hnil, List.getElem?_nil, Option.getD_none, if_pos (by omega), hcolumn, symbolAt] at hcell
  by_cases hdash : ∃ n ∈ marks, n.role = .secondary ∧ n.Covers m.column
  · rw [if_pos hdash] at hcell
    exact absurd hcell (by decide)
  · rw [if_neg hdash, if_pos ⟨m, hm, Nat.le_refl _, hcovers⟩] at hcell
    exact absurd hcell (by decide)

theorem markRows_eq (h : StartOnLine width marks) (hm : m ∈ marks) :
    markRows gutter width marks =
      match messages marks with
      | [] => [drawn gutter width marks]
      | first :: others =>
        (drawn gutter width marks ++ [.plain " ", .styled first.1.role.style first.2])
          :: others.flatMap (hanging gutter) := by
  have hcells := underline_ne_nil h hm
  rw [markRows]
  dsimp only
  rw [if_neg (by simpa using hcells)]
  rfl

/-- Every message ends a row in the style of its mark. -/
theorem exists_mem_markRows (gutter : Nat) (h : OnLine width marks) (hm : m ∈ marks) {text : String}
    (ht : m.message = some text) :
    ∃ row ∈ markRows gutter width marks, row.getLast? = some (.styled m.role.style text) := by
  have hmem : (m, text) ∈ messages marks :=
    List.mem_filterMap.2 ⟨m, List.mem_mergeSort.2 hm, by simp [ht]⟩
  rw [markRows_eq h.startOnLine hm]
  rcases hmessages : messages marks with _ | ⟨first, others⟩
  · simp [hmessages] at hmem
  · rw [hmessages] at hmem
    rcases List.mem_cons.1 hmem with rfl | hothers
    · exact ⟨_, List.mem_cons_self, by simp⟩
    · refine ⟨margin gutter ++ [.plain (" " ++ blanks (m.column - 1)), .styled m.role.style text],
        List.mem_cons_of_mem _ (List.mem_flatMap.2 ⟨_, hothers, ?_⟩), by simp⟩
      exact List.mem_cons_of_mem _ List.mem_cons_self

/-- The only primary mark comes first. -/
theorem exists_mergeSort_eq (hm : m ∈ marks) (hrole : m.role = .primary)
    (honly : ∀ n ∈ marks, n.role = .primary → n = m) :
    ∃ others, marks.mergeSort Mark.le = m :: others := by
  have hsorted := List.pairwise_mergeSort Mark.le_trans Mark.le_total marks
  have hmem : ∀ n, n ∈ marks.mergeSort Mark.le ↔ n ∈ marks := fun n => List.mem_mergeSort
  rcases hms : marks.mergeSort Mark.le with _ | ⟨first, others⟩
  · exact absurd ((hmem m).2 hm) (by simp [hms])
  · rw [hms] at hmem hsorted
    have hprimary : first.role = .primary := by
      rcases List.mem_cons.1 ((hmem m).2 hm) with rfl | hothers
      · exact hrole
      · exact Mark.le_primary ((List.pairwise_cons.1 hsorted).1 m hothers) hrole
    exact ⟨others, by rw [honly first ((hmem first).1 List.mem_cons_self) hprimary]⟩

/-- The message of a line's only primary mark stands at the end of the underline. -/
theorem exists_markRows_eq (gutter : Nat) (h : OnLine width marks) (hm : m ∈ marks)
    (hrole : m.role = .primary) (honly : ∀ n ∈ marks, n.role = .primary → n = m) {text : String}
    (ht : m.message = some text) :
    ∃ below, markRows gutter width marks =
      (drawn gutter width marks ++ [.plain " ", .styled m.role.style text]) :: below := by
  obtain ⟨others, hothers⟩ := exists_mergeSort_eq hm hrole honly
  rw [markRows_eq h.startOnLine hm, messages, hothers, List.filterMap_cons_some (by rw [ht]; rfl)]
  exact ⟨_, rfl⟩

/-! ## Lines -/

/-- The row of a source line. -/
def sourceRow (gutter line : Nat) (text : String) : Row :=
  [.styled .boldBlue (padLeft (gutter + 1) (toString line)), .plain " ", .styled .blue "|",
    .plain (" " ++ text)]

theorem lineRows_eq : lineRows ls gutter marks line =
    sourceRow gutter line ((ls.text? line.toUInt32).getD "") ::
      markRows gutter ((ls.text? line.toUInt32).getD "").utf8ByteSize
        (marks.filter (·.line == line)) := rfl

theorem lineRows_infix_linesRows {lines : List Nat} (h : line ∈ lines) (previous : Option Nat) :
    lineRows ls gutter marks line <:+: linesRows ls gutter marks previous lines := by
  induction lines generalizing previous with
  | nil => cases h
  | cons first lines ih =>
    rw [linesRows]
    rcases List.mem_cons.1 h with rfl | h
    · exact List.infix_append _ _ _
    · exact (ih h (some first)).trans (List.suffix_append _ _).isInfix

end Excerpt

/-! ### Numbers of lines -/

theorem eraseRepsBy_loop {α : Type} (r : α → α → Bool) (a : α) (as acc : List α) :
    List.eraseRepsBy.loop r a as acc = acc.reverse ++ List.eraseRepsBy.loop r a as [] := by
  induction as generalizing a acc with
  | nil => simp [List.eraseRepsBy.loop]
  | cons b as ih =>
    simp only [List.eraseRepsBy.loop]
    split
    · exact ih a acc
    · rw [ih b (a :: acc), ih b [a]]
      simp

section EraseReps

variable {α : Type} [BEq α] [LawfulBEq α]

theorem eraseReps_cons_cons (a b : α) (as : List α) :
    (a :: b :: as).eraseReps =
      if a == b then (b :: as).eraseReps else a :: (b :: as).eraseReps := by
  simp only [List.eraseReps, List.eraseRepsBy, List.eraseRepsBy.loop]
  split
  case h_1 h => rw [if_pos h, eq_of_beq h]
  case h_2 h =>
    rw [if_neg (by simp [h]), eraseRepsBy_loop]
    rfl

theorem eraseReps_sublist : ∀ as : List α, as.eraseReps.Sublist as
  | [] => .refl _
  | [a] => .refl _
  | a :: b :: as => by
    rw [eraseReps_cons_cons]
    split
    · exact (eraseReps_sublist (b :: as)).cons a
    · exact (eraseReps_sublist (b :: as)).cons_cons a

theorem mem_eraseReps {a : α} : ∀ {as : List α}, a ∈ as → a ∈ as.eraseReps
  | [b], h => h
  | b :: c :: as, h => by
    rw [eraseReps_cons_cons]
    split
    case isTrue heq =>
      rcases List.mem_cons.1 h with rfl | h
      · exact mem_eraseReps (by simp [eq_of_beq heq])
      · exact mem_eraseReps h
    case isFalse =>
      rcases List.mem_cons.1 h with rfl | h
      · exact List.mem_cons_self
      · exact List.mem_cons_of_mem b (mem_eraseReps h)

end EraseReps

theorem pairwise_lt_eraseReps :
    ∀ {as : List Nat}, as.Pairwise (· ≤ ·) → as.eraseReps.Pairwise (· < ·)
  | [], _ => .nil
  | [a], _ => List.pairwise_singleton _ a
  | a :: b :: as, h => by
    obtain ⟨ha, has⟩ := List.pairwise_cons.1 h
    rw [eraseReps_cons_cons]
    split
    case isTrue => exact pairwise_lt_eraseReps has
    case isFalse hne =>
      have hlt : a < b := Nat.lt_of_le_of_ne (ha b List.mem_cons_self) (by simpa using hne)
      refine List.pairwise_cons.2 ⟨fun c hc => ?_, pairwise_lt_eraseReps has⟩
      rcases List.mem_cons.1 ((eraseReps_sublist _).subset hc) with rfl | hc
      · exact hlt
      · exact Nat.lt_of_lt_of_le hlt ((List.pairwise_cons.1 has).1 c hc)

theorem length_repr_mono {m n : Nat} (h : m ≤ n) : m.repr.length ≤ n.repr.length := by
  have hn := (Nat.length_repr_le_iff (n := n) Nat.length_repr_pos).1 (Nat.le_refl _)
  exact (Nat.length_repr_le_iff Nat.length_repr_pos).2 (Nat.lt_of_le_of_lt h hn)

namespace Excerpt

variable {marks : List Mark} {m : Mark}

theorem pairwise_lineNumbers (marks : List Mark) : (lineNumbers marks).Pairwise (· < ·) := by
  have h : ((marks.map Mark.line).mergeSort fun a b => decide (a ≤ b)).Pairwise
      fun a b => decide (a ≤ b) :=
    List.pairwise_mergeSort (fun a b c hab hbc => by simp only [decide_eq_true_eq] at *; omega)
      (fun a b => by simp only [Bool.or_eq_true, decide_eq_true_eq]; omega) _
  exact pairwise_lt_eraseReps (h.imp fun hle => by simpa using hle)

theorem mem_lineNumbers_iff {line : Nat} :
    line ∈ lineNumbers marks ↔ ∃ m ∈ marks, m.line = line := by
  refine ⟨fun h => ?_, fun ⟨m, hm, hline⟩ => ?_⟩
  · exact List.mem_map.1 (List.mem_mergeSort.1 ((eraseReps_sublist _).subset h))
  · exact mem_eraseReps (List.mem_mergeSort.2 (hline ▸ List.mem_map_of_mem hm))

/-- The numbers of all marked lines fit the gutter. -/
theorem length_repr_le_gutter {line : Nat} (h : line ∈ lineNumbers marks) :
    (toString line).length ≤ max 2 (toString ((lineNumbers marks).getLast?.getD 1)).length := by
  have hle : line ≤ (lineNumbers marks).getLast?.getD 1 := by
    have hsorted := pairwise_lineNumbers marks
    rcases (lineNumbers marks).eq_nil_or_concat' with hnil | ⟨front, last, hlast⟩
    · simp [hnil] at h
    · rw [hlast] at h hsorted ⊢
      rw [List.getLast?_concat, Option.getD_some]
      rcases List.mem_append.1 h with hfront | hlast
      · exact Nat.le_of_lt ((List.pairwise_append.1 hsorted).2.2 line hfront last (by simp))
      · exact Nat.le_of_eq (List.mem_singleton.1 hlast)
  exact Nat.le_trans (length_repr_mono hle) (Nat.le_max_right _ _)

/-- Every marked line is shown, with its number in the gutter. -/
theorem exists_lineRows_infix_rows (ls : Lines) (file : String) (primary : Position)
    (hm : m ∈ marks) :
    ∃ gutter, (toString m.line).length ≤ gutter ∧
      lineRows ls gutter marks m.line <:+: rows ls file primary marks := by
  have hline : m.line ∈ lineNumbers marks := mem_lineNumbers_iff.2 ⟨m, hm, rfl⟩
  refine ⟨_, length_repr_le_gutter hline, ?_⟩
  rw [rows]
  exact (lineRows_infix_linesRows hline none).trans
    ((List.suffix_cons _ _).trans (List.suffix_cons _ _)).isInfix

end Excerpt

end TriLang
