import Mathlib.Data.List.SplitBy
import TriLang.Diagnostic.Excerpt
import TriLang.Proofs.LineTexts

/-!
# Colour adds only escape sequences

Rows are written with colour or without.  The two writings differ in escape sequences only: to
delete these from the coloured text gives the plain one, as long as no text that is written holds
an escape character of its own.
-/

namespace TriLang

/-! ## Escape sequences -/

/-- Deletes every escape sequence: an escape character, a bracket and all up to the next `m`. -/
def withoutSequences : List Char → List Char
  | '\x1b' :: '[' :: rest =>
    if 'm' ∈ rest then withoutSequences ((rest.dropWhile (· != 'm')).drop 1)
    else '\x1b' :: '[' :: rest
  | c :: rest => c :: withoutSequences rest
  | [] => []
  termination_by cs => cs.length
  decreasing_by
    · have := (List.dropWhile_suffix (l := rest) (· != 'm')).length_le
      simp only [List.length_drop, List.length_cons]
      omega
    · simp

/-- No escape character stands in a text. -/
def EscapeFree (text : List Char) : Prop := '\x1b' ∉ text

instance (text : List Char) : Decidable (EscapeFree text) := inferInstanceAs (Decidable (_ ∉ _))

namespace EscapeFree

variable {c : Char} {xs ys : List Char}

@[simp] theorem nil : EscapeFree [] := List.not_mem_nil

@[simp] theorem cons_iff : EscapeFree (c :: xs) ↔ c ≠ '\x1b' ∧ EscapeFree xs := by
  rw [EscapeFree, List.mem_cons, not_or, ne_comm]
  rfl

@[simp] theorem append_iff : EscapeFree (xs ++ ys) ↔ EscapeFree xs ∧ EscapeFree ys := by
  simp [EscapeFree]

theorem of_subset (h : EscapeFree ys) (hs : xs ⊆ ys) : EscapeFree xs := fun hm => h (hs hm)

@[simp] theorem blanks (n : Nat) : EscapeFree (blanks n).toList := by
  simp [EscapeFree, TriLang.blanks]

@[simp] theorem padLeft_iff {width : Nat} {text : String} :
    EscapeFree (padLeft width text).toList ↔ EscapeFree text.toList := by
  simp [TriLang.padLeft]

@[simp] theorem toDigits (n : Nat) : EscapeFree (Nat.toDigits 10 n) := by
  intro h
  have hdigit := Nat.isDigit_of_mem_toDigits (by decide) (by decide) h
  exact absurd hdigit (by decide)

@[simp] theorem position (p : Position) : EscapeFree p.toString.toList := by
  simp [Position.toString, toString]

end EscapeFree

/-! ## Coloured text -/

/-- Deleting its escape sequences turns `coloured` into `plain`, whatever text follows: none of the
sequences is left open, to end inside that text. -/
def Colours (coloured plain : List Char) : Prop :=
  ∀ rest, withoutSequences (coloured ++ rest) = plain ++ withoutSequences rest

namespace Colours

variable {xs ys xs' ys' : List Char}

theorem eq (h : Colours xs ys) : withoutSequences xs = ys := by
  simpa [withoutSequences] using h []

theorem nil : Colours [] [] := fun _ => rfl

theorem append (h : Colours xs ys) (h' : Colours xs' ys') :
    Colours (xs ++ xs') (ys ++ ys') := by
  intro rest
  rw [List.append_assoc, h, h', List.append_assoc]

theorem flatMap {α : Type} {f g : α → List Char} {as : List α}
    (h : ∀ a ∈ as, Colours (f a) (g a)) : Colours (as.flatMap f) (as.flatMap g) := by
  induction as with
  | nil => exact nil
  | cons a as ih =>
    rw [List.flatMap_cons, List.flatMap_cons]
    exact (h a List.mem_cons_self).append (ih fun b hb => h b (List.mem_cons_of_mem a hb))

theorem intercalate {α : Type} {f g : α → List Char} {as : List α} {sep : List Char}
    (hsep : Colours sep sep) (h : ∀ a ∈ as, Colours (f a) (g a)) :
    Colours (sep.intercalate (as.map f)) (sep.intercalate (as.map g)) := by
  induction as with
  | nil => exact nil
  | cons a as ih =>
    obtain ⟨ha, has⟩ := List.forall_mem_cons.1 h
    cases as with
    | nil => simpa using ha
    | cons b bs =>
      simp only [List.map_cons, List.intercalate_cons_cons, List.append_assoc] at ih ⊢
      exact ha.append (hsep.append (ih has))

theorem of_escapeFree (h : EscapeFree xs) : Colours xs xs := by
  intro rest
  induction xs with
  | nil => rfl
  | cons c xs ih =>
    obtain ⟨hc, hxs⟩ := EscapeFree.cons_iff.1 h
    rw [List.cons_append, withoutSequences, ih hxs, List.cons_append]
    exact fun _ h' _ => hc h'

/-- A sequence leaves nothing. -/
theorem sequence {parameters : List Char} (h : 'm' ∉ parameters) :
    Colours (Style.sequence parameters) [] := by
  intro rest
  have hdrop : (parameters ++ 'm' :: rest).dropWhile (· != 'm') = 'm' :: rest := by
    rw [List.dropWhile_append_of_pos, List.dropWhile_cons_of_neg (by simp)]
    intro c hc
    simpa using fun heq : c = 'm' => h (heq ▸ hc)
  have hm : 'm' ∈ parameters ++ 'm' :: rest := List.mem_append_right _ List.mem_cons_self
  simp only [Style.sequence, List.cons_append, List.append_assoc, List.nil_append,
    withoutSequences, if_pos hm, hdrop, List.drop_one, List.tail_cons]

end Colours

theorem Style.keepOn_of_escapeFree (style : Style) {text : List Char} (h : EscapeFree text) :
    style.keepOn text = text := by
  induction text with
  | nil => rfl
  | cons c text ih =>
    obtain ⟨hc, htext⟩ := EscapeFree.cons_iff.1 h
    rw [keepOn, ih htext]
    exact fun _ h' _ => hc h'

theorem Style.m_notMem_code (style : Style) : 'm' ∉ style.code := by cases style <;> decide

theorem Style.colours_paint (style : Style) {text : List Char} (h : EscapeFree text) :
    Colours (style.paint text) text := by
  have hreset : Colours (sequence ['0']) [] := .sequence (by decide)
  have hall := ((Colours.sequence style.m_notMem_code).append (.of_escapeFree h)).append hreset
  rw [paint, style.keepOn_of_escapeFree h]
  simpa using hall

theorem Piece.colours_write {p : Piece} (h : EscapeFree p.text) :
    Colours (p.write true) (p.write false) := by
  obtain ⟨_ | style, text⟩ := p
  · exact .of_escapeFree h
  · exact style.colours_paint h

/-! ## Rows without escape characters -/

/-- No piece of a row holds an escape character. -/
def Row.EscapeFree (r : Row) : Prop := ∀ p ∈ r, TriLang.EscapeFree p.text

namespace Row

variable {p : Piece} {r s : Row}

theorem colours_write (h : r.EscapeFree) : Colours (r.write true) (r.write false) :=
  (Colours.flatMap fun p hp => Piece.colours_write (h p hp)).append (.of_escapeFree (by decide))

@[simp] theorem escapeFree_nil : EscapeFree [] := List.forall_mem_nil _

@[simp] theorem escapeFree_cons_iff :
    EscapeFree (p :: r) ↔ TriLang.EscapeFree p.text ∧ EscapeFree r := List.forall_mem_cons

@[simp] theorem escapeFree_append_iff : EscapeFree (r ++ s) ↔ EscapeFree r ∧ EscapeFree s :=
  List.forall_mem_append

end Row

@[simp] theorem Piece.plain_text (text : String) : (Piece.plain text).text = text.toList := rfl

@[simp] theorem Piece.styled_text (style : Style) (text : String) :
    (Piece.styled style text).text = text.toList := rfl

/-! ## The rows of an excerpt -/

namespace Excerpt

variable {source : String} {gutter width line : Nat} {cells : List Char} {marks : List Mark}

@[simp] theorem escapeFree_margin (gutter : Nat) : (margin gutter).EscapeFree := by
  simp [margin]

/-- The cells of an underline are blanks and the symbols of marks. -/
theorem escapeFree_underline (width : Nat) (marks : List Mark) :
    EscapeFree (underline width marks) := by
  have hcells : ∀ cells, EscapeFree cells → EscapeFree (marks.foldl Mark.draw cells) := by
    induction marks with
    | nil => exact fun _ h => h
    | cons m marks ih =>
      refine fun cells h => ih _ fun hm => ?_
      obtain ⟨i, hi, hcell⟩ := List.mem_mapIdx.1 hm
      split at hcell
      · cases hr : m.role <;> rw [hr] at hcell <;> exact absurd hcell (by decide)
      · exact h (hcell ▸ List.getElem_mem hi)
  refine EscapeFree.of_subset (hcells (List.replicate (width + 2) ' ') ?_) fun c hc => ?_
  · simp [EscapeFree]
  · exact List.mem_reverse.1 ((List.dropWhile_suffix _).subset (List.mem_reverse.1 hc))

theorem escapeFree_underlineRow (h : EscapeFree cells) : (underlineRow cells).EscapeFree := by
  intro p hp
  obtain ⟨run, hrun, rfl⟩ := List.mem_map.1 hp
  have hrun : EscapeFree run := h.of_subset fun c hc => by
    rw [← List.flatten_splitBy (· == ·) cells]
    exact List.mem_flatten_of_mem hrun hc
  split <;> exact hrun

/-- No message of a mark holds an escape character. -/
def MessagesEscapeFree (marks : List Mark) : Prop :=
  ∀ m ∈ marks, ∀ text ∈ m.message, EscapeFree text.toList

theorem escapeFree_hanging {m : Mark × String} (h : EscapeFree m.2.toList) :
    ∀ r ∈ hanging gutter m, r.EscapeFree := by
  cases hr : m.1.role <;> simp [hanging, h]

theorem escapeFree_markRows (h : MessagesEscapeFree marks) :
    ∀ r ∈ markRows gutter width marks, r.EscapeFree := by
  have hunderline := escapeFree_underlineRow (escapeFree_underline width (marks.mergeSort Mark.le))
  have hdrawn : Row.EscapeFree (margin gutter ++ [.plain " "] ++
      underlineRow (underline width (marks.mergeSort Mark.le))) := by
    simp [hunderline]
  have hmessages : ∀ m ∈ (marks.mergeSort Mark.le).filterMap fun m =>
      m.message.map fun text => (m, text), EscapeFree m.2.toList := by
    intro m hm
    obtain ⟨n, hn, hmap⟩ := List.mem_filterMap.1 hm
    obtain ⟨text, htext, rfl⟩ := Option.map_eq_some_iff.1 hmap
    exact h n (List.mem_mergeSort.1 hn) text htext
  unfold markRows
  dsimp only
  split
  case isTrue => exact List.forall_mem_nil _
  case isFalse =>
    split
    case h_1 => exact List.forall_mem_singleton.2 hdrawn
    case h_2 first others heq =>
      rw [heq] at hmessages
      obtain ⟨hfirst, hothers⟩ := List.forall_mem_cons.1 hmessages
      refine List.forall_mem_cons.2 ⟨?_, fun r hr => ?_⟩
      · simpa [hfirst] using hunderline
      · obtain ⟨m, hm, hr⟩ := List.mem_flatMap.1 hr
        exact escapeFree_hanging (hothers m hm) r hr

theorem escapeFree_lineRows (hs : EscapeFree source.toList) (h : MessagesEscapeFree marks) :
    ∀ r ∈ lineRows (.ofSource source) gutter marks line, r.EscapeFree := by
  have htext : EscapeFree (((Lines.ofSource source).text? line.toUInt32).getD "").toList := by
    rcases htext : (Lines.ofSource source).text? line.toUInt32 with _ | text
    · exact .nil
    · exact hs.of_subset (Lines.toList_subset_of_text? htext)
  refine List.forall_mem_cons.2 ⟨?_, escapeFree_markRows fun m hm => ?_⟩
  · simp [toString, htext]
  · exact h m (List.mem_of_mem_filter hm)

theorem escapeFree_linesRows (hs : EscapeFree source.toList) (h : MessagesEscapeFree marks)
    (previous : Option Nat) (lines : List Nat) :
    ∀ r ∈ linesRows (.ofSource source) gutter marks previous lines, r.EscapeFree := by
  induction lines generalizing previous with
  | nil => exact List.forall_mem_nil _
  | cons line lines ih =>
    refine List.forall_mem_append.2 ⟨List.forall_mem_append.2 ⟨?_, escapeFree_lineRows hs h⟩, ih _⟩
    split <;> simp

theorem escapeFree_rows {file : String} {primary : Position} (hs : EscapeFree source.toList)
    (hf : EscapeFree file.toList) (h : MessagesEscapeFree marks) :
    ∀ r ∈ rows (.ofSource source) file primary marks, r.EscapeFree := by
  refine List.forall_mem_cons.2 ⟨?_, List.forall_mem_cons.2 ⟨escapeFree_margin _,
    escapeFree_linesRows hs h none _⟩⟩
  simp [toString, hf]

end Excerpt

/-! ## Diagnostics -/

namespace Diagnostic

/-- The texts that a diagnostic is made of. -/
def texts (d : Diagnostic) : List String :=
  d.code.toList ++ d.message :: (d.labels.filterMap Label.message ++ d.notes ++ d.help.toList)

/-- No text of a diagnostic holds an escape character. -/
def EscapeFree (d : Diagnostic) : Prop := ∀ text ∈ d.texts, TriLang.EscapeFree text.toList

instance (d : Diagnostic) : Decidable d.EscapeFree := inferInstanceAs (Decidable (∀ _ ∈ _, _))

variable {source file : String} {d : Diagnostic}

theorem escapeFree_headerRow (hcode : ∀ text ∈ d.code, TriLang.EscapeFree text.toList)
    (hmessage : TriLang.EscapeFree d.message.toList) : d.headerRow.EscapeFree := by
  obtain ⟨severity, code, message, labels, notes, help⟩ := d
  have hcode : ∀ text, code = some text → TriLang.EscapeFree text.toList := hcode
  cases severity <;> cases code <;> simp_all [headerRow, Severity.name]

theorem escapeFree_remarkRow {word text : String} (hw : TriLang.EscapeFree word.toList)
    (ht : TriLang.EscapeFree text.toList) : (remarkRow word text).EscapeFree := by
  simp [remarkRow, toString, hw, ht]

theorem message_of_ofLabel? {ls : Lines} {l : Label} {m : Mark} (h : Mark.ofLabel? ls l = some m) :
    m.message = l.message := by
  obtain ⟨start, -, h⟩ := Option.bind_eq_some_iff.1 h
  obtain ⟨stop, -, h⟩ := Option.bind_eq_some_iff.1 h
  rw [← Option.some_inj.1 h]
  rfl

theorem messagesEscapeFree_of_mapM {ls : Lines} {marks : List Mark}
    (h : ∀ text ∈ d.labels.filterMap Label.message, TriLang.EscapeFree text.toList)
    (hmarks : d.labels.mapM (Mark.ofLabel? ls) = some marks) :
    Excerpt.MessagesEscapeFree marks := by
  intro m hm text htext
  obtain ⟨l, hl, hmark⟩ := exists_mem_of_mapM hmarks hm
  rw [message_of_ofLabel? hmark] at htext
  exact h text (List.mem_filterMap.2 ⟨l, hl, htext⟩)

theorem escapeFree_excerpt {excerpt : List Row} (hs : TriLang.EscapeFree source.toList)
    (hf : TriLang.EscapeFree file.toList)
    (h : ∀ text ∈ d.labels.filterMap Label.message, TriLang.EscapeFree text.toList)
    (hexcerpt : d.excerpt? (.ofSource source) file = some excerpt) :
    ∀ r ∈ excerpt, r.EscapeFree := by
  obtain ⟨marks, hmarks, hrows⟩ := Option.bind_eq_some_iff.1 hexcerpt
  split at hrows
  case h_1 span hplace =>
    obtain ⟨primary, -, hrows⟩ := Option.bind_eq_some_iff.1 hrows
    obtain rfl := Option.some_inj.1 hrows
    exact Excerpt.escapeFree_rows hs hf (messagesEscapeFree_of_mapM h hmarks)
  case h_2 =>
    obtain rfl := Option.some_inj.1 hrows
    exact List.forall_mem_nil _

theorem EscapeFree.rows {rows : List Row} (h : d.EscapeFree)
    (hs : TriLang.EscapeFree source.toList) (hf : TriLang.EscapeFree file.toList)
    (hrows : d.rows? (.ofSource source) file = some rows) : ∀ r ∈ rows, r.EscapeFree := by
  simp only [EscapeFree, texts, List.forall_mem_append, List.forall_mem_cons] at h
  obtain ⟨hcode, hmessage, ⟨hlabels, hnotes⟩, hhelp⟩ := h
  obtain ⟨excerpt, hexcerpt, hrows⟩ := Option.bind_eq_some_iff.1 hrows
  obtain rfl := Option.some_inj.1 hrows
  rw [List.forall_mem_cons, List.forall_mem_append, footerRows, List.forall_mem_append]
  refine ⟨?_, escapeFree_excerpt hs hf hlabels hexcerpt, ?_, ?_⟩
  · exact escapeFree_headerRow (fun text ht => hcode text (Option.mem_toList.2 ht)) hmessage
  · intro r hr
    obtain ⟨text, htext, rfl⟩ := List.mem_map.1 hr
    exact escapeFree_remarkRow (by decide +kernel) (hnotes text htext)
  · intro r hr
    obtain ⟨text, htext, rfl⟩ := Option.map_eq_some_iff.1 (Option.mem_toList.1 hr)
    exact escapeFree_remarkRow (by decide +kernel) (hhelp text (Option.mem_toList.2 htext))

end Diagnostic

/-! ## Logs -/

namespace Log

variable {source file : String} {log : Log}

/-- No text of a log's diagnostics holds an escape character. -/
def EscapeFree (log : Log) : Prop := ∀ e ∈ log.entries, e.2.EscapeFree

instance (log : Log) : Decidable log.EscapeFree := inferInstanceAs (Decidable (∀ _ ∈ _, _))

/-- The rows of all diagnostics. -/
def rows? (log : Log) (ls : Lines) (file : String) : Option (List (List Row)) :=
  log.entries.mapM fun (_, d) => d.rows? ls file

/-- With colour or without, the rows are the same. -/
theorem render?_eq (log : Log) (ls : Lines) (file : String) (color : Bool) :
    log.render? ls file color = (log.rows? ls file).map fun rowss =>
      "\n".intercalate (rowss.map fun rows => String.ofList (rows.flatMap (Row.write color))) := by
  have htexts := mapM_map_option (f := fun (_, d) => d.rows? ls file)
    (fun rows => String.ofList (rows.flatMap (Row.write color))) log.entries
  exact (congrArg (Option.map _) htexts).trans (Option.map_map _ _ _)

/-- Deleting the escape sequences from what is written with colour gives what is written without. -/
theorem withoutSequences_render (hs : TriLang.EscapeFree source.toList)
    (hf : TriLang.EscapeFree file.toList) (hl : log.EscapeFree) :
    (log.render? (.ofSource source) file true).map (fun text => withoutSequences text.toList) =
      (log.render? (.ofSource source) file false).map String.toList := by
  rw [render?_eq, render?_eq]
  cases hrowss : log.rows? (.ofSource source) file with
  | none => rfl
  | some rowss =>
    have hrows : ∀ rows ∈ rowss, Colours (rows.flatMap (Row.write true))
        (rows.flatMap (Row.write false)) := by
      intro rows hrows
      obtain ⟨e, he, hrows⟩ := exists_mem_of_mapM hrowss hrows
      exact .flatMap fun r hr => Row.colours_write ((hl e he).rows hs hf hrows r hr)
    have hnewline : Colours ['\n'] ['\n'] := .of_escapeFree (by decide)
    have hlog := (hnewline.intercalate hrows).eq
    simpa [String.toList_intercalate, Function.comp_def] using hlog

/-- A warning and an error, with labels on one line and on others, a note and help. -/
theorem withoutSequences_render_warning :
    let source := "let\n  integer n\nin n := 1"
    let file := "n.tri"
    let log : Log := ⟨[(.checker, ⟨.warning, none, "never read",
        [⟨⟨6, 15⟩, .primary, none⟩, ⟨⟨14, 15⟩, .secondary, some "named here"⟩,
          ⟨⟨19, 25⟩, .secondary, some "only set"⟩], ["seen once"], none⟩),
      (.parser, .errorAt ⟨25, 25⟩ "E0100" "expected an operator" "here" (some "go on"))]⟩
    TriLang.EscapeFree source.toList ∧ TriLang.EscapeFree file.toList ∧ log.EscapeFree ∧
      (log.render? (.ofSource source) file false).isSome ∧
      (log.render? (.ofSource source) file true).map (fun text => withoutSequences text.toList) =
        (log.render? (.ofSource source) file false).map String.toList := by
  intro source file log
  have hs : TriLang.EscapeFree source.toList := by decide +kernel
  have hf : TriLang.EscapeFree file.toList := by decide +kernel
  have hl : log.EscapeFree := by decide +kernel
  exact ⟨hs, hf, hl, by decide +kernel, withoutSequences_render hs hf hl⟩

end Log

end TriLang
