import TriLang.Proofs.Positions

/-!
# Lines of a text

A line of a text is what stands between two of its newlines, or between a newline and an end of the
text.  Every place lies on a line, and its position tells which: the line's number, and how many
bytes of it stand in front of the place.
-/

namespace TriLang

/-! ## Lines between newlines -/

/-- A line of the text `cs`, with all that stands in front of it and behind it. -/
structure LineOf (cs : List Char) where
  before : List Char
  text : List Char
  after : List Char
  eq_append : cs = before ++ (text ++ after)
  newline_notMem : '\n' ∉ text
  before_ends : ∀ c ∈ before.getLast?, c = '\n'
  after_begins : ∀ c ∈ after.head?, c = '\n'

theorem utf8Size_newline : Char.utf8Size '\n' = 1 := rfl

namespace LineOf

variable {cs : List Char}

/-- Lines are numbered from one. -/
def number (l : LineOf cs) : Nat := l.before.count '\n' + 1

def start (l : LineOf cs) : Nat := utf8Length l.before

/-- Where the newline that ends the line stands, or else the end of the text. -/
def stop (l : LineOf cs) : Nat := l.start + utf8Length l.text

/-- The place `n` is on the line, or at the end of it. -/
def Holds (l : LineOf cs) (n : Nat) : Prop := l.start ≤ n ∧ n ≤ l.stop

/-- The place `n` is told to the line: it lies on it, or behind the text if the line is the last. -/
def Reaches (l : LineOf cs) (n : Nat) : Prop := l.start ≤ n ∧ (n ≤ l.stop ∨ l.after = [])

instance (l : LineOf cs) (n : Nat) : Decidable (l.Holds n) := inferInstanceAs (Decidable (_ ∧ _))

instance (l : LineOf cs) (n : Nat) : Decidable (l.Reaches n) :=
  inferInstanceAs (Decidable (_ ∧ (_ ∨ _)))

/-- Every place of a text lies on a line; one behind the text is told to the last line. -/
theorem exists_at (cs : List Char) (n : Nat) :
    ∃ l : LineOf cs, l.start ≤ n ∧ (n ≤ l.stop ∨ l.after = []) := by
  -- A character in front of a text joins the first line, unless it is a newline.
  induction cs generalizing n with
  | nil => exact ⟨⟨[], [], [], rfl, by simp, by simp, by simp⟩, Nat.zero_le n, .inr rfl⟩
  | cons c cs ih =>
    obtain ⟨⟨before, text, after, heq, htext, hends, hbegins⟩, hstart, hstop⟩ :=
      ih (n - c.utf8Size)
    simp only [start, stop] at hstart hstop
    by_cases hbefore : before = []
    · subst hbefore
      by_cases hc : c = '\n'
      · -- A newline ends the empty line in front of it.
        subst hc
        by_cases hn : n = 0
        · exact ⟨⟨[], [], '\n' :: cs, rfl, by simp, by simp, by simp⟩, Nat.zero_le n,
            .inl (by simp [hn])⟩
        · refine ⟨⟨['\n'], text, after, by simp [heq], htext, by simp, hbegins⟩, ?_, ?_⟩
          · simp only [start, utf8Length_cons, utf8Length_nil, utf8Size_newline]
            omega
          · refine hstop.imp_left fun h => ?_
            simp only [stop, start, utf8Length_cons, utf8Length_nil] at h ⊢
            omega
      · refine ⟨⟨[], c :: text, after, by simp [heq], ?_, by simp, hbegins⟩, Nat.zero_le n, ?_⟩
        · simpa using ⟨fun h => hc h.symm, htext⟩
        · refine hstop.imp_left fun h => ?_
          simp only [stop, start, utf8Length_cons, utf8Length_nil] at h ⊢
          omega
    · refine ⟨⟨c :: before, text, after, by simp [heq], htext, ?_, hbegins⟩, ?_, ?_⟩
      · rw [List.getLast?_cons, List.getLast?_eq_getLast_of_ne_nil hbefore] at *
        simpa using hends
      · have hpos : 0 < utf8Length before := by
          obtain ⟨b, bs, rfl⟩ := List.exists_cons_of_ne_nil hbefore
          have := b.utf8Size_pos
          simp only [utf8Length_cons]
          omega
        simp only [start, utf8Length_cons]
        omega
      · refine hstop.imp_left fun h => ?_
        simp only [stop, start, utf8Length_cons] at h ⊢
        omega

end LineOf

/-! ## Pieces between newlines -/

/-- The number of bytes of `pieces`, each with a newline. -/
def extent : List (List Char) → Nat
  | [] => 0
  | p :: ps => utf8Length p + 1 + extent ps

theorem extent_splitOn (cs : List Char) : extent (cs.splitOn '\n') = utf8Length cs + 1 := by
  induction cs with
  | nil => rfl
  | cons c cs ih =>
    rw [List.splitOn_cons_eq_if_modifyHead]
    split
    case isTrue h =>
      obtain rfl : c = '\n' := by simpa using h
      simp only [extent, utf8Length_nil, utf8Length_cons, utf8Size_newline] at ih ⊢
      omega
    case isFalse =>
      obtain ⟨p, ps, hps⟩ := List.exists_cons_of_ne_nil (List.splitOn_ne_nil '\n' cs)
      rw [hps] at ih ⊢
      simp only [extent, List.modifyHead_cons, utf8Length_cons] at ih ⊢
      omega

/-- A piece between separators has none of them, and nothing that the whole has not. -/
theorem of_mem_splitOn {x c : Char} {cs p : List Char} (h : p ∈ cs.splitOn x) (hc : c ∈ p) :
    c ≠ x ∧ c ∈ cs := by
  induction cs generalizing p with
  | nil =>
    obtain rfl : p = [] := by simpa using h
    cases hc
  | cons d cs ih =>
    rw [List.splitOn_cons_eq_if_modifyHead] at h
    split at h
    case isTrue =>
      rcases List.mem_cons.1 h with rfl | h
      · cases hc
      · exact (ih h hc).imp_right (List.mem_cons_of_mem d)
    case isFalse hd =>
      obtain ⟨q, qs, hqs⟩ := List.exists_cons_of_ne_nil (List.splitOn_ne_nil x cs)
      rw [hqs, List.modifyHead_cons] at h
      rw [hqs] at ih
      rcases List.mem_cons.1 h with rfl | h
      · rcases List.mem_cons.1 hc with rfl | hc
        · exact ⟨by simpa using hd, List.mem_cons_self⟩
        · exact (ih List.mem_cons_self hc).imp_right (List.mem_cons_of_mem d)
      · exact (ih (List.mem_cons_of_mem q h) hc).imp_right (List.mem_cons_of_mem d)

/-- Lines that are written with a newline each are the pieces of their text, unless one of them goes
over a newline. -/
theorem splitOn_flatMap_iff {ls : List (List Char)} :
    (ls.flatMap (· ++ ['\n'])).splitOn '\n' = ls ++ [[]] ↔ ∀ l ∈ ls, '\n' ∉ l := by
  refine ⟨fun h l hl hn => ?_, fun h => ?_⟩
  · have hpiece : l ∈ (ls.flatMap (· ++ ['\n'])).splitOn '\n' := h ▸ List.mem_append_left _ hl
    exact (of_mem_splitOn hpiece hn).1 rfl
  · induction ls with
    | nil => rfl
    | cons l ls ih =>
      obtain ⟨hl, hls⟩ := List.forall_mem_cons.1 h
      rw [List.flatMap_cons, List.append_assoc, List.singleton_append,
        List.splitOn_append_cons_self_of_not_mem hl, ih hls, List.cons_append]

/-- A line is one of the pieces, and the pieces in front of it are those of what stands there. -/
theorem LineOf.exists_pieces {cs : List Char} (l : LineOf cs) :
    ∃ ps qs, cs.splitOn '\n' = ps ++ l.text :: qs ∧ ps.length + 1 = l.number ∧
      extent ps = l.start ∧ (l.after = [] → qs = []) := by
  obtain ⟨before, text, after, heq, htext, hends, hbegins⟩ := l
  -- The text is cut at the newline behind the line, and then at the one in front of it.
  have hback : ∃ qs, (text ++ after).splitOn '\n' = text :: qs ∧ (after = [] → qs = []) := by
    cases after with
    | nil => exact ⟨[], by rw [List.append_nil, List.splitOn_eq_singleton htext], fun _ => rfl⟩
    | cons c after =>
      obtain rfl : c = '\n' := hbegins c rfl
      exact ⟨_, List.splitOn_append_cons_self_of_not_mem htext after, nofun⟩
  obtain ⟨qs, hqs, hlast⟩ := hback
  subst heq
  rcases before.eq_nil_or_concat' with rfl | ⟨front, c, rfl⟩
  · exact ⟨[], qs, hqs, rfl, rfl, hlast⟩
  · obtain rfl : c = '\n' := hends c (by simp)
    have hsplit : (front ++ ['\n'] ++ (text ++ after)).splitOn '\n' =
        front.splitOn '\n' ++ text :: qs := by
      rw [List.append_assoc, List.singleton_append, List.splitOn_append_cons_self, hqs]
    have hlength := Lines.length_splitOn '\n' front
    refine ⟨front.splitOn '\n', qs, hsplit, ?_, ?_, hlast⟩
    · simp [number, hlength]
    · simp [start, extent_splitOn, utf8Length_append, utf8Size_newline]

/-! ## The lines that are laid out -/

namespace Line

variable {offset n : Nat} {ps qs : List (List Char)}

theorem layOut_append (offset : Nat) (ps qs : List (List Char)) :
    layOut offset (ps ++ qs) = layOut offset ps ++ layOut (offset + extent ps) qs := by
  induction ps generalizing offset with
  | nil => rfl
  | cons p ps ih =>
    have hoffset : offset + extent (p :: ps) = offset + utf8Length p + 1 + extent ps := by
      rw [extent]
      omega
    rw [List.cons_append, layOut, ih, layOut, List.cons_append, hoffset]

theorem map_text_layOut (offset : Nat) (ps : List (List Char)) :
    (layOut offset ps).map Line.text = ps.map String.ofList := by
  induction ps generalizing offset with
  | nil => rfl
  | cons p ps ih => rw [layOut, List.map_cons, ih, List.map_cons]

/-- Lines that lie in front of a place start in front of it. -/
theorem start_lt_of_mem_layOut (hps : offset + extent ps ≤ n) (hn : n < 2 ^ 32) :
    ∀ l ∈ layOut offset ps, l.start.toNat < n := by
  induction ps generalizing offset with
  | nil => exact List.forall_mem_nil _
  | cons p ps ih =>
    rw [extent] at hps
    refine List.forall_mem_cons.2 ⟨?_, ih (by omega)⟩
    rw [Lines.toNat_toUInt32_of_lt (by omega)]
    omega

/-- The lines reached at a place on the line spelled by `p`. -/
theorem takeWhile_layOut (p : List Char) (hstart : offset + extent ps ≤ n) (hn : n < 2 ^ 32)
    (hstop : n ≤ offset + extent ps + utf8Length p ∧
      offset + extent ps + utf8Length p < 2 ^ 32 - 1 ∨ qs = []) :
    (layOut offset (ps ++ p :: qs)).takeWhile (·.start ≤ n.toUInt32) =
      layOut offset ps ++ [⟨(offset + extent ps).toUInt32, String.ofList p⟩] := by
  have htoNat := Lines.toNat_toUInt32_of_lt hn
  have hfront : ∀ l ∈ layOut offset ps, decide (l.start ≤ n.toUInt32) := by
    intro l hl
    have := start_lt_of_mem_layOut hstart hn l hl
    rw [decide_eq_true_eq, UInt32.le_iff_toNat_le, htoNat]
    omega
  have hat : decide ((offset + extent ps).toUInt32 ≤ n.toUInt32) := by
    rw [decide_eq_true_eq, UInt32.le_iff_toNat_le, htoNat,
      Lines.toNat_toUInt32_of_lt (by omega)]
    exact hstart
  have hback : (layOut (offset + extent ps + utf8Length p + 1) qs).takeWhile
      (·.start ≤ n.toUInt32) = [] := by
    cases qs with
    | nil => rfl
    | cons q qs =>
      obtain ⟨hstop, hsize⟩ := hstop.resolve_right nofun
      rw [layOut, List.takeWhile_cons_of_neg]
      rw [decide_eq_true_eq, UInt32.le_iff_toNat_le, htoNat,
        Lines.toNat_toUInt32_of_lt (by omega)]
      omega
  rw [layOut_append, layOut, List.takeWhile_append_of_pos hfront, List.takeWhile_cons, if_pos hat,
    hback]

end Line

/-! ## Positions on a line -/

namespace LineOf

variable {source : String} {n : Nat}

theorem stop_add_utf8Length_after (l : LineOf source.toList) :
    l.stop + utf8Length l.after = source.utf8ByteSize := by
  have h := congrArg utf8Length l.eq_append
  rw [utf8Length_toList, utf8Length_append, utf8Length_append] at h
  rw [stop, start]
  omega

theorem stop_le (l : LineOf source.toList) : l.stop ≤ source.utf8ByteSize := by
  have := l.stop_add_utf8Length_after
  omega

/-- Every place in a text lies on a line. -/
theorem exists_of_le (h : n ≤ source.utf8ByteSize) :
    ∃ l : LineOf source.toList, l.Holds n := by
  obtain ⟨l, hstart, hstop | hafter⟩ := exists_at source.toList n
  · exact ⟨l, hstart, hstop⟩
  · have hend := l.stop_add_utf8Length_after
    rw [hafter, utf8Length_nil] at hend
    exact ⟨l, hstart, by omega⟩

/-- The lines reached at a place on a line are those up to it. -/
theorem reached_eq (l : LineOf source.toList) (hsize : source.utf8ByteSize < 2 ^ 32 - 1)
    (hn : n < 2 ^ 32) (hstart : l.start ≤ n) (hstop : n ≤ l.stop ∨ l.after = []) :
    ((Lines.ofSource source).reached n).length = l.number ∧
      (Lines.ofSource source).reachedStart n = l.start.toUInt32 := by
  obtain ⟨ps, qs, hpieces, hnumber, hextent, hlast⟩ := l.exists_pieces
  have hle := l.stop_le
  rw [stop] at hstop hle
  have hreached : (Lines.ofSource source).reached n =
      Line.layOut 0 ps ++ [⟨(0 + extent ps).toUInt32, String.ofList l.text⟩] := by
    rw [Lines.reached, Lines.ofSource, hpieces]
    refine Line.takeWhile_layOut l.text (by omega) hn (hstop.imp (fun h => ?_) hlast)
    omega
  rw [Lines.reachedStart, hreached, List.length_append, Lines.length_layOut,
    List.getLast?_concat, Option.map_some, Option.getD_some, List.length_singleton, hnumber,
    Nat.zero_add, hextent]
  exact ⟨rfl, rfl⟩

/-- A place on a line has the number of the line and, as column, its distance from the start. -/
theorem position?_eq (l : LineOf source.toList) (hsize : source.utf8ByteSize < 2 ^ 32 - 1)
    (hn : n < 2 ^ 32 - 1) (hstart : l.start ≤ n) (hstop : n ≤ l.stop ∨ l.after = []) :
    (Lines.ofSource source).position? n =
      some ⟨l.number.toUInt32, (n - l.start + 1).toUInt32⟩ := by
  obtain ⟨hnumber, hreached⟩ := l.reached_eq hsize (by omega) hstart hstop
  have hat := Lines.toNat_toUInt32_of_lt (n := l.start) (by omega)
  refine Lines.position?_eq_some_iff.2 ⟨by rw [hnumber], ?_⟩
  rw [hreached, hat, Nat.mod_eq_of_lt (by omega : n < 2 ^ 32)]
  exact Lines.toNat_toUInt32_of_lt (by omega)

theorem position_eq (l : LineOf source.toList) (hsize : source.utf8ByteSize < 2 ^ 32 - 1)
    (hn : n < 2 ^ 32 - 1) (hstart : l.start ≤ n) (hstop : n ≤ l.stop ∨ l.after = []) :
    (Lines.ofSource source).position n = ⟨l.number.toUInt32, (n - l.start + 1).toUInt32⟩ := by
  rw [Lines.position, l.position?_eq hsize hn hstart hstop, Option.getD_some]

theorem Holds.position?_eq {l : LineOf source.toList} (h : l.Holds n)
    (hsize : source.utf8ByteSize < 2 ^ 32 - 1) : (Lines.ofSource source).position? n =
      some ⟨l.number.toUInt32, (n - l.start + 1).toUInt32⟩ :=
  LineOf.position?_eq l hsize (Nat.lt_of_le_of_lt (Nat.le_trans h.2 l.stop_le) hsize) h.1 (.inl h.2)

theorem Holds.position_eq {l : LineOf source.toList} (h : l.Holds n)
    (hsize : source.utf8ByteSize < 2 ^ 32 - 1) : (Lines.ofSource source).position n =
      ⟨l.number.toUInt32, (n - l.start + 1).toUInt32⟩ := by
  rw [Lines.position, h.position?_eq hsize, Option.getD_some]

theorem number_lt (l : LineOf source.toList) (hsize : source.utf8ByteSize < 2 ^ 32 - 1) :
    l.number < 2 ^ 32 := by
  obtain ⟨ps, qs, hpieces, hnumber, -, -⟩ := l.exists_pieces
  have hlength := Lines.length_ofSource_le source
  rw [Lines.ofSource, Lines.length_layOut, hpieces, List.length_append, List.length_cons] at hlength
  omega

/-- A line is told by its number. -/
theorem start_eq_of_number_eq {l m : LineOf source.toList} (h : l.number = m.number) :
    l.start = m.start ∧ l.text = m.text := by
  obtain ⟨ps, qs, hps, hlength, hstart, -⟩ := l.exists_pieces
  obtain ⟨ps', qs', hps', hlength', hstart', -⟩ := m.exists_pieces
  obtain ⟨rfl, hcons⟩ := List.append_inj (hps.symm.trans hps') (by omega)
  exact ⟨hstart.symm.trans hstart', (List.cons.inj hcons).1⟩

theorem after_eq_nil_iff (l : LineOf source.toList) :
    l.after = [] ↔ l.stop = source.utf8ByteSize := by
  rw [← l.stop_add_utf8Length_after]
  refine ⟨fun h => by rw [h, utf8Length_nil, Nat.add_zero], fun h => ?_⟩
  by_contra hne
  have := utf8Length_pos hne
  omega

/-- The last line of a text starts at zero just if it is the only one. -/
theorem start_eq_zero_iff (l : LineOf source.toList) (h : l.after = []) :
    l.start = 0 ↔ '\n' ∉ source.toList := by
  have hsource := l.eq_append
  rw [h, List.append_nil] at hsource
  constructor
  · intro hstart
    have hbefore : l.before = [] := by
      by_contra hne
      exact absurd hstart (Nat.ne_of_gt (utf8Length_pos hne))
    rw [hsource, hbefore]
    exact l.newline_notMem
  · intro hnewline
    rcases l.before.eq_nil_or_concat' with hbefore | ⟨front, c, hbefore⟩
    · rw [start, hbefore, utf8Length_nil]
    · -- The line in front would end in a newline.
      obtain rfl : c = '\n' := l.before_ends c (by simp [hbefore])
      exact absurd (by simp [hsource, hbefore]) hnewline

/-- The places told to a line are those whose positions have its number. -/
theorem reaches_iff (l : LineOf source.toList) (hsize : source.utf8ByteSize < 2 ^ 32 - 1)
    (hn : n < 2 ^ 32 - 1) :
    l.Reaches n ↔ ((Lines.ofSource source).position n).line = l.number.toUInt32 := by
  refine ⟨fun h => by rw [l.position_eq hsize hn h.1 h.2], fun h => ?_⟩
  obtain ⟨m, hstart, hstop⟩ := exists_at source.toList n
  rw [m.position_eq hsize hn hstart hstop, ← UInt32.toNat_inj,
    Lines.toNat_toUInt32_of_lt (m.number_lt hsize),
    Lines.toNat_toUInt32_of_lt (l.number_lt hsize)] at h
  obtain ⟨hstarts, htexts⟩ := start_eq_of_number_eq h
  have hstops : m.stop = l.stop := by rw [stop, stop, hstarts, htexts]
  rw [after_eq_nil_iff, hstops, ← after_eq_nil_iff] at hstop
  exact ⟨hstarts ▸ hstart, hstop⟩

theorem reaches_iff_holds (l : LineOf source.toList) (hn : n ≤ source.utf8ByteSize) :
    l.Reaches n ↔ l.Holds n := by
  rw [Reaches, Holds, after_eq_nil_iff]
  have := l.stop_le
  omega

/-- The places on a line are those whose positions have its number. -/
theorem holds_iff (l : LineOf source.toList) (hsize : source.utf8ByteSize < 2 ^ 32 - 1)
    (hn : n ≤ source.utf8ByteSize) :
    l.Holds n ↔ ((Lines.ofSource source).position n).line = l.number.toUInt32 := by
  rw [← l.reaches_iff_holds hn, l.reaches_iff hsize (Nat.lt_of_le_of_lt hn hsize)]

/-- The text of a line is found under its number. -/
theorem text?_number (l : LineOf source.toList) (hsize : source.utf8ByteSize < 2 ^ 32 - 1) :
    (Lines.ofSource source).text? l.number.toUInt32 = some (String.ofList l.text) := by
  obtain ⟨ps, qs, hpieces, hnumber, -, -⟩ := l.exists_pieces
  have htoNat := Lines.toNat_toUInt32_of_lt (l.number_lt hsize)
  have hne : l.number.toUInt32 ≠ 0 := by
    rw [Ne, ← UInt32.toNat_inj, htoNat]
    exact Nat.succ_ne_zero _
  have hindex : l.number.toUInt32.toNat - 1 = ps.length := by omega
  rw [Lines.text?, if_neg hne, hindex, Lines.ofSource, ← List.getElem?_map, Line.map_text_layOut,
    hpieces, List.map_append, List.map_cons, List.getElem?_append_right (by simp)]
  simp

end LineOf

namespace Lines

variable {source text : String} {number : UInt32}

theorem mem_splitOn_of_text? (h : (ofSource source).text? number = some text) :
    text.toList ∈ source.toList.splitOn '\n' := by
  rw [text?] at h
  split at h
  · cases h
  · have hmem : text ∈ (ofSource source).toList.map Line.text := by
      rw [← List.getElem?_map] at h
      exact List.mem_of_getElem? h
    rw [ofSource, Line.map_text_layOut] at hmem
    obtain ⟨p, hp, rfl⟩ := List.mem_map.1 hmem
    rwa [String.toList_ofList]

/-- A line has no characters that its text has not. -/
theorem toList_subset_of_text? (h : (ofSource source).text? number = some text) :
    text.toList ⊆ source.toList :=
  fun _ hc => (of_mem_splitOn (mem_splitOn_of_text? h) hc).2

end Lines

end TriLang
