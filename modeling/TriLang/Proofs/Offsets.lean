import Mathlib.Tactic.TFAE
import TriLang.Proofs.LineTexts

/-!
# Offsets, lines and bytes

The bytes of a text tell where its lines are: a line starts behind a newline, its number counts the
newlines in front of it, and the column of a place is its distance from there.  So a place can be
found again from its line and column, and the text from its lines.  An offset of any size counts
modulo `2 ^ 32`, and its line and column are in range as well, with one exception: in a text of one
line, the greatest word would be at a column that no word can hold, and has no position.
-/

namespace TriLang

/-! ## Bytes of a text -/

/-- The bytes of a text in UTF-8. -/
def bytes (source : String) : List UInt8 := source.toUTF8.data.toList

def newlineByte : UInt8 := 10

/-- The bytes that spell `cs`. -/
def encode (cs : List Char) : List UInt8 := cs.flatMap String.utf8EncodeChar

theorem encode_toList (source : String) : encode source.toList = bytes source := by
  have h := congrArg (fun b : ByteArray => b.data.toList) (String.utf8Encode_toList (b := source))
  rwa [List.utf8Encode, List.toList_data_toByteArray] at h

@[simp] theorem encode_nil : encode [] = [] := rfl

theorem encode_append (cs ds : List Char) : encode (cs ++ ds) = encode cs ++ encode ds :=
  List.flatMap_append

theorem length_encode (cs : List Char) : (encode cs).length = utf8Length cs := by
  induction cs with
  | nil => rfl
  | cons c cs ih =>
    rw [encode, List.flatMap_cons, List.length_append, String.length_utf8EncodeChar,
      utf8Length_cons, ← ih, encode]

theorem length_bytes (source : String) : (bytes source).length = source.utf8ByteSize := by
  rw [← encode_toList, length_encode, utf8Length_toList]

/-- Only a newline has the byte of a newline: the bytes of other characters are larger. -/
theorem count_newlineByte_utf8EncodeChar (c : Char) :
    (String.utf8EncodeChar c).count newlineByte = if c = '\n' then 1 else 0 := by
  have hc : c = '\n' ↔ c.val.toNat = 10 := by
    rw [← Char.val_inj, ← UInt32.toNat_inj]
    rfl
  have hbyte (n : Nat) : UInt8.ofNat n = newlineByte ↔ n % 256 = 10 := by
    rw [← UInt8.toNat_inj, UInt8.toNat_ofNat']
    rfl
  have hlt := c.val.toNat_lt
  simp only [String.utf8EncodeChar, hc]
  split_ifs <;> simp only [List.count_cons, List.count_nil, beq_iff_eq, hbyte] <;> split_ifs <;>
    omega

theorem count_newlineByte_encode (cs : List Char) :
    (encode cs).count newlineByte = cs.count '\n' := by
  induction cs with
  | nil => rfl
  | cons c cs ih =>
    rw [encode, List.flatMap_cons, List.count_append, count_newlineByte_utf8EncodeChar,
      List.count_cons, ← ih, encode, Nat.add_comm]
    simp

theorem newlineByte_mem_encode_iff (cs : List Char) : newlineByte ∈ encode cs ↔ '\n' ∈ cs := by
  rw [← List.count_pos_iff, count_newlineByte_encode, List.count_pos_iff]

/-! ## Line starts -/

/-- The line of the place `n` starts at `start`: at the beginning of the text, or behind the last
newline in front of `n`. -/
structure StartsLine (bs : List UInt8) (n start : Nat) : Prop where
  le : start ≤ n
  behind_newline : start = 0 ∨ bs[start - 1]? = some newlineByte
  no_newline : ∀ i, start ≤ i → i < n → bs[i]? ≠ some newlineByte

namespace LineOf

variable {source : String} {n i : Nat}

theorem bytes_eq (l : LineOf source.toList) :
    bytes source = encode l.before ++ (encode l.text ++ encode l.after) := by
  rw [← encode_append, ← encode_append, ← l.eq_append, encode_toList]

theorem length_encode_before (l : LineOf source.toList) : (encode l.before).length = l.start :=
  length_encode l.before

theorem encode_text_eq (l : LineOf source.toList) :
    encode l.text = ((bytes source).take l.stop).drop l.start := by
  have hbefore := l.length_encode_before
  have hwidth : (encode l.text).length = l.stop - l.start := by
    rw [length_encode, stop, Nat.add_sub_cancel_left]
  rw [l.bytes_eq, List.drop_take, ← hwidth, ← hbefore, List.drop_left, List.take_left]

/-- The bytes from the start of a line on are those of its text. -/
theorem getElem?_bytes (l : LineOf source.toList) (hstart : l.start ≤ n) (hstop : n < l.stop) :
    (bytes source)[n]? = (encode l.text)[n - l.start]? := by
  have hlength := length_encode l.text
  rw [stop] at hstop
  rw [l.bytes_eq, List.getElem?_append_right (by rw [l.length_encode_before]; exact hstart),
    l.length_encode_before, List.getElem?_append_left (by omega)]

/-- Behind a line that is not the last one stands a newline. -/
theorem getElem?_bytes_stop (l : LineOf source.toList) (h : l.after ≠ []) :
    (bytes source)[l.stop]? = some newlineByte := by
  obtain ⟨c, after, hafter⟩ := List.exists_cons_of_ne_nil h
  obtain rfl : c = '\n' := l.after_begins c (by simp [hafter])
  have hlength := length_encode l.text
  have hbefore := l.length_encode_before
  have hnewline : encode l.after = newlineByte :: encode after := by rw [hafter]; rfl
  rw [l.bytes_eq, hnewline, stop, List.getElem?_append_right (by omega),
    List.getElem?_append_right (by omega)]
  simp [hbefore, hlength]

/-- The line that a place falls on starts where the bytes of the text tell. -/
theorem startsLine (l : LineOf source.toList) (hstart : l.start ≤ n)
    (hstop : n ≤ l.stop ∨ l.after = []) : StartsLine (bytes source) n l.start := by
  refine ⟨hstart, ?_, fun i hi hn hbyte => ?_⟩
  · rcases l.before.eq_nil_or_concat' with hnil | ⟨front, c, hbefore⟩
    · exact .inl (by rw [start, hnil]; rfl)
    · obtain rfl : c = '\n' := l.before_ends c (by simp [hbefore])
      have hencode : encode l.before = encode front ++ [newlineByte] := by
        rw [hbefore, encode_append]
        rfl
      have hlength := l.length_encode_before
      rw [hencode, List.length_append, List.length_singleton] at hlength
      refine .inr ?_
      rw [l.bytes_eq, hencode, ← hlength]
      simp
  · -- A byte of the line, or nothing at all behind the text.
    have hin : i < l.stop := by
      have hlt : i < (bytes source).length := (List.getElem?_eq_some_iff.1 hbyte).1
      rw [length_bytes, ← l.stop_add_utf8Length_after] at hlt
      rcases hstop with hstop | hafter
      · omega
      · rw [hafter, utf8Length_nil] at hlt
        exact hlt
    rw [l.getElem?_bytes hi hin] at hbyte
    exact l.newline_notMem ((newlineByte_mem_encode_iff _).1 (List.mem_of_getElem? hbyte))

/-- The number of a line counts the newlines in front of any place on it. -/
theorem number_eq_count (l : LineOf source.toList) (hstart : l.start ≤ n)
    (hstop : n ≤ l.stop ∨ l.after = []) :
    l.number = ((bytes source).take n).count newlineByte + 1 := by
  have hbefore := l.length_encode_before
  have hfront : (bytes source).take n =
      encode l.before ++ (encode l.text ++ encode l.after).take (n - l.start) := by
    rw [l.bytes_eq, List.take_append, List.take_of_length_le (by omega), hbefore]
  have hnone : ((encode l.text ++ encode l.after).take (n - l.start)).count newlineByte = 0 := by
    have htext : newlineByte ∉ encode l.text :=
      fun h => l.newline_notMem ((newlineByte_mem_encode_iff _).1 h)
    refine List.count_eq_zero.2 fun h => htext ?_
    rcases hstop with hstop | hafter
    · rw [List.take_append_of_le_length] at h
      · exact List.mem_of_mem_take h
      · rw [length_encode]
        rw [stop] at hstop
        omega
    · rw [hafter, encode_nil, List.append_nil] at h
      exact List.mem_of_mem_take h
  rw [hfront, List.count_append, hnone, Nat.add_zero, count_newlineByte_encode, number]

/-- A line is found under its number. -/
theorem getElem?_toList (l : LineOf source.toList) :
    (Lines.ofSource source).toList[l.number - 1]? =
      some ⟨l.start.toUInt32, String.ofList l.text⟩ := by
  obtain ⟨ps, qs, hpieces, hnumber, hextent, -⟩ := l.exists_pieces
  have hindex : l.number - 1 = (Line.layOut 0 ps).length := by
    rw [Lines.length_layOut]
    omega
  rw [Lines.ofSource, hpieces, Line.layOut_append, Line.layOut, hindex,
    List.getElem?_append_right (Nat.le_refl _), Nat.sub_self, List.getElem?_cons_zero,
    Nat.zero_add, hextent]

end LineOf

namespace LineOf

variable {source : String}

/-- Behind a line that is not the last one comes another. -/
theorem exists_next (l : LineOf source.toList) (h : l.after ≠ []) :
    ∃ m : LineOf source.toList, m.number = l.number + 1 ∧ m.start = l.stop + 1 := by
  have hnewline := l.getElem?_bytes_stop h
  obtain ⟨m, hstart, hstop⟩ := exists_at source.toList (l.stop + 1)
  refine ⟨m, ?_, Nat.le_antisymm hstart (Nat.lt_of_not_le fun hle => ?_)⟩
  · have hl := l.number_eq_count (n := l.stop) (Nat.le_add_right _ _) (.inl (Nat.le_refl _))
    rw [m.number_eq_count hstart hstop, List.take_add_one, hnewline, List.count_append, hl]
    rfl
  · exact (m.startsLine hstart hstop).no_newline l.stop hle (Nat.lt_succ_self _) hnewline

theorem number_eq_length_iff (l : LineOf source.toList) :
    l.number = (Lines.ofSource source).toList.length ↔ l.after = [] := by
  constructor
  · intro hnumber
    by_contra hafter
    obtain ⟨m, hm, -⟩ := l.exists_next hafter
    have hnext := m.getElem?_toList
    rw [hm, hnumber, Nat.add_sub_cancel, List.getElem?_eq_none (Nat.le_refl _)] at hnext
    cases hnext
  · intro hafter
    obtain ⟨ps, qs, hpieces, hnumber, -, hlast⟩ := l.exists_pieces
    rw [Lines.ofSource, Lines.length_layOut, hpieces, hlast hafter, List.length_append,
      List.length_singleton, hnumber]

/-- All numbers up to that of the last line are those of lines. -/
theorem exists_number {i : Nat} (h : i < (Lines.ofSource source).toList.length) :
    ∃ l : LineOf source.toList, l.number = i + 1 := by
  induction i with
  | zero =>
    obtain ⟨l, hstart, -⟩ := exists_at source.toList 0
    have hbefore : l.before = [] := by
      by_contra hne
      exact absurd hstart (Nat.not_le.2 (utf8Length_pos hne))
    exact ⟨l, by rw [number, hbefore]; rfl⟩
  | succ i ih =>
    obtain ⟨l, hl⟩ := ih (Nat.lt_of_succ_lt h)
    obtain ⟨m, hm, -⟩ := l.exists_next fun hafter => by
      rw [← number_eq_length_iff, hl] at hafter
      omega
    exact ⟨m, by rw [hm, hl]⟩

end LineOf

/-! ## Positions of offsets -/

/-- What the line of a position says of the place `n` of a text: it is one of the lines, it counts
the newlines in front of the place, and `start`, found under it, is where the line starts. -/
structure Position.IsOnLine (p : Position) (source : String) (n start : Nat) : Prop where
  one_le_line : 1 ≤ p.line
  line_le_count : p.line ≤ (Lines.ofSource source).count
  line_eq : p.line.toNat = ((bytes source).take n).count newlineByte + 1
  startsLine : StartsLine (bytes source) n start
  getElem?_eq : (Lines.ofSource source).toList[p.line.toNat - 1]?.map (·.start.toNat) = some start

/-- Positions are in the order of their lines, and on one line in the order of their columns. -/
instance : LT Position :=
  ⟨fun p q => p.line < q.line ∨ p.line = q.line ∧ p.column < q.column⟩

/-- What a position says of the place `n` of a text: its line counts the newlines in front, its
column the bytes from the start of the line, so that the two together give the place back. -/
structure Position.Locates (p : Position) (source : String) (n : Nat) : Prop where
  line_eq : p.line.toNat = ((bytes source).take n).count newlineByte + 1
  exists_start : ∃ start, StartsLine (bytes source) n start ∧ p.column.toNat = n - start + 1 ∧
    (Lines.ofSource source).toList[p.line.toNat - 1]?.map (·.start.toNat) = some start ∧
    start + (p.column.toNat - 1) = n

namespace Lines

variable {source : String} {m n : Nat}

theorem toNat_count (hsize : source.utf8ByteSize < 2 ^ 32 - 1) :
    (ofSource source).count.toNat = (ofSource source).toList.length := by
  have := length_ofSource_le source
  exact toNat_toUInt32_of_lt (by omega)

/-- The position of a place, if it has one, is that of its line. -/
theorem isOnLine_of_position? {p : Position} (l : LineOf source.toList)
    (hsize : source.utf8ByteSize < 2 ^ 32 - 1) (hn : n < 2 ^ 32) (hstart : l.start ≤ n)
    (hstop : n ≤ l.stop ∨ l.after = []) (hp : (ofSource source).position? n = some p) :
    p.IsOnLine source n l.start ∧ p.column.toNat = n - l.start + 1 := by
  obtain ⟨hnumber, hreached⟩ := l.reached_eq hsize hn hstart hstop
  have hat := toNat_toUInt32_of_lt (n := l.start) (by omega)
  obtain ⟨hline, hcolumn⟩ := position?_eq_some_iff.1 hp
  have hline : p.line.toNat = l.number := by
    rw [hline, hnumber, toNat_toUInt32_of_lt (l.number_lt hsize)]
  have hcount := l.number_eq_count hstart hstop
  have hle := (ofSource source).length_reached_le n
  refine ⟨⟨?_, ?_, hline.trans hcount, l.startsLine hstart hstop, ?_⟩, ?_⟩
  · rw [UInt32.le_iff_toNat_le, hline, UInt32.toNat_one]
    omega
  · rwa [UInt32.le_iff_toNat_le, hline, toNat_count hsize, ← hnumber]
  · rw [hline, l.getElem?_toList, Option.map_some, hat]
  · rw [hcolumn, hreached, hat, Nat.mod_eq_of_lt hn]

theorem exists_locates (hsize : source.utf8ByteSize < 2 ^ 32 - 1) (hn : n < 2 ^ 32 - 1) :
    ∃ p, (ofSource source).position? n = some p ∧ p.Locates source n := by
  obtain ⟨l, hstart, hstop⟩ := LineOf.exists_at source.toList n
  obtain ⟨hl, hcolumn⟩ := isOnLine_of_position? l hsize (by omega) hstart hstop
    (position?_eq_some_position hn)
  refine ⟨_, position?_eq_some_position hn, hl.line_eq, l.start, hl.startsLine, hcolumn,
    hl.getElem?_eq, ?_⟩
  rw [hcolumn]
  omega

end Lines

namespace Position

variable {source : String} {m n : Nat} {p q : Position}

/-- A place further on has a later position. -/
theorem Locates.lt (hp : p.Locates source m) (hq : q.Locates source n) (h : m < n) : p < q := by
  have hcount : ((bytes source).take m).count newlineByte ≤
      ((bytes source).take n).count newlineByte :=
    (List.take_sublist_take_left (Nat.le_of_lt h)).count_le newlineByte
  obtain ⟨start, hstart, hcolumn, htable, -⟩ := hp.exists_start
  obtain ⟨start', hstart', hcolumn', htable', -⟩ := hq.exists_start
  by_cases hline : p.line = q.line
  · -- Both lie on one line, whose start is found under its number.
    rw [hline, htable', Option.some_inj] at htable
    have := hstart.le
    refine .inr ⟨hline, ?_⟩
    rw [UInt32.lt_iff_toNat_lt, hcolumn, hcolumn', htable]
    omega
  · refine .inl ?_
    rw [← UInt32.toNat_inj, hp.line_eq, hq.line_eq] at hline
    rw [UInt32.lt_iff_toNat_lt, hp.line_eq, hq.line_eq]
    omega

end Position

namespace Lines

variable {source : String} {m n : Nat}

/-- Positions are exact for all places in a text and behind it, and in the order of the places. -/
theorem ofSource_position (source : String) (hsize : source.utf8ByteSize < 2 ^ 32 - 1) :
    (∀ n < 2 ^ 32 - 1, ∃ p, (ofSource source).position? n = some p ∧ p.Locates source n) ∧
      ∀ m n, m < n → n < 2 ^ 32 - 1 →
        ∃ p q, (ofSource source).position? m = some p ∧ (ofSource source).position? n = some q ∧
          p < q := by
  refine ⟨fun _ hn => exists_locates hsize hn, fun m n h hn => ?_⟩
  obtain ⟨p, hp, hlocates⟩ := exists_locates hsize (Nat.lt_trans h hn)
  obtain ⟨q, hq, hlocates'⟩ := exists_locates hsize hn
  exact ⟨p, q, hp, hq, hlocates.lt hlocates' h⟩

/-- A place on an empty line, behind a character of two bytes, and one behind the text. -/
theorem ofSource_position_behindText :
    let source := "é\n\nb"
    source.utf8ByteSize < 2 ^ 32 - 1 ∧
      (ofSource source).position? 3 = some ⟨2, 1⟩ ∧ Position.Locates ⟨2, 1⟩ source 3 ∧
      (ofSource source).position? 9 = some ⟨3, 6⟩ ∧ Position.Locates ⟨3, 6⟩ source 9 ∧
      (⟨2, 1⟩ : Position) < ⟨3, 6⟩ := by
  intro source
  have hsize : source.utf8ByteSize < 2 ^ 32 - 1 := by decide +kernel
  have hempty : (ofSource source).position? 3 = some ⟨2, 1⟩ := by decide +kernel
  have hbehind : (ofSource source).position? 9 = some ⟨3, 6⟩ := by decide +kernel
  obtain ⟨hlocates, hlt⟩ := ofSource_position source hsize
  obtain ⟨p, hp, hempty'⟩ := hlocates 3 (by decide)
  obtain ⟨q, hq, hbehind'⟩ := hlocates 9 (by decide)
  obtain ⟨p', q', hp', hq', hlt⟩ := hlt 3 9 (by decide) (by decide)
  rw [hempty, Option.some_inj] at hp hp'
  rw [hbehind, Option.some_inj] at hq hq'
  subst hp hp' hq hq'
  exact ⟨hsize, hempty, hempty', hbehind, hbehind', hlt⟩

/-! ## Offsets of any size -/

/-- An offset and its word have one position. -/
theorem position?_mod (ls : Lines) (offset : Nat) :
    ls.position? (offset % 2 ^ 32) = ls.position? offset := by
  have hword : (offset % 2 ^ 32).toUInt32 = offset.toUInt32 := UInt32.ofNat_mod_size
  rw [position?, position?, hword]

/-- Lines and columns are in range for an offset of any size, and exact for the word of the offset.
Only the greatest word has no position if the text has one line: its column is one more than a word
can hold. -/
theorem ofSource_position_inRange (source : String) (hsize : source.utf8ByteSize < 2 ^ 32 - 1)
    (offset : Nat) :
    ∃ start, StartsLine (bytes source) (offset % 2 ^ 32) start ∧
      (∀ p, (ofSource source).position? offset = some p →
        p.IsOnLine source (offset % 2 ^ 32) start ∧ 1 ≤ p.column ∧
          p.column.toNat = offset % 2 ^ 32 - start + 1) ∧
      [(ofSource source).position? offset = none, offset % 2 ^ 32 - start + 1 = 2 ^ 32,
        offset % 2 ^ 32 = 2 ^ 32 - 1 ∧ '\n' ∉ source.toList].TFAE := by
  have hword : offset % 2 ^ 32 < 2 ^ 32 := Nat.mod_lt _ (by decide)
  obtain ⟨l, hstart, hstop⟩ := LineOf.exists_at source.toList (offset % 2 ^ 32)
  refine ⟨l.start, l.startsLine hstart hstop, fun p hp => ?_, ?_⟩
  · rw [← position?_mod] at hp
    obtain ⟨hl, hcolumn⟩ := isOnLine_of_position? l hsize hword hstart hstop hp
    refine ⟨hl, ?_, hcolumn⟩
    rw [UInt32.le_iff_toNat_le, hcolumn, UInt32.toNat_one]
    exact Nat.succ_pos _
  · have hreached := (l.reached_eq hsize hword hstart hstop).2
    have hat := toNat_toUInt32_of_lt (n := l.start) (by omega)
    -- The greatest word lies behind the text, so it is told to the last line.
    have hgreatest (h : offset % 2 ^ 32 = 2 ^ 32 - 1) : l.start = 0 ↔ '\n' ∉ source.toList := by
      refine l.start_eq_zero_iff (hstop.resolve_left fun hle => ?_)
      have := l.stop_le
      omega
    tfae_have 1 ↔ 2 := by
      rw [← position?_mod, position?_eq_none_iff, hreached, hat, Nat.mod_mod]
      omega
    tfae_have 2 ↔ 3 := by
      rw [← and_congr_right hgreatest]
      omega
    tfae_finish

/-- The greatest word is as far as a column goes if a newline stands in front of it. -/
theorem ofSource_position_inRange_secondLine :
    let source := "\n"
    let offset := 2 ^ 33 - 1
    source.utf8ByteSize < 2 ^ 32 - 1 ∧
      (ofSource source).position? offset = some ⟨2, 4294967295⟩ ∧
      ∃ start, Position.IsOnLine ⟨2, 4294967295⟩ source (offset % 2 ^ 32) start ∧
        4294967295 = offset % 2 ^ 32 - start + 1 := by
  intro source offset
  have hsize : source.utf8ByteSize < 2 ^ 32 - 1 := by decide +kernel
  have hposition : (ofSource source).position? offset = some ⟨2, 4294967295⟩ := by decide +kernel
  obtain ⟨start, -, hinRange, -⟩ := ofSource_position_inRange source hsize offset
  obtain ⟨hline, -, hcolumn⟩ := hinRange _ hposition
  exact ⟨hsize, hposition, start, hline, hcolumn⟩

/-- Without a newline it has no line and column at all. -/
theorem ofSource_position_greatestWord :
    let source := "n := 1"
    let offset := 2 ^ 32 - 1
    source.utf8ByteSize < 2 ^ 32 - 1 ∧ offset < 2 ^ 64 ∧
      (ofSource source).toList.map Line.start = [0] ∧ ¬offset - 0 + 1 < 2 ^ 32 ∧
      (ofSource source).position? offset = none ∧
      ¬∃ p, (ofSource source).position? offset = some p ∧ 1 ≤ p.column := by
  intro source offset
  have hnone : (ofSource source).position? offset = none := by decide +kernel
  refine ⟨by decide +kernel, by decide, by decide +kernel, by decide, hnone, ?_⟩
  rintro ⟨p, hp, -⟩
  rw [hnone] at hp
  cases hp

/-! ## Texts of lines -/

theorem isSome_text?_iff (hsize : source.utf8ByteSize < 2 ^ 32 - 1) (k : UInt32) :
    ((ofSource source).text? k).isSome ↔ 1 ≤ k ∧ k ≤ (ofSource source).count := by
  have hzero : k = 0 ↔ k.toNat = 0 := by
    rw [← UInt32.toNat_inj]
    rfl
  rw [UInt32.le_iff_toNat_le, UInt32.le_iff_toNat_le, toNat_count hsize, text?, UInt32.toNat_one]
  by_cases hk : k = 0
  · have := hzero.1 hk
    rw [if_pos hk, Option.isSome_none]
    simp [this]
  · have := hzero.not.1 hk
    rw [if_neg hk, Option.isSome_map, isSome_getElem?, ← Nat.succ_le_iff]
    omega

/-- The line numbered `k` ends one byte in front of the start of the next, or at the end of the text
if there is none. -/
def lineEnd (source : String) (k : UInt32) : Nat :=
  ((ofSource source).toList[k.toNat]?.map (·.start.toNat - 1)).getD source.utf8ByteSize

theorem lineEnd_number (l : LineOf source.toList) (hsize : source.utf8ByteSize < 2 ^ 32 - 1) :
    lineEnd source l.number.toUInt32 = l.stop := by
  rw [lineEnd, toNat_toUInt32_of_lt (l.number_lt hsize)]
  by_cases hafter : l.after = []
  · rw [List.getElem?_eq_none (Nat.le_of_eq (l.number_eq_length_iff.2 hafter).symm),
      l.after_eq_nil_iff.1 hafter]
    rfl
  · obtain ⟨m, hnumber, hstart⟩ := l.exists_next hafter
    have hnext := m.getElem?_toList
    have hle := m.stop_le
    rw [LineOf.stop] at hle
    rw [hnumber, Nat.add_sub_cancel] at hnext
    rw [hnext, Option.map_some, Option.getD_some, toNat_toUInt32_of_lt (by omega), hstart,
      Nat.add_sub_cancel]

/-- The text of a line is what the source has from the start of the line to its end. -/
theorem bytes_text? (hsize : source.utf8ByteSize < 2 ^ 32 - 1) {k : UInt32} {text : String}
    (h : (ofSource source).text? k = some text) :
    ∃ start, (ofSource source).toList[k.toNat - 1]?.map (·.start.toNat) = some start ∧
      bytes text = ((bytes source).take (lineEnd source k)).drop start := by
  obtain ⟨hone, hcount⟩ := (isSome_text?_iff hsize k).1 (Option.isSome_of_eq_some h)
  rw [UInt32.le_iff_toNat_le, UInt32.toNat_one] at hone
  rw [UInt32.le_iff_toNat_le, toNat_count hsize] at hcount
  obtain ⟨l, hnumber⟩ : ∃ l : LineOf source.toList, l.number = k.toNat - 1 + 1 :=
    LineOf.exists_number (by omega)
  obtain rfl : l.number.toUInt32 = k := by
    rw [← UInt32.toNat_inj, toNat_toUInt32_of_lt (l.number_lt hsize)]
    omega
  have hle := l.stop_le
  rw [LineOf.stop] at hle
  rw [l.text?_number hsize, Option.some_inj] at h
  refine ⟨l.start, ?_, ?_⟩
  · rw [toNat_toUInt32_of_lt (l.number_lt hsize), l.getElem?_toList, Option.map_some,
      toNat_toUInt32_of_lt (by omega)]
  · rw [← h, lineEnd_number l hsize, ← encode_toList, String.toList_ofList, l.encode_text_eq]

/-- The lines in order have the texts that the source was cut into. -/
theorem map_text?_range (hsize : source.utf8ByteSize < 2 ^ 32 - 1) :
    (List.range (ofSource source).count.toNat).map
        (fun i => (ofSource source).text? (i + 1).toUInt32) =
      ((ofSource source).toList.map Line.text).map some := by
  have hle := length_ofSource_le source
  rw [toNat_count hsize]
  refine List.ext_getElem (by simp) fun i hi _ => ?_
  rw [List.length_map, List.length_range] at hi
  have hnat := toNat_toUInt32_of_lt (n := i + 1) (by omega)
  have hne : (i + 1).toUInt32 ≠ 0 := by
    rw [Ne, ← UInt32.toNat_inj, hnat]
    exact Nat.succ_ne_zero i
  rw [List.getElem_map, List.getElem_range, text?, if_neg hne, hnat, Nat.add_sub_cancel,
    List.getElem?_eq_getElem hi, Option.map_some, List.getElem_map, List.getElem_map]

/-- The lines of a text with newlines between them are the text. -/
theorem intercalate_map_text (source : String) :
    String.intercalate "\n" ((ofSource source).toList.map Line.text) = source := by
  have hpieces : (source.toList.splitOn '\n').map (String.toList ∘ String.ofList) =
      source.toList.splitOn '\n' := by
    simp [Function.comp_def]
  rw [← String.toList_inj, String.toList_intercalate, ofSource, Line.map_text_layOut, List.map_map,
    hpieces]
  exact List.intercalate_splitOn '\n'

/-- The byte at the place `n` is found at its column in the text of its line, or is the newline
behind the line. -/
def FindsByte (source : String) (n : Nat) : Prop :=
  ∃ p text, (ofSource source).position? n = some p ∧ (ofSource source).text? p.line = some text ∧
    ((∃ b, (bytes text)[p.column.toNat - 1]? = some b ∧ (bytes source)[n]? = some b) ∨
      (bytes source)[n]? = some newlineByte ∧ p.column.toNat - 1 = text.utf8ByteSize)

theorem findsByte (hsize : source.utf8ByteSize < 2 ^ 32 - 1) (hn : n < source.utf8ByteSize) :
    FindsByte source n := by
  obtain ⟨l, hstart, hstop⟩ := LineOf.exists_of_le (Nat.le_of_lt hn)
  have hcolumn := toNat_toUInt32_of_lt (n := n - l.start + 1) (by omega)
  have hlength : (String.ofList l.text).utf8ByteSize = utf8Length l.text := by
    rw [← utf8Length_toList, String.toList_ofList]
  have hbytes : bytes (String.ofList l.text) = encode l.text := by
    rw [← encode_toList, String.toList_ofList]
  refine ⟨_, _, LineOf.Holds.position?_eq ⟨hstart, hstop⟩ hsize, l.text?_number hsize, ?_⟩
  dsimp only
  rw [hcolumn, Nat.add_sub_cancel, hbytes, hlength]
  rcases Nat.lt_or_eq_of_le hstop with hlt | rfl
  · have hbyte := List.getElem?_eq_getElem (by rwa [length_bytes] : n < (bytes source).length)
    exact .inl ⟨_, (l.getElem?_bytes hstart hlt).symm.trans hbyte, hbyte⟩
  · refine .inr ⟨l.getElem?_bytes_stop fun hafter => ?_, Nat.add_sub_cancel_left ..⟩
    have hend := l.stop_add_utf8Length_after
    rw [hafter, utf8Length_nil] at hend
    omega

/-- A text is put together from its lines, and each of its bytes found on them. -/
theorem ofSource_reassembles (source : String) (hsize : source.utf8ByteSize < 2 ^ 32 - 1) :
    (∀ k, ((ofSource source).text? k).isSome ↔ 1 ≤ k ∧ k ≤ (ofSource source).count) ∧
      (∀ k text, (ofSource source).text? k = some text → '\n' ∉ text.toList) ∧
      (∃ texts, (List.range (ofSource source).count.toNat).map
          (fun i => (ofSource source).text? (i + 1).toUInt32) = texts.map some ∧
        String.intercalate "\n" texts = source) ∧
      ∀ n < source.utf8ByteSize, FindsByte source n :=
  ⟨isSome_text?_iff hsize,
    fun _ _ h hnewline => (of_mem_splitOn (mem_splitOn_of_text? h) hnewline).1 rfl,
    ⟨_, map_text?_range hsize, intercalate_map_text source⟩, fun _ hn => findsByte hsize hn⟩

/-- A text with an empty line in it and another at its end. -/
theorem ofSource_reassembles_emptyLines :
    let source := "é\n\nb\n"
    source.utf8ByteSize < 2 ^ 32 - 1 ∧
      (((ofSource source).text? 4).isSome ↔ 1 ≤ (4 : UInt32) ∧ 4 ≤ (ofSource source).count) ∧
      (∃ texts, (List.range (ofSource source).count.toNat).map
          (fun i => (ofSource source).text? (i + 1).toUInt32) = texts.map some ∧
        String.intercalate "\n" texts = source) ∧ FindsByte source 2 ∧
      (ofSource source).text? 4 = some "" ∧ (ofSource source).count = 4 := by
  intro source
  have hsize : source.utf8ByteSize < 2 ^ 32 - 1 := by decide +kernel
  obtain ⟨hsome, -, htexts, hbytes⟩ := ofSource_reassembles source hsize
  exact ⟨hsize, hsome 4, htexts, hbytes 2 (by decide +kernel), by decide +kernel, by decide +kernel⟩

end Lines

end TriLang
