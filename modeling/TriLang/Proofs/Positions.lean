import Mathlib.Data.List.TakeWhile
import TriLang.Lines
import TriLang.Proofs.Lossless

/-!
# Positions in a text

Lines and columns are 32-bit words.  A place has a position if its column is a word; only the
greatest offset word may be without one.  As long as lines do not wrap, a place further on in a text
has a later position.
-/

namespace TriLang

/-! ## Lists of what may be absent -/

section MapM

variable {α β γ : Type} {f : α → Option β} {as : List α} {bs : List β}

/-- What is looked up for a list is found if it is found for each of its members. -/
theorem mapM_eq_some_iff : as.mapM f = some bs ↔ as.map f = bs.map some := by
  induction as generalizing bs with
  | nil => cases bs <;> simp
  | cons a as ih => cases bs <;> simp [Option.bind_eq_some_iff, ih]

theorem exists_mem_of_mapM (h : as.mapM f = some bs) {b : β} (hb : b ∈ bs) :
    ∃ a ∈ as, f a = some b := by
  have hmem : some b ∈ as.map f := mapM_eq_some_iff.1 h ▸ List.mem_map_of_mem hb
  exact List.mem_map.1 hmem

theorem mapM_eq_none_iff : as.mapM f = none ↔ ∃ a ∈ as, f a = none := by
  induction as with
  | nil => simp
  | cons a as ih =>
    have hcons : (a :: as).mapM f = none ↔ f a = none ∨ as.mapM f = none := by
      cases ha : f a <;> cases hs : as.mapM f <;> simp [ha, hs]
    rw [hcons, ih, List.exists_mem_cons_iff]

theorem mapM_eq_some_map {g : α → β} (h : ∀ a ∈ as, f a = some (g a)) :
    as.mapM f = some (as.map g) := by
  rw [mapM_eq_some_iff, List.map_map]
  exact List.map_congr_left h

theorem mapM_map_option (g : β → γ) (as : List α) :
    as.mapM (fun a => (f a).map g) = (as.mapM f).map (List.map g) := by
  induction as with
  | nil => rfl
  | cons a as ih => cases ha : f a <;> cases hs : as.mapM f <;> simp_all

theorem mapM_map_eq_some (h : as.map f = bs.map some) (g : α → β → γ) :
    as.mapM (fun a => (f a).map (g a)) = some (List.zipWith g as bs) := by
  induction as generalizing bs with
  | nil => rfl
  | cons a as ih =>
    obtain ⟨b, bs, rfl, hb, hbs⟩ := List.map_eq_cons_iff.1 h.symm
    simp [← hb, ih hbs.symm]

end MapM

/-- Positions are in the order of their lines, and on one line in the order of their columns. -/
instance : LE Position :=
  ⟨fun p q => p.line < q.line ∨ p.line = q.line ∧ p.column ≤ q.column⟩

namespace Lines

/-! ## How many lines a text has -/

theorem length_splitOn (sep : Char) (cs : List Char) :
    (cs.splitOn sep).length = cs.count sep + 1 := by
  induction cs with
  | nil => rfl
  | cons c cs ih =>
    rw [List.splitOn_cons_eq_if_modifyHead, List.count_cons]
    by_cases h : c == sep
    · simp [h, ih]
    · simp [h, ih]

theorem length_layOut (offset : Nat) (pieces : List (List Char)) :
    (Line.layOut offset pieces).length = pieces.length := by
  induction pieces generalizing offset with
  | nil => rfl
  | cons piece pieces ih => simp [Line.layOut, ih]

theorem length_le_utf8Length (cs : List Char) : cs.length ≤ utf8Length cs := by
  induction cs with
  | nil => exact Nat.le_refl 0
  | cons c cs ih =>
    have := c.utf8Size_pos
    rw [List.length_cons, utf8Length_cons]
    omega

/-- A text has one line more than it has newlines. -/
theorem length_ofSource (source : String) :
    (ofSource source).toList.length = source.toList.count '\n' + 1 := by
  rw [ofSource, length_layOut, length_splitOn]

theorem length_ofSource_le (source : String) :
    (ofSource source).toList.length ≤ source.utf8ByteSize + 1 := by
  have hcount : source.toList.count '\n' ≤ source.toList.length := List.count_le_length
  have hsize := length_le_utf8Length source.toList
  rw [utf8Length_toList] at hsize
  rw [length_ofSource]
  omega

/-! ## The order of positions -/

variable {ls : Lines} {a b : Nat}

/-- The lines that start at or before `offset`. -/
def reached (ls : Lines) (offset : Nat) : List Line :=
  ls.toList.takeWhile (·.start ≤ offset.toUInt32)

/-- Where the last line of `reached` starts. -/
def reachedStart (ls : Lines) (offset : Nat) : UInt32 :=
  ((ls.reached offset).getLast?.map Line.start).getD 0

theorem length_reached_le (ls : Lines) (offset : Nat) :
    (ls.reached offset).length ≤ ls.toList.length :=
  List.IsPrefix.length_le (List.takeWhile_prefix _)

theorem reached_prefix_reached (ls : Lines) (h : a.toUInt32 ≤ b.toUInt32) :
    ls.reached a <+: ls.reached b := by
  have heq : ls.reached a = (ls.reached b).takeWhile (·.start ≤ a.toUInt32) := by
    rw [reached, reached, List.takeWhile_takeWhile]
    congr 1
    funext l
    simpa using fun hl => UInt32.le_trans hl h
  rw [heq]
  exact List.takeWhile_prefix _

theorem reachedStart_le (ls : Lines) (offset : Nat) : ls.reachedStart offset ≤ offset.toUInt32 := by
  rw [reachedStart]
  rcases hl : (ls.reached offset).getLast? with _ | l
  · exact UInt32.zero_le
  · simpa using List.mem_takeWhile_imp (List.mem_of_getLast? hl)

theorem toNat_toUInt32_of_lt {n : Nat} (h : n < 2 ^ 32) : n.toUInt32.toNat = n :=
  UInt32.toNat_ofNat_of_lt' h

theorem position?_eq (ls : Lines) (offset : Nat) : ls.position? offset =
    if (offset.toUInt32 - ls.reachedStart offset).toNat + 1 < UInt32.size then
      some ⟨(ls.reached offset).length.toUInt32, offset.toUInt32 - ls.reachedStart offset + 1⟩
    else none := rfl

/-- An offset is not taken from a line ahead of it. -/
theorem toNat_sub_reachedStart (ls : Lines) (offset : Nat) :
    (offset.toUInt32 - ls.reachedStart offset).toNat =
      offset % 2 ^ 32 - (ls.reachedStart offset).toNat := by
  have hword : offset.toUInt32.toNat = offset % 2 ^ 32 := UInt32.toNat_ofNat'
  rw [UInt32.toNat_sub_of_le _ _ (ls.reachedStart_le offset), hword]

theorem position?_eq_some_iff {p : Position} : ls.position? a = some p ↔
    p.line = (ls.reached a).length.toUInt32 ∧
      p.column.toNat = a % 2 ^ 32 - (ls.reachedStart a).toNat + 1 := by
  obtain ⟨line, column⟩ := p
  have hdistance := ls.toNat_sub_reachedStart a
  rw [position?_eq]
  split
  case isTrue h =>
    have hcolumn : (a.toUInt32 - ls.reachedStart a + 1).toNat =
        a % 2 ^ 32 - (ls.reachedStart a).toNat + 1 := by
      rw [UInt32.toNat_add, UInt32.toNat_one, Nat.mod_eq_of_lt h, hdistance]
    rw [Option.some_inj, Position.mk.injEq, ← UInt32.toNat_inj (b := column), hcolumn]
    exact and_congr eq_comm eq_comm
  case isFalse h =>
    refine iff_of_false nofun fun ⟨_, hcolumn⟩ => h ?_
    rw [hdistance, ← hcolumn]
    exact column.toNat_lt

/-- The greatest word is the only offset that may be without a position: where it is told to a line
that starts at zero, its column would be one more than a word can hold. -/
theorem position?_eq_none_iff : ls.position? a = none ↔
    a % 2 ^ 32 = 2 ^ 32 - 1 ∧ (ls.reachedStart a).toNat = 0 := by
  have hword : a % 2 ^ 32 < 2 ^ 32 := Nat.mod_lt _ (by decide)
  have hnone : ls.position? a = none ↔
      ¬(a.toUInt32 - ls.reachedStart a).toNat + 1 < UInt32.size := by
    rw [position?_eq]
    split
    case isTrue h => exact iff_of_false nofun (not_not_intro h)
    case isFalse h => exact iff_of_true rfl h
  rw [hnone, toNat_sub_reachedStart, UInt32.size]
  omega

/-- The position of a place that has one. -/
def position (ls : Lines) (offset : Nat) : Position := (ls.position? offset).getD ⟨0, 0⟩

theorem position?_eq_some_position (h : a < 2 ^ 32 - 1) :
    ls.position? a = some (ls.position a) := by
  obtain ⟨p, hp⟩ : ∃ p, ls.position? a = some p := by
    refine Option.ne_none_iff_exists'.1 fun hnone => ?_
    have := (position?_eq_none_iff.1 hnone).1
    omega
  rw [position, hp, Option.getD_some]

theorem position_line (h : a < 2 ^ 32 - 1) :
    (ls.position a).line = (ls.reached a).length.toUInt32 :=
  (position?_eq_some_iff.1 (position?_eq_some_position h)).1

theorem column_toNat (h : a < 2 ^ 32 - 1) :
    (ls.position a).column.toNat = a - (ls.reachedStart a).toNat + 1 := by
  rw [(position?_eq_some_iff.1 (position?_eq_some_position h)).2, Nat.mod_eq_of_lt (by omega)]

/-- A place further on has a later position, or the same. -/
theorem position_le_position (hl : ls.toList.length < 2 ^ 32) (h : a ≤ b) (hb : b < 2 ^ 32 - 1) :
    ls.position a ≤ ls.position b := by
  have hline : (ls.position a).line = (ls.reached a).length.toUInt32 :=
    position_line (Nat.lt_of_le_of_lt h hb)
  have hline' : (ls.position b).line = (ls.reached b).length.toUInt32 := position_line hb
  have ha := toNat_toUInt32_of_lt (n := a) (by omega)
  have hab : a.toUInt32 ≤ b.toUInt32 := by
    rw [UInt32.le_iff_toNat_le, ha, toNat_toUInt32_of_lt (by omega)]
    exact h
  have hpre := ls.reached_prefix_reached hab
  have hlen := ls.length_reached_le b
  by_cases heq : (ls.reached a).length = (ls.reached b).length
  · have hr : ls.reached a = ls.reached b := hpre.eq_of_length heq
    have hs : ls.reachedStart a = ls.reachedStart b := by rw [reachedStart, reachedStart, hr]
    refine .inr ⟨by rw [hline, hline', hr], ?_⟩
    rw [UInt32.le_iff_toNat_le, column_toNat (Nat.lt_of_le_of_lt h hb), column_toNat hb, hs]
    omega
  · have hlt := Nat.lt_of_le_of_ne hpre.length_le heq
    have hla := toNat_toUInt32_of_lt (n := (ls.reached a).length) (by omega)
    have hlb := toNat_toUInt32_of_lt (n := (ls.reached b).length) (by omega)
    refine .inl ?_
    rw [hline, hline', UInt32.lt_iff_toNat_lt, hla, hlb]
    exact hlt

end Lines

end TriLang
