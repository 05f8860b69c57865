import TriLang.Proofs.LexicalClasses

/-!
# Texts one behind the other

A newline ends every token that is well formed, every comment and every run of blanks.  So two texts
with a newline between them have the tokens of the first and then those of the second, further on
by what stands in front of them, as long as no literal of the first is cut short: to such a one the
newline may belong.
-/

namespace TriLang

/-! ## Moving on in a text -/

/-- The place `n` bytes behind `s`. -/
def Span.shift (n : Nat) (s : Span) : Span := ⟨s.start + n, s.stop + n⟩

def Token.shift (n : Nat) (t : Token) : Token := { t with span := t.span.shift n }

def LexicalError.shift (n : Nat) (e : LexicalError) : LexicalError :=
  { e with span := e.span.shift n }

namespace Lexeme

def shift (n : Nat) (x : Lexeme) : Lexeme := { x with span := x.span.shift n }

theorem token_shift (n : Nat) (x : Lexeme) : (x.shift n).token = x.token.shift n := by
  obtain ⟨_ | _, _, _⟩ := x <;> rfl

theorem error?_shift (n : Nat) (x : Lexeme) : (x.shift n).error? = x.error?.map (.shift n) := by
  obtain ⟨_ | _, _, _⟩ := x <;> rfl

end Lexeme

namespace Scan

/-- Where a text starts makes no difference but to the places in it. -/
theorem lexemes_add (n offset : Nat) (text : List Char) :
    lexemes (offset + n) text = (lexemes offset text).map (Lexeme.shift n) := by
  induction offset, text using lexemes_induction with
  | nil offset => simp [lexemes]
  | blank offset c rest hc ih =>
    rw [lexemes, lexemes, if_pos hc, if_pos hc, ← ih, Nat.add_right_comm]
  | comment offset cs rest hcs hrest ih =>
    rw [lexemes_comment hcs hrest, lexemes_comment hcs hrest, ← ih, Nat.add_right_comm]
  | token offset v cs rest h ih =>
    rw [lexemes_of_munches h, lexemes_of_munches h, List.map_cons, ← ih, Nat.add_right_comm]
    rfl

end Scan

/-! ## A newline behind a text -/

/-- What begins with a curly quote and has no other in it is cut short. -/
theorem Spells.eq_malformed {v : Except LexicalFault TokenKind} {cs : List Char}
    (h : Spells ('’' :: cs) v) (hcs : '’' ∉ cs) : v = .error .malformedCharacter := by
  generalize hw : '’' :: cs = w at h
  cases h with
  | unclosedCurly => rfl
  | curly =>
    cases hw
    simp at hcs
  | keyword hk =>
    obtain ⟨c, ds, rfl, hc, -⟩ := Scan.exists_cons_of_keyword hk
    cases hw
    exact absurd hc (by decide)
  | name hc | integer hc | capitalized hc | operator hc | operatorEquals hc =>
    cases hw
    exact absurd hc (by decide)
  | other _ _ hsign =>
    cases hw
    exact absurd (by decide) hsign
  | _ => cases hw

/-- The newline lengthens no spelling but that of a literal cut short. -/
theorem Spells.not_continues_newline {v : Except LexicalFault TokenKind} {cs : List Char}
    (h : Spells cs v) (hv : v ≠ .error .malformedCharacter) : ¬Continues cs '\n' := by
  intro hc
  have hword : ¬IsWordCharacter '\n' := by simp [IsWordCharacter]
  cases hc with
  | word _ hd => exact hword hd
  | underscoreName hd => exact absurd hd (by decide)
  | integer _ hd => exact absurd hd (by decide)
  | quote => exact hv (h.functional .loneQuote)
  | curly hcs => exact hv (h.eq_malformed hcs)

theorem Munches.append_newline {v : Except LexicalFault TokenKind} {cs rest : List Char}
    (h : Munches v cs rest) (hv : v ≠ .error .malformedCharacter) (text : List Char) :
    Munches v cs (rest ++ '\n' :: text) := by
  refine ⟨h.spells, fun d hd => ?_⟩
  cases rest with
  | nil =>
    cases hd
    exact h.spells.not_continues_newline hv
  | cons c rest => exact h.ends d hd

namespace Scan

/-- Behind a newline the scanner starts afresh. -/
theorem lexemes_append_newline (offset : Nat) (text more : List Char)
    (h : ∀ x ∈ lexemes offset text, x.verdict ≠ .error .malformedCharacter) :
    lexemes offset (text ++ '\n' :: more) =
      lexemes offset text ++ lexemes (offset + utf8Length text + 1) more := by
  induction offset, text using lexemes_induction with
  | nil offset =>
    have hsize : '\n'.utf8Size = 1 := rfl
    simp [lexemes, isBlank, hsize]
  | blank offset c rest hc ih =>
    rw [lexemes, if_pos hc] at h
    rw [List.cons_append, lexemes, lexemes, if_pos hc, if_pos hc, ih h, utf8Length_cons,
      Nat.add_assoc offset]
  | comment offset cs rest hcs hrest ih =>
    rw [lexemes_comment hcs hrest] at h
    have hrest' : ∀ d ∈ (rest ++ '\n' :: more).head?, d = '\n' := by
      cases rest with
      | nil => simp
      | cons c rest => exact hrest
    have happend : '!' :: (cs ++ rest) ++ '\n' :: more = '!' :: (cs ++ (rest ++ '\n' :: more)) := by
      simp
    rw [happend, lexemes_comment hcs hrest', lexemes_comment hcs hrest, ih h, utf8Length_cons,
      utf8Length_cons, utf8Length_append]
    simp only [Nat.add_assoc]
  | token offset v cs rest hv ih =>
    rw [lexemes_of_munches hv] at h
    obtain ⟨hne, h⟩ := List.forall_mem_cons.1 h
    rw [List.append_assoc, lexemes_of_munches (hv.append_newline hne more), lexemes_of_munches hv,
      ih h, List.cons_append, utf8Length_append]
    simp only [Nat.add_assoc]

end Scan

namespace Tokens

/-- Two texts with a newline between them are scanned one behind the other, as long as no character
literal of the first is cut short. -/
theorem ofSource_append_newline {a : String} (b : String)
    (h : ∀ e ∈ (ofSource a).errors, e.fault ≠ .malformedCharacter) :
    let n := a.utf8ByteSize + 1
    (ofSource (a ++ "\n" ++ b)).toList =
        (ofSource a).toList.dropLast ++ (ofSource b).toList.map (Token.shift n) ∧
      (ofSource (a ++ "\n" ++ b)).errors =
        (ofSource a).errors ++ (ofSource b).errors.map (LexicalError.shift n) := by
  intro n
  have hverdict : ∀ x ∈ Scan.lexemes 0 a.toList, x.verdict ≠ .error .malformedCharacter := by
    intro x hx hv
    have he : (⟨.malformedCharacter, x.spelling, x.span⟩ : LexicalError) ∈ (ofSource a).errors :=
      List.mem_filterMap.2 ⟨x, hx, Lexeme.error?_eq_some_iff.2 ⟨hv, rfl, rfl⟩⟩
    exact h _ he rfl
  have htext : (a ++ "\n" ++ b).toList = a.toList ++ '\n' :: b.toList := by simp
  have hlexemes : Scan.lexemes 0 (a ++ "\n" ++ b).toList =
      Scan.lexemes 0 a.toList ++ (Scan.lexemes 0 b.toList).map (Lexeme.shift n) := by
    rw [htext, Scan.lexemes_append_newline 0 a.toList b.toList hverdict, Nat.zero_add,
      utf8Length_toList, ← Scan.lexemes_add, Nat.zero_add]
  have hend : (a ++ "\n" ++ b).utf8ByteSize = b.utf8ByteSize + n := by
    have hsize : "\n".utf8ByteSize = 1 := by decide
    rw [String.utf8ByteSize_append, String.utf8ByteSize_append, hsize, Nat.add_comm]
  constructor
  · have htokens : ((Scan.lexemes 0 b.toList).map (Lexeme.shift n)).map Lexeme.token =
        ((Scan.lexemes 0 b.toList).map Lexeme.token).map (Token.shift n) := by
      rw [List.map_map, List.map_map]
      exact List.map_congr_left fun x _ => x.token_shift n
    simp only [ofSource]
    rw [hlexemes, hend, List.map_append, htokens, List.dropLast_concat, List.map_append,
      List.append_assoc]
    rfl
  · have herrors : ((Scan.lexemes 0 b.toList).map (Lexeme.shift n)).filterMap Lexeme.error? =
        ((Scan.lexemes 0 b.toList).filterMap Lexeme.error?).map (LexicalError.shift n) := by
      rw [List.filterMap_map, List.map_filterMap]
      exact congrArg (List.filterMap · _) (funext fun x => x.error?_shift n)
    simp only [ofSource]
    rw [hlexemes, List.filterMap_append, herrors]

/-- A comment and a capital in front of the newline, and a literal cut short behind it. -/
theorem ofSource_append_newline_comment :
    let a := "x#B ! no ’end"
    let b := "’y\n"
    (∀ e ∈ (ofSource a).errors, e.fault ≠ .malformedCharacter) ∧
      (ofSource (a ++ "\n" ++ b)).errors =
        [⟨.unexpectedCharacter, "#", ⟨1, 2⟩⟩, ⟨.upperCaseName, "B", ⟨2, 3⟩⟩,
          ⟨.malformedCharacter, b, ⟨16, 21⟩⟩] := by
  intro a b
  have h : ∀ e ∈ (ofSource a).errors, e.fault ≠ .malformedCharacter := by decide +kernel
  refine ⟨h, ?_⟩
  rw [(ofSource_append_newline b h).2]
  decide +kernel

end Tokens

end TriLang
