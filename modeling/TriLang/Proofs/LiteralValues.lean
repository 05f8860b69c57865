import Mathlib.Data.List.Induction
import Mathlib.Data.Nat.Digits.Defs
import TriLang.Proofs.KeptTokens
import TriLang.Proofs.Operators
import TriLang.Tree.Literal

/-!
# Literals mean what they spell

Literals come into a tree as they are written, and are read again for their values.  What the
scanner takes for a literal is always in the form that the reader of values expects: an integer
literal is digits and nothing else, and a character literal begins and ends with the same quote.
-/

namespace TriLang

/-! ## Spellings of literals -/

namespace Spells

variable {cs : List Char}

theorem integer_inv (h : Spells cs (.ok .intLiteral)) :
    ∃ c ds, cs = c :: ds ∧ ∀ d ∈ c :: ds, d.isDigit := by
  cases h with
  | keyword h => exact absurd h (by simp [reservedWords])
  | @integer c ds hc hds => exact ⟨c, ds, rfl, List.forall_mem_cons.2 ⟨hc, hds⟩⟩

theorem character_inv (h : Spells cs (.ok .charLiteral)) :
    (∃ c, cs = ['\x27', c, '\x27']) ∨
      ∃ ds, cs = '’' :: (ds ++ ['’']) ∧ ∀ d ∈ ds, IsGraphicCharacter d := by
  cases h with
  | keyword h => exact absurd h (by simp [reservedWords])
  | @quoted c => exact .inl ⟨c, rfl⟩
  | @curly ds hds => exact .inr ⟨ds, rfl, hds⟩

end Spells

namespace Literal

variable {digits : List Char} {spelling : String}

/-! ## Integer literals -/

/-- The number that decimal digits spell, the last of them in the place of the ones. -/
def number (digits : List Char) : Nat :=
  Nat.ofDigits 10 (digits.reverse.map fun d => d.toNat - '0'.toNat)

theorem number_concat (digits : List Char) (d : Char) :
    number (digits ++ [d]) = 10 * number digits + (d.toNat - '0'.toNat) := by
  rw [number, List.reverse_append, List.reverse_singleton, List.singleton_append, List.map_cons,
    Nat.ofDigits_cons, number, Nat.add_comm]

/-- Digits are read from the first to the last, and weighed from the last to the first. -/
theorem decimal_eq_number (digits : List Char) : decimal digits = number digits := by
  induction digits using List.reverseRecOn with
  | nil => rfl
  | append_singleton digits d ih =>
    rw [number_concat, ← ih, decimal, List.foldl_append, List.foldl_cons, List.foldl_nil, decimal]

theorem fitsWord_natCast (n : Nat) : fitsWord n = decide (n < 2 ^ 63) := by
  rw [fitsWord, ← Bool.decide_and, decide_eq_decide]
  omega

/-- Digits have no sign in front. -/
theorem sign_of_isDigit {d : Char} (hd : d.isDigit) (digits : List Char) :
    sign (d :: digits) = (1, d :: digits) := by
  unfold sign
  split
  case h_1 heq =>
    obtain ⟨rfl, -⟩ := List.cons.inj heq
    exact absurd hd (by decide)
  case h_2 heq =>
    obtain ⟨rfl, -⟩ := List.cons.inj heq
    exact absurd hd (by decide)
  case h_3 => rfl

/-- An integer literal is spelled by digits, however many and with any zeros in front.  Its value is
the number they spell, unless this number is too large. -/
structure IntegerReads (spelling : String) : Prop where
  ne_nil : spelling.toList ≠ []
  isDigit : ∀ d ∈ spelling.toList, d.isDigit
  value_eq : integer? spelling =
    if number spelling.toList < 2 ^ 63 then some (number spelling.toList : Int) else none

theorem integerReads (h : Spells spelling.toList (.ok .intLiteral)) : IntegerReads spelling := by
  obtain ⟨c, ds, hspelling, hdigits⟩ := h.integer_inv
  have hall : (c :: ds).all Char.isDigit := List.all_eq_true.2 hdigits
  have hsign := sign_of_isDigit (hdigits c List.mem_cons_self) ds
  refine ⟨by simp [hspelling], hspelling ▸ hdigits, ?_⟩
  rw [integer?, hspelling, hsign]
  dsimp only
  rw [decimal_eq_number, Int.one_mul, fitsWord_natCast, hall]
  simp

/-! ## Character literals -/

theorem character?_eq_some_iff {c : Char} :
    character? spelling = some c ↔ interior spelling = [c] := by
  unfold character?
  split
  case h_1 d hd => simp [hd]
  case h_2 hne => exact iff_of_false nofun fun h => hne c h

theorem interior_eq {quote : Char} {inner : List Char}
    (h : spelling.toList = quote :: (inner ++ [quote])) : interior spelling = inner := by
  rw [interior, h, List.tail_cons, List.dropLast_concat]

/-- A character literal begins and ends with the same quote.  It has a value if one character stands
between, and it always does between straight quotes, where it may be a quote too. -/
structure CharacterReads (spelling : String) : Prop where
  value_iff : ∀ c, character? spelling = some c ↔ interior spelling = [c]
  quotes :
    (spelling.toList = '\x27' :: (interior spelling ++ ['\x27']) ∧ (character? spelling).isSome) ∨
      (spelling.toList = '’' :: (interior spelling ++ ['’']) ∧ '’' ∉ interior spelling)

theorem characterReads (h : Spells spelling.toList (.ok .charLiteral)) :
    CharacterReads spelling := by
  refine ⟨fun c => character?_eq_some_iff, ?_⟩
  rcases h.character_inv with ⟨c, hspelling⟩ | ⟨ds, hspelling, hgraphic⟩
  · have hinterior : interior spelling = [c] := interior_eq hspelling
    refine .inl ⟨by rw [hspelling, hinterior]; rfl, ?_⟩
    rw [character?_eq_some_iff.2 hinterior, Option.isSome_some]
  · have hinterior : interior spelling = ds := interior_eq hspelling
    refine .inr ⟨by rw [hspelling, hinterior], fun hmem => ?_⟩
    rw [hinterior] at hmem
    exact absurd (hgraphic _ hmem) (by simp [IsGraphicCharacter])

end Literal

/-! ## Literals of a source text -/

/-- Any character at all makes a token between straight quotes, whatever stands behind. -/
theorem munches_straightQuotes (c : Char) (rest : List Char) :
    Munches (.ok .charLiteral) ['\x27', c, '\x27'] rest := by
  refine ⟨.quoted, fun d _ h => ?_⟩
  cases h with
  | word hc => exact absurd hc (by decide)
  | integer hc => exact absurd hc (by decide)

open Literal

/-- A name that is given the character `c`. -/
def Literal.assignment (c : Char) : String := String.ofList ['n', ':', '=', '\x27', c, '\x27']

theorem Tokens.ofSource_assignment (c : Char) : (ofSource (assignment c)).toList =
    [⟨.identifier, "n", ⟨0, 1⟩⟩, ⟨.becomes, ":=", ⟨1, 3⟩⟩,
      ⟨.charLiteral, String.ofList ['\x27', c, '\x27'], ⟨3, 5 + c.utf8Size⟩⟩,
      ⟨.endOfText, "", .empty (5 + c.utf8Size)⟩] := by
  have hname : Munches (.ok .identifier) ['n'] ([':', '='] ++ (['\x27', c, '\x27'] ++ [])) := by
    refine ⟨.name (by decide) (List.forall_mem_nil _) (by simp [reservedWords]), ?_⟩
    rintro d ⟨⟩ h
    exact absurd (h.of_isAlpha (by decide)) (by simp [IsWordCharacter])
  have hbecomes : Munches (.ok .becomes) [':', '='] (['\x27', c, '\x27'] ++ []) := by
    refine ⟨.becomes, ?_⟩
    rintro d ⟨⟩ h
    cases h with
    | word hc => exact absurd hc (by decide)
    | integer hc => exact absurd hc (by decide)
  have hsource : (assignment c).toList = ['n'] ++ ([':', '='] ++ (['\x27', c, '\x27'] ++ [])) :=
    String.toList_ofList
  have hascii : 'n'.utf8Size = 1 ∧ ':'.utf8Size = 1 ∧ '='.utf8Size = 1 ∧ '\x27'.utf8Size = 1 := by
    decide
  have hsize : (assignment c).utf8ByteSize = 5 + c.utf8Size := by
    rw [← utf8Length_toList, hsource]
    simp [hascii]
    omega
  rw [ofSource]
  dsimp only
  rw [hsource, hsize, Scan.lexemes_of_munches hname, Scan.lexemes_of_munches hbecomes,
    Scan.lexemes_of_munches (munches_straightQuotes c []), Scan.lexemes]
  simp [Lexeme.token, hascii]
  omega

namespace Program

/-- The literal comes into the tree, as in any program. -/
theorem character_mem_leaves_assignment (c : Char) :
    .character ⟨3, 5 + c.utf8Size⟩ (String.ofList ['\x27', c, '\x27']) ∈
      (ofSource (assignment c)).command.leaves := by
  have htokens := Tokens.ofSource_assignment c
  have hprogram : IsProgram (Tokens.ofSource (assignment c)).toList _ :=
    ⟨[⟨.identifier, "n", _⟩, ⟨.becomes, ":=", _⟩, ⟨.charLiteral, _, _⟩], _, htokens,
      .assign (s := .empty 0) (i := 0) (m := .empty 0) rfl rfl
        (.operand (.character (s := .empty 0) rfl)), rfl⟩
  have hends := Tokens.endsOnce_ofSource (assignment c)
  have hleaves := map_token_leaves hends (ofTokens_of_isProgram hends hprogram).1
  have hmem : ⟨.charLiteral, String.ofList ['\x27', c, '\x27'], ⟨3, 5 + c.utf8Size⟩⟩ ∈
      (ofSource (assignment c)).command.leaves.map Leaf.token := by
    rw [ofSource, hleaves, htokens]
    exact List.mem_filter.2 ⟨by simp only [List.mem_cons, true_or, or_true], rfl⟩
  obtain ⟨x, hx, heq⟩ := List.mem_map.1 hmem
  cases x with
  | character span spelling =>
    cases heq
    exact hx
  | _ => cases heq

/-- The values of the literals in the tree of a source text, a program or not, are told by their
spellings, which are tokens of the source.  Every character is the value of some literal. -/
theorem ofSource_literals (source : String) :
    (∀ s spelling, .integer s spelling ∈ (ofSource source).command.leaves →
      ⟨.intLiteral, spelling, s⟩ ∈ (Tokens.ofSource source).toList ∧ IntegerReads spelling) ∧
    (∀ s spelling, .character s spelling ∈ (ofSource source).command.leaves →
      ⟨.charLiteral, spelling, s⟩ ∈ (Tokens.ofSource source).toList ∧ CharacterReads spelling) ∧
    ∀ c, ∃ s spelling, .character s spelling ∈ (ofSource (assignment c)).command.leaves ∧
      spelling.toList = ['\x27', c, '\x27'] ∧ character? spelling = some c := by
  refine ⟨fun s spelling h => ?_, fun s spelling h => ?_, fun c => ?_⟩
  · have ht : ⟨.intLiteral, spelling, s⟩ ∈ (Tokens.ofSource source).toList :=
      token_mem_of_mem_leaves h
    exact ⟨ht, integerReads (Tokens.spells_of_proper ht ⟨nofun, nofun⟩)⟩
  · have ht : ⟨.charLiteral, spelling, s⟩ ∈ (Tokens.ofSource source).toList :=
      token_mem_of_mem_leaves h
    exact ⟨ht, characterReads (Tokens.spells_of_proper ht ⟨nofun, nofun⟩)⟩
  · have hspelling : (String.ofList ['\x27', c, '\x27']).toList = ['\x27', c, '\x27'] :=
      String.toList_ofList
    exact ⟨_, _, character_mem_leaves_assignment c, hspelling,
      character?_eq_some_iff.2 (interior_eq hspelling)⟩

/-- Zeros in front, a number that is one too large, a quote between quotes and nothing between
quotes. -/
theorem ofSource_literals_tooLarge :
    let source := "n := 0042 + 9223372036854775808 = \x27\x27\x27 = ’’"
    .integer ⟨5, 9⟩ "0042" ∈ (ofSource source).command.leaves ∧
      .integer ⟨12, 31⟩ "9223372036854775808" ∈ (ofSource source).command.leaves ∧
      .character ⟨34, 37⟩ "\x27\x27\x27" ∈ (ofSource source).command.leaves ∧
      .character ⟨40, 46⟩ "’’" ∈ (ofSource source).command.leaves ∧
      integer? "0042" = some 42 ∧ integer? "9223372036854775808" = none ∧
      character? "\x27\x27\x27" = some '\x27' ∧ character? "’’" = none := by
  intro source
  obtain ⟨hint, hchar, -⟩ := ofSource_literals source
  have hsmall : .integer ⟨5, 9⟩ "0042" ∈ (ofSource source).command.leaves := by decide +kernel
  have hlarge : .integer ⟨12, 31⟩ "9223372036854775808" ∈ (ofSource source).command.leaves := by
    decide +kernel
  have hquote : .character ⟨34, 37⟩ "\x27\x27\x27" ∈ (ofSource source).command.leaves := by
    decide +kernel
  have hempty : .character ⟨40, 46⟩ "’’" ∈ (ofSource source).command.leaves := by decide +kernel
  refine ⟨hsmall, hlarge, hquote, hempty, ?_, ?_, ?_, ?_⟩
  · rw [(hint _ _ hsmall).2.value_eq]
    decide +kernel
  · rw [(hint _ _ hlarge).2.value_eq]
    decide +kernel
  · exact ((hchar _ _ hquote).2.value_iff _).2 (by decide)
  · refine Option.eq_none_iff_forall_ne_some.2 fun c hc => ?_
    exact absurd (((hchar _ _ hempty).2.value_iff c).1 hc) (by simp [Literal.interior])

end Program

end TriLang
