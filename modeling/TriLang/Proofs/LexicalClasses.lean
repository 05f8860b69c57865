import TriLang.Proofs.Lossless

/-!
# Lexical classes

The spelling of a token decides its kind.  `Spells cs v` lists the spellings of every kind, and of
what is no token of the language; `Continues cs d` lists the characters that would lengthen a
spelling.  A text that does not begin with a separator begins with just one spelling that the
character behind it does not lengthen.  This one is the token, and no longer piece is a spelling.
-/

namespace TriLang

/-! ## Spellings -/

/-- The characters of a word behind its first letter. -/
def IsWordCharacter (c : Char) : Prop := c.isLower ∨ c.isDigit

/-- The characters that a literal between curly quotes may hold. -/
def IsGraphicCharacter (c : Char) : Prop :=
  c.isLower ∨ c.isDigit ∨ c ∈ ['.', ',', '?', ' ', '\t', '\n']

/-- The signs that begin an operator. -/
def operatorSigns : List Char := ['+', '-', '*', '/', '<', '>', '=', '\\']

/-- The other signs that begin a token. -/
def tokenSigns : List Char := ['_', '\x27', '’', ':', ';', '~', '(', ')']

/-- The signs that begin a separator. -/
def separatorSigns : List Char := ['!', ' ', '\t', '\r', '\n']

/-- The words that are not names. -/
def reservedWords : List (String × TokenKind) :=
  [("begin", .kwBegin), ("end", .kwEnd), ("let", .kwLet), ("in", .kwIn), ("if", .kwIf),
    ("then", .kwThen), ("else", .kwElse), ("noelse", .kwNoElse), ("while", .kwWhile),
    ("do", .kwDo), ("repeat", .kwRepeat), ("until", .kwUntil), ("nothing", .kwNothing),
    ("const", .kwConst), ("var", .kwVar), ("is", .kwIs)]

/-- `cs` spells a token of some kind, or text that is no token for some reason. -/
inductive Spells : List Char → Except LexicalFault TokenKind → Prop
  | keyword {cs kind} (h : (String.ofList cs, kind) ∈ reservedWords) : Spells cs (.ok kind)
  | tilde : Spells ['~'] (.ok .kwIs)
  | name {c cs} (hc : c.isLower) (hcs : ∀ d ∈ cs, IsWordCharacter d)
      (hk : ∀ kind, (String.ofList (c :: cs), kind) ∉ reservedWords) :
      Spells (c :: cs) (.ok .identifier)
  | underscoreName {cs} (hcs : ∀ d ∈ cs, d.isLower) : Spells ('_' :: cs) (.ok .identifier)
  | integer {c cs} (hc : c.isDigit) (hcs : ∀ d ∈ cs, d.isDigit) :
      Spells (c :: cs) (.ok .intLiteral)
  /-- Any one character between straight quotes, a quote too. -/
  | quoted {c} : Spells ['\x27', c, '\x27'] (.ok .charLiteral)
  | curly {cs} (hcs : ∀ d ∈ cs, IsGraphicCharacter d) :
      Spells ('’' :: (cs ++ ['’'])) (.ok .charLiteral)
  | operator {c} (hc : c ∈ operatorSigns) : Spells [c] (.ok .operator)
  | operatorEquals {c} (hc : c ∈ operatorSigns) : Spells [c, '='] (.ok .operator)
  | becomes : Spells [':', '='] (.ok .becomes)
  | colon : Spells [':'] (.ok .colon)
  | semicolon : Spells [';'] (.ok .semicolon)
  | leftBracket : Spells ['('] (.ok .leftBracket)
  | rightBracket : Spells [')'] (.ok .rightBracket)
  | capitalized {c cs} (hc : c.isUpper) (hcs : ∀ d ∈ cs, IsWordCharacter d) :
      Spells (c :: cs) (.error .upperCaseName)
  | loneQuote : Spells ['\x27'] (.error .malformedCharacter)
  | unclosedQuote {c} : Spells ['\x27', c] (.error .malformedCharacter)
  | unclosedCurly {cs} (hcs : ∀ d ∈ cs, IsGraphicCharacter d) :
      Spells ('’' :: cs) (.error .malformedCharacter)
  | other {c} (halpha : ¬c.isAlpha) (hdigit : ¬c.isDigit)
      (hsign : c ∉ operatorSigns ++ tokenSigns ++ separatorSigns) :
      Spells [c] (.error .unexpectedCharacter)

/-- The character `d` right behind a token spelled `cs` would lengthen it. -/
inductive Continues : List Char → Char → Prop
  | word {c cs d} (hc : c.isAlpha) (hd : IsWordCharacter d) : Continues (c :: cs) d
  | underscoreName {cs d} (hd : d.isLower) : Continues ('_' :: cs) d
  | integer {c cs d} (hc : c.isDigit) (hd : d.isDigit) : Continues (c :: cs) d
  | operator {c} (hc : c ∈ operatorSigns) : Continues [c] '='
  | colon : Continues [':'] '='
  /-- Any character may stand behind an opening quote. -/
  | quote {d} : Continues ['\x27'] d
  | unclosedQuote {c} : Continues ['\x27', c] '\x27'
  | curly {cs d} (hcs : '’' ∉ cs) (hd : IsGraphicCharacter d ∨ d = '’') : Continues ('’' :: cs) d

/-- `cs` is spelled as `v`, and the text `rest` behind it does not lengthen it. -/
structure Munches (v : Except LexicalFault TokenKind) (cs rest : List Char) : Prop where
  spells : Spells cs v
  ends : ∀ d ∈ rest.head?, ¬Continues cs d

/-! ### Characters -/

theorem isUpper_iff {c : Char} : c.isUpper ↔ 'A'.toNat ≤ c.toNat ∧ c.toNat ≤ 'Z'.toNat := by
  show decide ('A'.val ≤ c.val ∧ c.val ≤ 'Z'.val) = true ↔ _
  rw [decide_eq_true_eq]
  exact Iff.rfl

theorem isLower_iff {c : Char} : c.isLower ↔ 'a'.toNat ≤ c.toNat ∧ c.toNat ≤ 'z'.toNat := by
  show (decide ('a'.val ≤ c.val) && decide (c.val ≤ 'z'.val)) = true ↔ _
  rw [Bool.and_eq_true, decide_eq_true_eq, decide_eq_true_eq]
  exact Iff.rfl

theorem isAlpha_iff {c : Char} : c.isAlpha ↔ c.isUpper ∨ c.isLower := by
  rw [← Bool.or_eq_true]
  exact Iff.rfl

theorem not_isAlpha_of_isDigit {c : Char} (h : c.isDigit) : ¬c.isAlpha := by
  rw [Char.isDigit_iff_toNat] at h
  rw [isAlpha_iff, isUpper_iff, isLower_iff]
  have : '9'.toNat = 57 := rfl
  have : 'A'.toNat = 65 := rfl
  have : 'a'.toNat = 97 := rfl
  omega

theorem IsWordCharacter.not_isUpper {c : Char} (h : IsWordCharacter c) : c.isUpper = false := by
  rw [IsWordCharacter, isLower_iff, Char.isDigit_iff_toNat] at h
  rw [← Bool.not_eq_true, isUpper_iff]
  have : '9'.toNat = 57 := rfl
  have : 'A'.toNat = 65 := rfl
  have : 'Z'.toNat = 90 := rfl
  have : 'a'.toNat = 97 := rfl
  omega

theorem any_isUpper_eq_false {cs : List Char} (h : ∀ d ∈ cs, IsWordCharacter d) :
    cs.any Char.isUpper = false :=
  List.any_eq_false.2 fun d hd => by simp [(h d hd).not_isUpper]

theorem operatorSigns_disjoint : ∀ c ∈ operatorSigns,
    ¬c.isAlpha ∧ ¬c.isDigit ∧ c ∉ tokenSigns ∧ c ∉ separatorSigns := by
  simp [operatorSigns, tokenSigns, separatorSigns]

theorem separatorSigns_disjoint : ∀ c ∈ separatorSigns, ¬c.isAlpha ∧ ¬c.isDigit := by
  simp [separatorSigns]

/-! ### Words -/

namespace Scan

theorem isWordTail_iff {c : Char} : isWordTail c ↔ IsWordCharacter c := by
  simp [isWordTail, IsWordCharacter]

theorem isGraphic_iff {c : Char} : isGraphic c ↔ IsGraphicCharacter c := by
  simp [isGraphic, IsGraphicCharacter, or_assoc]

theorem isOperator_iff {c : Char} : isOperator c ↔ c ∈ operatorSigns := by
  simp [isOperator, operatorSigns, or_assoc]

/-- A run of characters ends in front of the first that is none of them. -/
theorem takeWhile_append_eq {p : Char → Bool} {cs rest : List Char} (hcs : ∀ c ∈ cs, p c)
    (hr : ∀ d ∈ rest.head?, ¬p d) : (cs ++ rest).takeWhile p = cs := by
  have hrest : rest.takeWhile p = [] := by
    cases rest with
    | nil => rfl
    | cons d rest => exact List.takeWhile_cons_of_neg (hr d rfl)
  rw [List.takeWhile_append_of_pos hcs, hrest, List.append_nil]

/-- The scanner looks words up among the reserved ones. -/
theorem keywords_eq : TokenKind.keywords = reservedWords := rfl

theorem keyword?_eq_some_iff {spelling : String} {kind : TokenKind} :
    TokenKind.keyword? spelling = some kind ↔ (spelling, kind) ∈ reservedWords := by
  constructor
  · intro h
    obtain ⟨us, vs, heq, -⟩ := List.lookup_eq_some_iff.1 h
    rw [← keywords_eq, heq]
    exact List.mem_append_right us List.mem_cons_self
  · intro h
    have hall : ∀ p ∈ reservedWords, TokenKind.keyword? p.1 = some p.2 := by decide
    exact hall _ h

/-- Keywords are words in small letters. -/
theorem exists_cons_of_keyword {cs : List Char} {kind : TokenKind}
    (h : (String.ofList cs, kind) ∈ reservedWords) :
    ∃ c ds, cs = c :: ds ∧ c.isLower ∧ ∀ d ∈ ds, IsWordCharacter d := by
  have hall : ∀ p ∈ reservedWords, p.1.toList ≠ [] ∧ p.1.toList.all Char.isLower := by decide
  obtain ⟨hne, hlower⟩ := hall _ h
  rw [String.toList_ofList] at hne hlower
  rw [List.all_eq_true] at hlower
  obtain ⟨c, ds, rfl⟩ := List.exists_cons_of_ne_nil hne
  obtain ⟨hc, hds⟩ := List.forall_mem_cons.1 hlower
  exact ⟨c, ds, rfl, hc, fun d hd => .inl (hds d hd)⟩

theorem word_of_keyword {cs : List Char} {kind : TokenKind}
    (h : (String.ofList cs, kind) ∈ reservedWords) : word cs = .ok kind := by
  rw [word, keyword?_eq_some_iff.2 h]

theorem word_of_notKeyword {cs : List Char}
    (h : ∀ kind, (String.ofList cs, kind) ∉ reservedWords) :
    word cs = if cs.any Char.isUpper then .error .upperCaseName else .ok .identifier := by
  have hnone : TokenKind.keyword? (String.ofList cs) = none :=
    Option.eq_none_iff_forall_ne_some.2 fun kind hk => h kind (keyword?_eq_some_iff.1 hk)
  rw [word, hnone]

end Scan

namespace Spells

/-- Words are spelled as the scanner takes them. -/
theorem word {c : Char} {cs : List Char} (hc : c.isAlpha) (hcs : ∀ d ∈ cs, IsWordCharacter d) :
    Spells (c :: cs) (Scan.word (c :: cs)) := by
  by_cases hk : ∃ kind, (String.ofList (c :: cs), kind) ∈ reservedWords
  · obtain ⟨kind, hk⟩ := hk
    rw [Scan.word_of_keyword hk]
    exact .keyword hk
  · rw [not_exists] at hk
    rw [Scan.word_of_notKeyword hk, List.any_cons, any_isUpper_eq_false hcs, Bool.or_false]
    split
    case isTrue hupper => exact .capitalized hupper hcs
    case isFalse hupper =>
      have hlower : c.isLower := (isAlpha_iff.1 hc).resolve_left hupper
      exact .name hlower hcs hk

end Spells

/-! ## The first token of a text -/

namespace Scan

variable {c : Char} {cs rest : List Char}

theorem first_word (hc : c.isAlpha) (hcs : ∀ d ∈ cs, IsWordCharacter d)
    (hr : ∀ d ∈ rest.head?, ¬IsWordCharacter d) :
    first c (cs ++ rest) = (word (c :: cs), cs.length) := by
  have htail : (cs ++ rest).takeWhile isWordTail = cs :=
    takeWhile_append_eq (fun d hd => isWordTail_iff.2 (hcs d hd))
      fun d hd h => hr d hd (isWordTail_iff.1 h)
  rw [first, if_pos hc]
  simp only [htail]

theorem first_underscore (hcs : ∀ d ∈ cs, d.isLower) (hr : ∀ d ∈ rest.head?, ¬d.isLower) :
    first '_' (cs ++ rest) = (.ok .identifier, cs.length) := by
  have h : first '_' (cs ++ rest) =
      (.ok .identifier, ((cs ++ rest).takeWhile Char.isLower).length) := rfl
  rw [h, takeWhile_append_eq hcs hr]

theorem first_digit (hc : c.isDigit) (hcs : ∀ d ∈ cs, d.isDigit)
    (hr : ∀ d ∈ rest.head?, ¬d.isDigit) :
    first c (cs ++ rest) = (.ok .intLiteral, cs.length) := by
  have hne : c ≠ '_' := by
    rintro rfl
    exact absurd hc (by decide)
  rw [first, if_neg (not_isAlpha_of_isDigit hc), if_neg hne, if_pos hc,
    takeWhile_append_eq hcs hr]

theorem first_sign (hc : c ∈ operatorSigns) :
    first c rest = (.ok .operator, if rest.head? = some '=' then 1 else 0) := by
  simp only [operatorSigns, List.mem_cons, List.not_mem_nil, or_false] at hc
  rcases hc with rfl | rfl | rfl | rfl | rfl | rfl | rfl | rfl <;> rfl

theorem first_colon : first ':' rest =
    if rest.head? = some '=' then (.ok .becomes, 1) else (.ok .colon, 0) := rfl

theorem first_quote (hr : rest.head? ≠ some '\x27') :
    first '\x27' (c :: rest) = (.error .malformedCharacter, 1) := by
  have h : first '\x27' (c :: rest) = quoted (c :: rest) := rfl
  rw [h]
  unfold quoted
  split
  case h_3 => rfl
  case h_2 heq =>
    obtain ⟨-, rfl⟩ := List.cons.inj heq
    exact absurd rfl hr
  case h_1 => contradiction

theorem first_curly (hcs : ∀ d ∈ cs, IsGraphicCharacter d)
    (hr : ∀ d ∈ rest.head?, ¬IsGraphicCharacter d) :
    first '’' (cs ++ rest) =
      if rest.head? = some '’' then (.ok .charLiteral, cs.length + 1)
      else (.error .malformedCharacter, cs.length) := by
  have hinner : (cs ++ rest).takeWhile isGraphic = cs :=
    takeWhile_append_eq (fun d hd => isGraphic_iff.2 (hcs d hd))
      fun d hd h => hr d hd (isGraphic_iff.1 h)
  have h : first '’' (cs ++ rest) = curly (cs ++ rest) := rfl
  rw [h, curly, hinner]
  simp only [List.getElem?_append_right (Nat.le_refl _), Nat.sub_self, List.head?_eq_getElem?]

theorem first_other (halpha : ¬c.isAlpha) (hdigit : ¬c.isDigit)
    (hsign : c ∉ operatorSigns ++ tokenSigns ++ separatorSigns) :
    first c rest = (.error .unexpectedCharacter, 0) := by
  rw [List.append_assoc, List.mem_append, not_or] at hsign
  obtain ⟨hop, hsign⟩ := hsign
  simp only [tokenSigns, List.cons_append, List.mem_cons, not_or] at hsign
  obtain ⟨h₁, h₂, h₃, h₄, h₅, h₆, h₇, h₈, -⟩ := hsign
  have hpunctuation : punctuation? c = none := by
    unfold punctuation?
    split
    case h_5 => rfl
    all_goals contradiction
  rw [first, if_neg halpha, if_neg h₁, if_neg hdigit, if_neg h₂, if_neg h₃,
    if_neg (fun h => hop (isOperator_iff.1 h)), if_neg h₄, hpunctuation]

end Scan

/-- The scanner takes what a text begins with. -/
theorem Munches.first_eq {v : Except LexicalFault TokenKind} {c : Char} {cs rest : List Char}
    (h : Munches v (c :: cs) rest) : Scan.first c (cs ++ rest) = (v, cs.length) := by
  obtain ⟨hs, hr⟩ := h
  generalize hw : c :: cs = w at hs hr
  cases hs with
  | keyword hk =>
    obtain ⟨d, ds, rfl, hc, hcs⟩ := Scan.exists_cons_of_keyword hk
    cases hw
    have hc : c.isAlpha := isAlpha_iff.2 (.inr hc)
    rw [Scan.first_word hc hcs fun d hd h => hr d hd (.word hc h), Scan.word_of_keyword hk]
  | name hc hcs hk =>
    cases hw
    have hupper : c.isUpper = false := IsWordCharacter.not_isUpper (.inl hc)
    have hc : c.isAlpha := isAlpha_iff.2 (.inr hc)
    rw [Scan.first_word hc hcs fun d hd h => hr d hd (.word hc h), Scan.word_of_notKeyword hk]
    simp [hupper, any_isUpper_eq_false hcs]
  | capitalized hc hcs =>
    cases hw
    have hk : ∀ kind, (String.ofList (c :: cs), kind) ∉ reservedWords := by
      intro kind hk
      obtain ⟨d, ds, heq, hlower, -⟩ := Scan.exists_cons_of_keyword hk
      cases heq
      simp [IsWordCharacter.not_isUpper (.inl hlower)] at hc
    have hc' : c.isAlpha := isAlpha_iff.2 (.inl hc)
    rw [Scan.first_word hc' hcs fun d hd h => hr d hd (.word hc' h), Scan.word_of_notKeyword hk]
    simp [hc]
  | underscoreName hcs =>
    cases hw
    exact Scan.first_underscore hcs fun d hd h => hr d hd (.underscoreName h)
  | integer hc hcs =>
    cases hw
    exact Scan.first_digit hc hcs fun d hd h => hr d hd (.integer hc h)
  | quoted => cases hw; rfl
  | @unclosedQuote d =>
    cases hw
    rw [List.singleton_append, Scan.first_quote fun h => hr _ h .unclosedQuote]
    rfl
  | loneQuote =>
    cases hw
    cases rest with
    | nil => rfl
    | cons d rest => exact absurd .quote (hr d rfl)
  | @curly cs hcs =>
    cases hw
    rw [List.append_assoc, Scan.first_curly hcs (by simp [IsGraphicCharacter])]
    simp
  | unclosedCurly hcs =>
    cases hw
    have hclosing : '’' ∉ cs := by
      intro h
      exact absurd (hcs _ h) (by simp [IsGraphicCharacter])
    rw [Scan.first_curly hcs fun d hd h => hr d hd (.curly hclosing (.inl h)), if_neg]
    intro h
    exact hr _ h (.curly hclosing (.inr rfl))
  | operator hc =>
    cases hw
    rw [Scan.first_sign hc, if_neg]
    · rfl
    · intro h
      exact hr _ h (.operator hc)
  | operatorEquals hc =>
    cases hw
    rw [Scan.first_sign hc]
    rfl
  | colon =>
    cases hw
    rw [Scan.first_colon, if_neg]
    · rfl
    · intro h
      exact hr _ h .colon
  | other halpha hdigit hsign =>
    cases hw
    exact Scan.first_other halpha hdigit hsign
  | _ => cases hw; rfl

/-! ### What lengthens a spelling -/

namespace Continues

variable {c d : Char} {cs : List Char}

theorem of_isAlpha (h : Continues (c :: cs) d) (hc : c.isAlpha) : IsWordCharacter d := by
  cases h with
  | word _ hd => exact hd
  | integer hdigit => exact absurd hc (not_isAlpha_of_isDigit hdigit)
  | operator hop => exact absurd hc (operatorSigns_disjoint _ hop).1
  | _ => exact absurd hc (by decide)

theorem of_isDigit (h : Continues (c :: cs) d) (hc : c.isDigit) : d.isDigit := by
  cases h with
  | word halpha => exact absurd halpha (not_isAlpha_of_isDigit hc)
  | integer _ hd => exact hd
  | operator hop => exact absurd hc (operatorSigns_disjoint _ hop).2.1
  | _ => exact absurd hc (by decide)

theorem of_mem_operatorSigns (h : Continues (c :: cs) d) (hc : c ∈ operatorSigns) :
    cs = [] ∧ d = '=' := by
  obtain ⟨halpha, hdigit, -⟩ := operatorSigns_disjoint c hc
  cases h with
  | word h => exact absurd h halpha
  | integer h => exact absurd h hdigit
  | operator => exact ⟨rfl, rfl⟩
  | _ => exact absurd hc (by decide)

/-- Of the other signs, a few begin spellings that can be lengthened. -/
theorem of_not_isAlpha (h : Continues (c :: cs) d) (halpha : ¬c.isAlpha) (hdigit : ¬c.isDigit)
    (hop : c ∉ operatorSigns) :
    c = '_' ∧ d.isLower ∨ c = ':' ∧ cs = [] ∧ d = '=' ∨ c = '\x27' ∧ cs = [] ∨
      c = '\x27' ∧ cs.length = 1 ∧ d = '\x27' ∨
      c = '’' ∧ '’' ∉ cs ∧ (IsGraphicCharacter d ∨ d = '’') := by
  cases h with
  | word h => exact absurd h halpha
  | integer h => exact absurd h hdigit
  | operator h => exact absurd h hop
  | underscoreName hd => simp [hd]
  | colon => simp
  | quote => simp
  | unclosedQuote => simp
  | curly hcs hd => simp [hcs, hd]

end Continues

/-! ### Every text begins with a spelling -/

/-- A text begins with a spelling that what follows does not lengthen. -/
def BeginsWithSpelling (text : List Char) : Prop :=
  ∃ v cs rest, text = cs ++ rest ∧ Munches v cs rest

section

variable {c : Char}

/-- A text begins with a run of characters, which may be empty. -/
theorem exists_run (p : Char → Bool) (text : List Char) :
    ∃ cs rest, text = cs ++ rest ∧ (∀ d ∈ cs, p d) ∧ ∀ d ∈ rest.head?, ¬p d := by
  refine ⟨text.take (text.takeWhile p).length, text.drop (text.takeWhile p).length,
    (List.take_append_drop ..).symm, fun d hd => ?_, Scan.head?_drop_takeWhile p text⟩
  rw [Scan.take_length_takeWhile] at hd
  exact List.mem_takeWhile_imp hd

theorem beginsWithSpelling_word (hc : c.isAlpha) (text : List Char) :
    BeginsWithSpelling (c :: text) := by
  obtain ⟨cs, rest, rfl, hcs, hrest⟩ := exists_run Scan.isWordTail text
  refine ⟨_, c :: cs, rest, rfl, .word hc fun d hd => Scan.isWordTail_iff.1 (hcs d hd), ?_⟩
  exact fun d hd h => hrest d hd (Scan.isWordTail_iff.2 (h.of_isAlpha hc))

theorem beginsWithSpelling_integer (hc : c.isDigit) (text : List Char) :
    BeginsWithSpelling (c :: text) := by
  obtain ⟨cs, rest, rfl, hcs, hrest⟩ := exists_run Char.isDigit text
  exact ⟨_, c :: cs, rest, rfl, .integer hc hcs, fun d hd h => hrest d hd (h.of_isDigit hc)⟩

theorem beginsWithSpelling_operator (hc : c ∈ operatorSigns) (text : List Char) :
    BeginsWithSpelling (c :: text) := by
  by_cases ht : '=' ∈ text.head?
  · obtain ⟨rest, rfl⟩ := List.head?_eq_some_iff.1 ht
    refine ⟨_, [c, '='], rest, rfl, .operatorEquals hc, fun d hd h => ?_⟩
    simpa using (h.of_mem_operatorSigns hc).1
  · refine ⟨_, [c], text, rfl, .operator hc, fun d hd h => ht ?_⟩
    exact (h.of_mem_operatorSigns hc).2 ▸ hd

theorem beginsWithSpelling_underscore (text : List Char) : BeginsWithSpelling ('_' :: text) := by
  obtain ⟨cs, rest, rfl, hcs, hrest⟩ := exists_run Char.isLower text
  refine ⟨_, '_' :: cs, rest, rfl, .underscoreName hcs, fun d hd h => hrest d hd ?_⟩
  simpa using h.of_not_isAlpha (by decide) (by decide) (by decide)

theorem beginsWithSpelling_colon (text : List Char) : BeginsWithSpelling (':' :: text) := by
  have hends {cs : List Char} {d : Char} (h : Continues (':' :: cs) d) : cs = [] ∧ d = '=' := by
    simpa using h.of_not_isAlpha (by decide) (by decide) (by decide)
  by_cases ht : '=' ∈ text.head?
  · obtain ⟨rest, rfl⟩ := List.head?_eq_some_iff.1 ht
    refine ⟨_, [':', '='], rest, rfl, .becomes, fun d hd h => ?_⟩
    simpa using (hends h).1
  · exact ⟨_, [':'], text, rfl, .colon, fun d hd h => ht ((hends h).2 ▸ hd)⟩

theorem beginsWithSpelling_quote (text : List Char) :
    BeginsWithSpelling ('\x27' :: text) := by
  have hends {cs : List Char} {d : Char} (h : Continues ('\x27' :: cs) d) :
      cs = [] ∨ cs.length = 1 ∧ d = '\x27' := by
    simpa using h.of_not_isAlpha (by decide) (by decide) (by decide)
  rcases text with _ | ⟨c, text⟩
  · exact ⟨_, ['\x27'], [], rfl, .loneQuote, by simp⟩
  · by_cases ht : '\x27' ∈ text.head?
    · obtain ⟨rest, rfl⟩ := List.head?_eq_some_iff.1 ht
      refine ⟨_, ['\x27', c, '\x27'], rest, rfl, .quoted, fun d hd h => ?_⟩
      simpa using hends h
    · refine ⟨_, ['\x27', c], text, rfl, .unclosedQuote, fun d hd h => ht ?_⟩
      obtain rfl : d = '\x27' := by simpa using hends h
      exact hd

theorem beginsWithSpelling_curly (text : List Char) : BeginsWithSpelling ('’' :: text) := by
  have hends {cs : List Char} {d : Char} (h : Continues ('’' :: cs) d) :
      '’' ∉ cs ∧ (IsGraphicCharacter d ∨ d = '’') := by
    simpa using h.of_not_isAlpha (by decide) (by decide) (by decide)
  obtain ⟨cs, rest, rfl, hcs, hrest⟩ := exists_run Scan.isGraphic text
  have hcs : ∀ d ∈ cs, IsGraphicCharacter d := fun d hd => Scan.isGraphic_iff.1 (hcs d hd)
  by_cases hr : '’' ∈ rest.head?
  · obtain ⟨rest, rfl⟩ := List.head?_eq_some_iff.1 hr
    refine ⟨_, '’' :: (cs ++ ['’']), rest, by simp, .curly hcs, fun d hd h => ?_⟩
    simpa using (hends h).1
  · refine ⟨_, '’' :: cs, rest, rfl, .unclosedCurly hcs, fun d hd h => ?_⟩
    rcases (hends h).2 with hd' | rfl
    · exact hrest d hd (Scan.isGraphic_iff.2 hd')
    · exact hr hd

/-- A sign that is a token, or none of any kind, on its own. -/
theorem beginsWithSpelling_single {v : Except LexicalFault TokenKind} (h : Spells [c] v)
    (hc : c ∉ ['_', ':', '\x27', '’']) (halpha : ¬c.isAlpha) (hdigit : ¬c.isDigit)
    (hop : c ∉ operatorSigns) (text : List Char) : BeginsWithSpelling (c :: text) := by
  refine ⟨v, [c], text, rfl, h, fun d hd h => hc ?_⟩
  rcases h.of_not_isAlpha halpha hdigit hop with h | h | h | h | h <;> simp [h.1]

/-- Any text does so that does not begin with a separator. -/
theorem beginsWithSpelling (hc : c ∉ separatorSigns) (text : List Char) :
    BeginsWithSpelling (c :: text) := by
  by_cases halpha : c.isAlpha
  · exact beginsWithSpelling_word halpha text
  by_cases hdigit : c.isDigit
  · exact beginsWithSpelling_integer hdigit text
  by_cases hop : c ∈ operatorSigns
  · exact beginsWithSpelling_operator hop text
  by_cases hsign : c ∈ tokenSigns
  · simp only [tokenSigns, List.mem_cons, List.not_mem_nil, or_false] at hsign
    rcases hsign with rfl | rfl | rfl | rfl | rfl | rfl | rfl | rfl
    · exact beginsWithSpelling_underscore text
    · exact beginsWithSpelling_quote text
    · exact beginsWithSpelling_curly text
    · exact beginsWithSpelling_colon text
    · exact beginsWithSpelling_single .semicolon (by decide) halpha hdigit hop text
    · exact beginsWithSpelling_single .tilde (by decide) halpha hdigit hop text
    · exact beginsWithSpelling_single .leftBracket (by decide) halpha hdigit hop text
    · exact beginsWithSpelling_single .rightBracket (by decide) halpha hdigit hop text
  · refine beginsWithSpelling_single (.other halpha hdigit (by simp [hop, hsign, hc])) ?_
      halpha hdigit hop text
    intro h
    exact hsign ((by decide : ['_', ':', '\x27', '’'] ⊆ tokenSigns) h)

end

/-! ## Lexemes as spellings -/

theorem Spells.ne_nil {v : Except LexicalFault TokenKind} {cs : List Char} (h : Spells cs v) :
    cs ≠ [] := by
  cases h with
  | keyword hk =>
    obtain ⟨c, ds, rfl, -⟩ := Scan.exists_cons_of_keyword hk
    exact List.cons_ne_nil c ds
  | _ => exact List.cons_ne_nil _ _

/-- No spelling begins like a separator. -/
theorem Spells.notMem_separatorSigns {v : Except LexicalFault TokenKind} {cs : List Char}
    (h : Spells cs v) : ∀ c ∈ cs.head?, c ∉ separatorSigns := by
  intro c hc hsep
  obtain ⟨halpha, hdigit⟩ := separatorSigns_disjoint c hsep
  cases h with
  | keyword hk =>
    obtain ⟨d, ds, rfl, hlower, -⟩ := Scan.exists_cons_of_keyword hk
    cases hc
    exact halpha (isAlpha_iff.2 (.inr hlower))
  | name hlower =>
    cases hc
    exact halpha (isAlpha_iff.2 (.inr hlower))
  | capitalized hupper =>
    cases hc
    exact halpha (isAlpha_iff.2 (.inl hupper))
  | integer h =>
    cases hc
    exact hdigit h
  | operator hop | operatorEquals hop =>
    cases hc
    exact (operatorSigns_disjoint c hop).2.2.2 hsep
  | other _ _ hsign =>
    cases hc
    exact hsign (List.mem_append_right _ hsep)
  | _ =>
    cases hc
    exact absurd hsep (by decide)

/-- Only what begins with a quote can go over a newline. -/
theorem Spells.of_newline_mem {v : Except LexicalFault TokenKind} {cs : List Char}
    (h : Spells cs v) (hn : '\n' ∈ cs) : v = .ok .charLiteral ∨ v = .error .malformedCharacter := by
  -- A newline does not begin a spelling.
  have htail : '\n' ∈ cs.tail := by
    obtain ⟨c, cs, rfl⟩ := List.exists_cons_of_ne_nil h.ne_nil
    refine (List.mem_cons.1 hn).resolve_left fun hc => ?_
    exact h.notMem_separatorSigns c rfl (hc ▸ by decide)
  have hword : ¬IsWordCharacter '\n' := by simp [IsWordCharacter]
  cases h with
  | quoted | curly => exact .inl rfl
  | loneQuote | unclosedQuote | unclosedCurly => exact .inr rfl
  | keyword hk =>
    obtain ⟨c, ds, rfl, -, hds⟩ := Scan.exists_cons_of_keyword hk
    exact absurd (hds _ htail) hword
  | name _ hds _ | capitalized _ hds => exact absurd (hds _ htail) hword
  | underscoreName hds | integer _ hds => exact absurd (hds _ htail) (by decide)
  | _ => simp at htail

section

variable {v w : Except LexicalFault TokenKind} {cs more rest : List Char}

/-- Nothing behind a token makes a longer spelling of it. -/
theorem Munches.eq_nil_of_spells (h : Munches v cs rest) (hmore : more <+: rest)
    (hs : Spells (cs ++ more) w) : more = [] := by
  obtain ⟨c, cs, rfl⟩ := List.exists_cons_of_ne_nil h.spells.ne_nil
  have hends : ∀ d ∈ more.head?, ¬Continues (c :: cs) d := by
    intro d hd
    obtain ⟨ds, rfl⟩ := List.head?_eq_some_iff.1 hd
    obtain ⟨es, rfl⟩ := hmore
    exact h.ends d rfl
  have hshort : Scan.first c (cs ++ more) = (v, cs.length) :=
    Munches.first_eq ⟨h.spells, hends⟩
  have hlong : Scan.first c ((cs ++ more) ++ []) = (w, (cs ++ more).length) :=
    Munches.first_eq ⟨hs, by simp⟩
  rw [List.append_nil, hshort] at hlong
  have hlength : cs.length = (cs ++ more).length := congrArg Prod.snd hlong
  exact List.eq_nil_of_length_eq_zero (by simpa using hlength)

/-- A spelling is read in one way. -/
theorem Spells.functional (h : Spells cs v) (h' : Spells cs w) : v = w := by
  obtain ⟨c, cs, rfl⟩ := List.exists_cons_of_ne_nil h.ne_nil
  have hv : Scan.first c (cs ++ []) = (v, cs.length) := Munches.first_eq ⟨h, by simp⟩
  have hw : Scan.first c (cs ++ []) = (w, cs.length) := Munches.first_eq ⟨h', by simp⟩
  exact congrArg Prod.fst (hv.symm.trans hw)

end

namespace Scan

variable {v : Except LexicalFault TokenKind} {cs rest : List Char}

theorem isBlank_or_eq_iff {c : Char} : isBlank c ∨ c = '!' ↔ c ∈ separatorSigns := by
  simp only [isBlank, separatorSigns, Bool.or_eq_true, beq_iff_eq, List.mem_cons,
    List.not_mem_nil]
  tauto

/-- The scanner goes on behind the token that a text begins with. -/
theorem lexemes_of_munches (h : Munches v cs rest) (offset : Nat) :
    lexemes offset (cs ++ rest) =
      ⟨v, String.ofList cs, ⟨offset, offset + utf8Length cs⟩⟩ ::
        lexemes (offset + utf8Length cs) rest := by
  obtain ⟨c, cs, rfl⟩ := List.exists_cons_of_ne_nil h.spells.ne_nil
  obtain ⟨hblank, hcomment⟩ : ¬isBlank c ∧ c ≠ '!' :=
    not_or.1 fun hc => h.spells.notMem_separatorSigns c rfl (isBlank_or_eq_iff.1 hc)
  rw [List.cons_append, lexemes, if_neg hblank, if_neg hcomment]
  simp [h.first_eq]

/-- A text is empty, or begins with a blank, a comment or a token, behind which it goes on. -/
theorem lexemes_induction {P : Nat → List Char → Prop} (nil : ∀ offset, P offset [])
    (blank : ∀ offset c rest, isBlank c → P (offset + c.utf8Size) rest → P offset (c :: rest))
    (comment : ∀ offset cs rest, '\n' ∉ cs → (∀ d ∈ rest.head?, d = '\n') →
      P (offset + utf8Length ('!' :: cs)) rest → P offset ('!' :: (cs ++ rest)))
    (token : ∀ offset v cs rest, Munches v cs rest → P (offset + utf8Length cs) rest →
      P offset (cs ++ rest)) : ∀ offset text, P offset text := by
  intro offset text
  induction offset, text using lexemes.induct with
  | case1 offset => exact nil offset
  | case2 offset c rest hc ih => exact blank offset c rest hc ih
  | case3 offset rest n hc ih =>
    rw [← List.take_append_drop n rest]
    refine comment offset _ _ (fun h => ?_) (fun d hd => ?_) ih
    · rw [take_length_takeWhile] at h
      simpa using List.mem_takeWhile_imp h
    · simpa using head?_drop_takeWhile (· != '\n') rest d hd
  | case4 offset c rest hc hc' found spelling stop ih =>
    obtain ⟨v, cs, more, heq, h⟩ :=
      beginsWithSpelling (fun h => (isBlank_or_eq_iff.2 h).elim hc hc') rest
    obtain ⟨d, cs, rfl⟩ := List.exists_cons_of_ne_nil h.spells.ne_nil
    obtain ⟨rfl, rfl⟩ : c = d ∧ rest = cs ++ more := by simpa using heq
    have hfound : found = (v, cs.length) := h.first_eq
    have hspelling : spelling = c :: cs := by simp [spelling, hfound]
    rw [hfound, List.drop_left] at ih
    exact token offset v (c :: cs) more h (by rwa [← hspelling])

theorem lexemes_comment {cs rest : List Char} (hcs : '\n' ∉ cs)
    (hrest : ∀ d ∈ rest.head?, d = '\n') (offset : Nat) :
    lexemes offset ('!' :: (cs ++ rest)) = lexemes (offset + utf8Length ('!' :: cs)) rest := by
  have htake : (cs ++ rest).takeWhile (· != '\n') = cs :=
    takeWhile_append_eq (fun c hc => bne_iff_ne.2 (ne_of_mem_of_not_mem hc hcs))
      fun d hd => by simp [hrest d hd]
  rw [lexemes, if_neg (by decide), if_pos rfl]
  simp only [htake, List.take_left, List.drop_left]

/-- Every lexeme of a text is a spelling in it that nothing behind it lengthens. -/
theorem exists_munches_of_mem_lexemes (offset : Nat) (text : List Char) {x : Lexeme} :
    x ∈ lexemes offset text → ∃ before cs rest, text = before ++ (cs ++ rest) ∧
      Munches x.verdict cs rest ∧ x.spelling = String.ofList cs ∧
      x.span = ⟨offset + utf8Length before, offset + utf8Length (before ++ cs)⟩ := by
  induction offset, text using lexemes_induction with
  | nil offset =>
    rw [lexemes]
    exact fun hx => absurd hx List.not_mem_nil
  | blank offset c rest hc ih =>
    rw [lexemes, if_pos hc]
    intro hx
    obtain ⟨before, cs, rest, rfl, h, hspelling, hspan⟩ := ih hx
    refine ⟨c :: before, cs, rest, rfl, h, hspelling, ?_⟩
    simp [hspan, Nat.add_assoc]
  | comment offset ds rest hds hrest ih =>
    rw [lexemes_comment hds hrest]
    intro hx
    obtain ⟨before, cs, rest, rfl, h, hspelling, hspan⟩ := ih hx
    refine ⟨'!' :: (ds ++ before), cs, rest, by simp, h, hspelling, ?_⟩
    simp [hspan, utf8Length_append, Nat.add_assoc]
  | token offset v ds rest hv ih =>
    rw [lexemes_of_munches hv]
    intro hx
    rcases List.mem_cons.1 hx with rfl | hx
    · exact ⟨[], ds, rest, rfl, hv, rfl, by simp⟩
    · obtain ⟨before, cs, rest, rfl, h, hspelling, hspan⟩ := ih hx
      refine ⟨ds ++ before, cs, rest, by simp, h, hspelling, ?_⟩
      simp [hspan, utf8Length_append, Nat.add_assoc]

end Scan

/-! ## Tokens of a source text -/

namespace Lexeme

variable {x : Lexeme}

theorem token_kind_eq_iff {kind : TokenKind} (hk : kind.Proper) :
    x.token.kind = kind ↔ x.verdict = .ok kind := by
  unfold token
  split
  case h_1 other hv => simp [hv]
  case h_2 fault hv => simp [hv, hk.2.symm]

theorem token_kind_eq_error_iff (hx : x.Proper) :
    x.token.kind = .error ↔ ∃ fault, x.verdict = .error fault := by
  unfold token
  split
  case h_1 kind hv => simp [hv, (hx kind hv).2]
  case h_2 fault hv => simp [hv]

theorem error?_eq_some_iff {fault : LexicalFault} {spelling : String} {span : Span} :
    x.error? = some ⟨fault, spelling, span⟩ ↔
      x.verdict = .error fault ∧ x.spelling = spelling ∧ x.span = span := by
  unfold error?
  split
  case h_1 kind hv => simp [hv]
  case h_2 other hv => simp [hv]

/-- A lexeme is read as its spelling says. -/
theorem spells {offset : Nat} {text : List Char} (hx : x ∈ Scan.lexemes offset text) :
    Spells x.spelling.toList x.verdict := by
  obtain ⟨before, cs, rest, -, h, hspelling, -⟩ := Scan.exists_munches_of_mem_lexemes _ _ hx
  rw [hspelling, String.toList_ofList]
  exact h.spells

end Lexeme

/-- The text of `source` behind `s`. -/
def Span.behind (s : Span) (source : String) : List Char :=
  (text ⟨s.stop, source.utf8ByteSize⟩ source).toList

theorem Span.behind_eq {source : String} {rest : List Char} {s : Span} (before : List Char)
    (h : source.toList = before ++ rest) (hs : s.stop = utf8Length before) :
    s.behind source = rest := by
  have hrest : source.toList = before ++ (rest ++ []) := by simpa using h
  have hplace : (⟨s.stop, source.utf8ByteSize⟩ : Span) = place before rest := by
    rw [place, hs, ← h, utf8Length_toList]
  rw [behind, hplace, text_place hrest, String.toList_ofList]

namespace Tokens

variable {source : String} {t : Token}

/-- `t`, one of the tokens of `source`, is what its spelling says, and as long as it can be. -/
structure Classifies (ts : Tokens) (source : String) (t : Token) : Prop where
  kind : ∀ kind : TokenKind, kind.Proper →
    (t.kind = kind ↔ Spells t.spelling.toList (.ok kind))
  error : t.kind = .error ↔ ∃ fault, Spells t.spelling.toList (.error fault)
  fault : ∀ fault, ⟨fault, t.spelling, t.span⟩ ∈ ts.errors ↔
    Spells t.spelling.toList (.error fault)
  endOfText : t.kind = .endOfText ↔ t.spelling = ""
  ends : ∀ d ∈ (t.span.behind source).head?, ¬Continues t.spelling.toList d
  longest : ∀ more, more <+: t.span.behind source →
    ∀ v, Spells (t.spelling.toList ++ more) v → more = []

/-- A token that is no error is spelled as one of its kind. -/
theorem spells_of_proper (ht : t ∈ (ofSource source).toList) (hk : t.kind.Proper) :
    Spells t.spelling.toList (.ok t.kind) := by
  rcases List.mem_append.1 ht with ht | ht
  · obtain ⟨x, hx, rfl⟩ := List.mem_map.1 ht
    rw [← (Lexeme.token_kind_eq_iff hk).1 rfl, Lexeme.token_spelling]
    exact Lexeme.spells hx
  · obtain rfl := List.mem_singleton.1 ht
    exact absurd rfl hk.1

theorem mem_errors_iff {x : Lexeme} (hx : x ∈ Scan.lexemes 0 source.toList)
    {fault : LexicalFault} : ⟨fault, x.spelling, x.span⟩ ∈ (ofSource source).errors ↔
      x.verdict = .error fault := by
  rw [ofSource, List.mem_filterMap]
  constructor
  · rintro ⟨y, hy, he⟩
    obtain ⟨hv, hspelling, -⟩ := Lexeme.error?_eq_some_iff.1 he
    -- The error may be that of another lexeme, as long as it is spelled the same.
    have hs : Spells x.spelling.toList y.verdict := hspelling ▸ Lexeme.spells hy
    rw [← hv]
    exact (Lexeme.spells hx).functional hs
  · intro hv
    exact ⟨x, hx, Lexeme.error?_eq_some_iff.2 ⟨hv, rfl, rfl⟩⟩

/-- The tokens of a source text are spelled as their kinds are, and none could be longer. -/
theorem ofSource_classifies (ht : t ∈ (ofSource source).toList) :
    (ofSource source).Classifies source t := by
  rcases List.mem_append.1 ht with ht | ht
  · obtain ⟨x, hx, rfl⟩ := List.mem_map.1 ht
    obtain ⟨before, cs, rest, hsource, h, hspelling, hspan⟩ :=
      Scan.exists_munches_of_mem_lexemes _ _ hx
    have hproper : x.Proper := (Scan.layout_lexemes 0 source.toList [] rfl rfl).proper x hx
    have hcs : x.token.spelling.toList = cs := by
      rw [Lexeme.token_spelling, hspelling, String.toList_ofList]
    have hread : ∀ v, Spells cs v ↔ x.verdict = v := fun v =>
      ⟨h.spells.functional, fun hv => hv ▸ h.spells⟩
    have hbehind : x.token.span.behind source = rest := by
      rw [Lexeme.token_span]
      exact Span.behind_eq (before ++ cs) (by simp [hsource]) (by simp [hspan])
    exact
      { kind := fun kind hk => by rw [hcs, hread, Lexeme.token_kind_eq_iff hk]
        error := by simp only [hcs, hread, Lexeme.token_kind_eq_error_iff hproper]
        fault := fun fault => by
          rw [hcs, hread, Lexeme.token_spelling, Lexeme.token_span, mem_errors_iff hx]
        endOfText := by
          have hne : x.token.spelling ≠ "" := by
            intro he
            exact h.spells.ne_nil (by rw [← hcs, he]; rfl)
          exact iff_of_false hproper.token_kind_ne_endOfText hne
        ends := by rw [hbehind, hcs]; exact h.ends
        longest := by
          rw [hbehind, hcs]
          exact fun more hmore v hs => h.eq_nil_of_spells hmore hs }
  · obtain rfl := List.mem_singleton.1 ht
    have hnone : ∀ v, ¬Spells ("" : String).toList v := fun v h => h.ne_nil rfl
    have hbehind : (Span.empty source.utf8ByteSize).behind source = [] :=
      Span.behind_eq source.toList (by simp) (utf8Length_toList source).symm
    exact
      { kind := fun kind hk => iff_of_false (fun h => hk.1 h.symm) (hnone _)
        error := iff_of_false (by simp) fun ⟨fault, h⟩ => hnone _ h
        fault := fun fault => by
          refine iff_of_false (fun he => ?_) (hnone _)
          obtain ⟨x, hx, he⟩ := List.mem_filterMap.1 he
          have hs := Lexeme.spells hx
          rw [(Lexeme.error?_eq_some_iff.1 he).2.1] at hs
          exact hnone _ hs
        endOfText := iff_of_true rfl rfl
        ends := by simp [hbehind]
        longest := by simp [hbehind] }

/-- A quote between quotes, a capital in the middle of a word, and a literal cut short. -/
theorem ofSource_classifies_quotedQuote :
    let source := "n:=\x27\x27\x27_x1aB<=’a#"
    let quote : Token := ⟨.charLiteral, "\x27\x27\x27", ⟨3, 6⟩⟩
    let capital : Token := ⟨.error, "B", ⟨10, 11⟩⟩
    let cut : Token := ⟨.error, "’a", ⟨13, 17⟩⟩
    quote ∈ (ofSource source).toList ∧ capital ∈ (ofSource source).toList ∧
      cut ∈ (ofSource source).toList ∧
      Spells quote.spelling.toList (.ok .charLiteral) ∧
      ⟨.upperCaseName, "B", ⟨10, 11⟩⟩ ∈ (ofSource source).errors ∧
      Spells cut.spelling.toList (.error .malformedCharacter) ∧
      ¬Continues cut.spelling.toList '#' := by
  intro source quote capital cut
  have hquote : quote ∈ (ofSource source).toList := by decide +kernel
  have hcapital : capital ∈ (ofSource source).toList := by decide +kernel
  have hcut : cut ∈ (ofSource source).toList := by decide +kernel
  have hbehind : cut.span.behind source = ['#'] :=
    Span.behind_eq "n:=\x27\x27\x27_x1aB<=’a".toList (by decide +kernel) (by decide +kernel)
  refine ⟨hquote, hcapital, hcut, ?_, ?_, ?_, (ofSource_classifies hcut).ends _ (by simp [hbehind])⟩
  · exact ((ofSource_classifies hquote).kind _ (by decide)).1 rfl
  · have hletters : capital.spelling.toList = ['B'] := by decide +kernel
    refine ((ofSource_classifies hcapital).fault _).2 ?_
    rw [hletters]
    exact .capitalized (by decide) (by simp)
  · exact ((ofSource_classifies hcut).fault _).1 (by decide +kernel)

end Tokens

end TriLang
