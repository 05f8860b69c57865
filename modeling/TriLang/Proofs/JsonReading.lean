import Mathlib.Data.List.DropRight
import TriLang.Json.Skip
import TriLang.Proofs.JsonTexts

/-!
# Reading JSON texts

However a value is written, it is taken off the beginning of its text: a string is decoded, and a
value that nobody asks for is skipped with all that it holds.
-/

namespace TriLang.Json

namespace Read

variable {α β : Type} {cs ds rest out : List Char} {v : α} {w : β}

/-! ## What readers give -/

/-- A reader gives a value, and leaves `rest`. -/
def Gives (r : Reading α cs) (v : α) (rest : List Char) : Prop := ∃ le, r = .ok ⟨v, rest, le⟩

theorem gives_ok {le : ds.length ≤ cs.length} (h : ds = rest) :
    Gives (.ok ⟨v, ds, le⟩ : Reading α cs) v rest := by
  subst h
  exact ⟨le, rfl⟩

theorem gives_nothing (cs : List Char) : Gives (nothing cs) () cs := gives_ok rfl

theorem Gives.within {r : Reading α cs} (h : Gives r v rest) (le : cs.length ≤ ds.length) :
    Gives (within le r) v rest := by
  obtain ⟨hle, rfl⟩ := h
  exact ⟨Nat.le_trans hle le, rfl⟩

theorem Gives.past {r : Reading α cs} (h : Gives r v rest) (c : Char) : Gives (past c r) v rest :=
  h.within _

theorem Gives.pastDigits {r : Reading α (cs.dropWhile Char.isDigit)} (h : Gives r v rest) :
    Gives (pastDigits r) v rest := h.within _

theorem Gives.bind {r : Reading α cs} {f : Taken α cs → Reading β ds} (h : Gives r v rest)
    (hf : ∀ le, Gives (f ⟨v, rest, le⟩) w out) : Gives (r >>= f) w out := by
  obtain ⟨le, rfl⟩ := h
  exact hf le

/-! ## Blanks -/

theorem skipBlank_of_blanks (h : Blanks cs ds) : skipBlank cs = skipBlank ds := by
  induction h with
  | done => rfl
  | blank hc _ ih =>
    rw [skipBlank, List.dropWhile_cons_of_pos (by simpa [isBlank, or_assoc] using hc)]
    exact ih

theorem skipBlank_cons {c : Char} (hc : isBlank c = false) (cs : List Char) :
    skipBlank (c :: cs) = c :: cs := List.dropWhile_cons_of_neg (by simp [hc])

theorem skipBlank_of_blanks_cons {c : Char} (h : Blanks cs (c :: ds)) (hc : isBlank c = false) :
    skipBlank cs = c :: ds := (skipBlank_of_blanks h).trans (skipBlank_cons hc ds)

/-! ## Words and strings -/

theorem word_gives (expected rest : List Char) :
    Gives (word expected (expected ++ rest)) () rest := by
  induction expected with
  | nil => exact gives_nothing rest
  | cons c expected ih =>
    have hstep : word (c :: expected) (c :: (expected ++ rest)) =
        past c (word expected (expected ++ rest)) := if_pos rfl
    rw [List.cons_append, hstep]
    exact ih.past c

theorem hexValue?_of_isHexDigit {c : Char} {n : Nat} (h : IsHexDigit c n) :
    hexValue? c = some n := by
  have hn : n < 16 := by
    rcases h with h | h <;> exact (List.getElem?_eq_some_iff.1 h).1
  interval_cases n <;> simp [IsHexDigit] at h <;> rcases h with rfl | rfl <;> rfl

theorem hexQuad_gives {n : Nat} {quad : List Char} (h : HexQuad n quad) (rest : List Char) :
    Gives (hexQuad (quad ++ rest)) n rest := by
  obtain @⟨a, b, c, d, k, l, m, n, ha, hb, hc, hd⟩ := h
  have hsize : ¬ utf8Length ((a :: b :: c :: d :: rest).take 4) < 4 := by
    have := a.utf8Size_pos
    have := b.utf8Size_pos
    have := c.utf8Size_pos
    have := d.utf8Size_pos
    simp only [List.take_succ_cons, List.take_zero, utf8Length_cons, utf8Length_nil]
    omega
  simp only [List.cons_append, List.nil_append, hexQuad, if_neg hsize, hexValue?_of_isHexDigit ha,
    hexValue?_of_isHexDigit hb, hexValue?_of_isHexDigit hc, hexValue?_of_isHexDigit hd]
  exact ⟨by simp; omega, rfl⟩

theorem shortEscape?_of_mem {c e : Char} (h : (e, c) ∈ shortEscapes) : shortEscape? e = some c := by
  simp only [shortEscapes, List.mem_cons, Prod.mk.injEq, List.not_mem_nil, or_false] at h
  rcases h with ⟨rfl, rfl⟩ | ⟨rfl, rfl⟩ | ⟨rfl, rfl⟩ | ⟨rfl, rfl⟩ | ⟨rfl, rfl⟩ | ⟨rfl, rfl⟩ |
    ⟨rfl, rfl⟩ | ⟨rfl, rfl⟩ <;> rfl

/-- No character is a surrogate. -/
theorem not_isSurrogate (c : Char) :
    isLowSurrogate c.toNat = false ∧ isHighSurrogate c.toNat = false := by
  have hvalid : c.toNat < 0xD800 ∨ 0xDFFF < c.toNat ∧ c.toNat < 0x110000 := c.valid
  simp only [isLowSurrogate, isHighSurrogate, Bool.and_eq_false_iff, decide_eq_false_iff_not]
  omega

theorem unicodeEscape_gives {c : Char} {quad : List Char} (h : HexQuad c.toNat quad)
    (rest : List Char) : Gives (unicodeEscape (quad ++ rest)) c rest := by
  refine (hexQuad_gives h rest).bind fun le => ?_
  obtain ⟨hlow, hhigh⟩ := not_isSurrogate c
  rw [if_neg (by simp [hlow]), if_neg (by simp [hhigh]), Char.ofNat_toNat]
  exact ⟨le, rfl⟩

theorem unicodeEscape_surrogates_gives {c : Char} {high low : Nat} {quad quad' : List Char}
    (hhigh : HexQuad high quad) (hlow : HexQuad low quad')
    (hranges : 0xD800 ≤ high ∧ high < 0xDC00 ∧ 0xDC00 ≤ low ∧ low < 0xE000)
    (hc : c.toNat = 0x10000 + (high - 0xD800) * 0x400 + (low - 0xDC00)) (rest : List Char) :
    Gives (unicodeEscape (quad ++ '\\' :: 'u' :: (quad' ++ rest))) c rest := by
  refine (hexQuad_gives hhigh _).bind fun le => ?_
  have hnotLow : isLowSurrogate high = false := by
    simp only [isLowSurrogate, Bool.and_eq_false_iff, decide_eq_false_iff_not]
    omega
  have hisHigh : isHighSurrogate high = true := by
    simp only [isHighSurrogate, Bool.and_eq_true, decide_eq_true_eq]
    omega
  have hisLow : isLowSurrogate low = true := by
    simp only [isLowSurrogate, Bool.and_eq_true, decide_eq_true_eq]
    omega
  rw [if_neg (by simp [hnotLow]), if_pos hisHigh]
  dsimp only
  refine (hexQuad_gives hlow rest).bind fun le' => ?_
  rw [if_pos hisLow, ← hc, Char.ofNat_toNat]
  exact ⟨_, rfl⟩

theorem escape_short_gives {c e : Char} (h : (e, c) ∈ shortEscapes) (rest : List Char) :
    Gives (escape (e :: rest)) c rest := by
  rw [escape, shortEscape?_of_mem h]
  exact ⟨_, rfl⟩

theorem escape_unicode_gives {c : Char} {text : List Char} (h : Gives (unicodeEscape text) c rest) :
    Gives (escape ('u' :: text)) c rest := h.past 'u'

theorem string_cons_gives {c : Char} {s text : List Char} (hc : 32 ≤ c.toNat) (hquote : c ≠ '"')
    (hback : c ≠ '\\') (h : Gives (string text) s rest) :
    Gives (string (c :: text)) (c :: s) rest := by
  rw [string, if_neg hquote, if_neg hback, if_neg (by omega)]
  exact h.bind fun _ => ⟨_, rfl⟩

theorem string_escape_gives {c : Char} {s text behind : List Char}
    (he : Gives (escape text) c behind) (h : Gives (string behind) s rest) :
    Gives (string ('\\' :: text)) (c :: s) rest := by
  rw [string, if_neg (by decide), if_pos rfl]
  exact he.bind fun _ => h.bind fun _ => ⟨_, rfl⟩

/-- However a string is written, it is read. -/
theorem string_gives {s text : List Char} (h : Spells s text rest) :
    Gives (string text) s rest := by
  induction h with
  | done =>
    rw [string, if_pos rfl]
    exact ⟨_, rfl⟩
  | plain hc hquote hback _ ih => exact string_cons_gives hc hquote hback ih
  | short hc _ ih => exact string_escape_gives (escape_short_gives hc _) ih
  | unicode hquad _ ih =>
    exact string_escape_gives (escape_unicode_gives (unicodeEscape_gives hquad _)) ih
  | surrogates hhigh hlow hranges hc _ ih =>
    exact string_escape_gives
      (escape_unicode_gives (unicodeEscape_surrogates_gives hhigh hlow hranges hc _)) ih

theorem skipString_cons_gives {c : Char} {text : List Char} (hc : 32 ≤ c.toNat) (hquote : c ≠ '"')
    (hback : c ≠ '\\') (h : Gives (skipString text) () rest) :
    Gives (skipString (c :: text)) () rest := by
  rw [skipString, if_neg hquote, if_neg hback, if_neg (by omega)]
  exact h.past c

theorem skipString_escape_gives {text behind : List Char} (he : Gives (skipEscape text) () behind)
    (h : Gives (skipString behind) () rest) : Gives (skipString ('\\' :: text)) () rest := by
  rw [skipString, if_neg (by decide), if_pos rfl]
  exact he.bind fun _ => h.within _

theorem skipEscape_unicode_gives {n : Nat} {quad : List Char} (h : HexQuad n quad)
    (rest : List Char) : Gives (skipEscape ('u' :: (quad ++ rest))) () rest := by
  obtain ⟨le, hquad⟩ := hexQuad_gives h rest
  rw [skipEscape, if_neg (by decide), if_pos rfl, hquad]
  exact Gives.past ⟨le, rfl⟩ 'u'

/-- However a string is written, it is skipped. -/
theorem skipString_gives {text : List Char} (h : Quoted text rest) :
    Gives (skipString text) () rest := by
  induction h with
  | done =>
    rw [skipString, if_pos rfl]
    exact (gives_nothing _).past '"'
  | plain hc hquote hback _ ih => exact skipString_cons_gives hc hquote hback ih
  | short hc _ ih =>
    refine skipString_escape_gives ?_ ih
    rw [skipEscape, if_pos (by rw [shortEscape?_of_mem hc]; rfl)]
    exact (gives_nothing _).past _
  | unicode hquad _ ih => exact skipString_escape_gives (skipEscape_unicode_gives hquad _) ih

/-! ## Numbers -/

section Numbers

variable {int frac exp sign digits : List Char}

theorem exponentSign_snd (hsign : sign ∈ [[], ['+'], ['-']]) (h : IsDigits digits)
    (rest : List Char) : (Number.exponentSign (sign ++ (digits ++ rest))).2 = digits ++ rest := by
  obtain ⟨d, ds, rfl⟩ := List.exists_cons_of_ne_nil h.1
  have hd : d.isDigit := h.2 d List.mem_cons_self
  simp only [List.mem_cons, List.not_mem_nil, or_false] at hsign
  rcases hsign with rfl | rfl | rfl
  · rw [List.nil_append, List.cons_append, Number.exponentSign]
    · rintro _ ⟨⟩
      exact absurd hd (by decide)
    · rintro _ ⟨⟩
      exact absurd hd (by decide)
  · rfl
  · rfl

theorem skipExponent_gives (hsign : sign ∈ [[], ['+'], ['-']]) (h : IsDigits digits)
    (hrest : NoDigit rest) : Gives (skipExponent (sign ++ (digits ++ rest))) () rest := by
  have hsnd := exponentSign_snd hsign h rest
  obtain ⟨d, ds, rfl⟩ := List.exists_cons_of_ne_nil h.1
  obtain ⟨hd, hds⟩ := List.forall_mem_cons.1 h.2
  rw [skipExponent]
  split
  case h_1 c cs hcs =>
    obtain ⟨rfl, rfl⟩ := List.cons.inj (hcs.symm.trans hsnd)
    rw [if_pos hd]
    exact gives_ok (hrest.dropWhile_append hds)
  case h_2 hnil => exact absurd (hnil.symm.trans hsnd) (by simp)

theorem skipTail_gives (hexp : IsExponent exp) (hrest : Ends rest) :
    Gives (skipTail (exp ++ rest)) () rest := by
  cases hexp with
  | absent =>
    rw [List.nil_append, skipTail]
    · exact gives_nothing rest
    · rintro _ rfl
      exact absurd (hrest 'e' rfl) (by decide)
    · rintro _ rfl
      exact absurd (hrest 'E' rfl) (by decide)
  | digits he hsign h =>
    rw [List.cons_append, List.append_assoc]
    have hgives := skipExponent_gives hsign h hrest.noDigit
    rcases he with rfl | rfl
    · exact hgives.past 'e'
    · exact hgives.past 'E'

theorem skipFraction_gives (hfrac : IsFraction frac) (hexp : IsExponent exp) (hrest : Ends rest) :
    Gives (skipFraction (frac ++ (exp ++ rest))) () rest := by
  have htail := skipTail_gives hexp hrest
  cases hfrac with
  | absent =>
    rw [List.nil_append, skipFraction]
    · exact htail
    · intro more hmore
      cases hexp with
      | absent => exact absurd (hrest '.' (by rw [← List.nil_append rest, hmore]; rfl)) (by decide)
      | digits he _ _ => rcases he with rfl | rfl <;> cases hmore
  | @digits ds h =>
    obtain ⟨d, more, hds⟩ := List.exists_cons_of_ne_nil h.1
    have hd : (ds ++ (exp ++ rest)).head?.any Char.isDigit := by
      simpa [hds] using h.2 d (by simp [hds])
    have hgives : Gives (skipTail ((ds ++ (exp ++ rest)).dropWhile Char.isDigit)) () rest := by
      rw [(hexp.noDigit hrest).dropWhile_append h.2]
      exact htail
    rw [List.cons_append, skipFraction, if_pos hd]
    exact hgives.pastDigits.past '.'

theorem skipNumber_gives (hint : IsInteger int) (hfrac : IsFraction frac) (hexp : IsExponent exp)
    (hrest : Ends rest) : Gives (skipNumber (int ++ (frac ++ (exp ++ rest)))) () rest := by
  have hbehind := hfrac.noDigit hexp hrest
  have hfraction := skipFraction_gives hfrac hexp hrest
  cases hint with
  | zero =>
    have hnone : ((frac ++ (exp ++ rest)).head?.any Char.isDigit) = false := by
      rw [Option.any_eq_false]
      exact fun c hc => by simp [hbehind c hc]
    rw [List.cons_append, List.nil_append, skipNumber, if_pos rfl, if_neg (by rw [hnone]; decide)]
    exact hfraction.past '0'
  | @digits d ds h hd =>
    obtain ⟨hdigit, hds⟩ := List.forall_mem_cons.1 h.2
    have hgives : Gives
        (skipFraction ((ds ++ (frac ++ (exp ++ rest))).dropWhile Char.isDigit)) () rest := by
      rw [hbehind.dropWhile_append hds]
      exact hfraction
    rw [List.cons_append, skipNumber, if_neg hd, if_pos hdigit]
    exact hgives.pastDigits.past d

theorem skipScalar_digit {d : Char} (hd : d.isDigit) (cs : List Char) :
    skipScalar (d :: cs) = skipNumber (d :: cs) := by
  rw [skipScalar, if_pos hd] <;>
    · rintro rfl
      exact absurd hd (by decide)

/-- However a number is written, it is skipped. -/
theorem skipScalar_number_gives {text : List Char} (h : IsNumber text) (hrest : Ends rest) :
    Gives (skipScalar (text ++ rest)) () rest := by
  obtain @⟨sign, int, frac, exp, hsign, hint, hfrac, hexp⟩ := h
  have hgives := skipNumber_gives hint hfrac hexp hrest
  have hassoc : sign ++ (int ++ (frac ++ exp)) ++ rest =
      sign ++ (int ++ (frac ++ (exp ++ rest))) := by
    simp only [List.append_assoc]
  rw [hassoc]
  simp only [List.mem_cons, List.not_mem_nil, or_false] at hsign
  rcases hsign with rfl | rfl
  · obtain ⟨d, ds, rfl, hd⟩ := hint.exists_cons
    rw [List.nil_append, List.cons_append, skipScalar_digit hd]
    exact hgives
  · exact hgives.past '-'

end Numbers

/-! ## Values that are skipped -/

section Values

variable {frame : Frame} {frames : List Frame} {c : Char} {text : List Char}

/-- The key of an entry is taken off, and then its value with what is open around it. -/
def Enters (frame : Frame) (frames : List Frame) (cs out : List Char) : Prop :=
  ∃ behind, Gives (skipKey frame cs) () behind ∧ Gives (skipIn (frame :: frames) behind) () out

theorem skipIn_scalar (hcs : skipBlank cs = c :: text) (hc : c ∉ ['[', '\x7b'])
    (h : Gives (skipScalar (c :: text)) () rest) (hrest : Gives (skipRest frames rest) () out) :
    Gives (skipIn frames cs) () out := by
  have hnone : [Frame.array, .object].find? (·.opening == c) = none := by
    rw [List.find?_eq_none]
    simp only [List.mem_cons, List.not_mem_nil, or_false, not_or] at hc
    rintro frame - hframe
    cases frame
    · exact hc.1 (eq_of_beq hframe).symm
    · exact hc.2 (eq_of_beq hframe).symm
  rw [skipIn]
  split
  case h_1 hnil => cases hcs.symm.trans hnil
  case h_2 c' text' hcons =>
    obtain ⟨rfl, rfl⟩ := List.cons.inj (hcs.symm.trans hcons)
    rw [hnone]
    exact h.bind fun _ => hrest.within _

theorem skipIn_opening (frame : Frame) (hcs : skipBlank cs = frame.opening :: text)
    (h : Gives (skipFirst frame frames text) () out) : Gives (skipIn frames cs) () out := by
  have hsome : [Frame.array, .object].find? (·.opening == frame.opening) = some frame := by
    cases frame <;> rfl
  rw [skipIn]
  split
  case h_1 hnil => cases hcs.symm.trans hnil
  case h_2 c' text' hcons =>
    obtain ⟨rfl, rfl⟩ := List.cons.inj (hcs.symm.trans hcons)
    rw [hsome]
    exact h.within _

theorem skipFirst_closing (hcs : skipBlank cs = frame.closing :: rest)
    (h : Gives (skipRest frames rest) () out) : Gives (skipFirst frame frames cs) () out := by
  rw [skipFirst]
  split
  case h_1 hnil => cases hcs.symm.trans hnil
  case h_2 c' text' hcons =>
    obtain ⟨rfl, rfl⟩ := List.cons.inj (hcs.symm.trans hcons)
    rw [if_pos rfl]
    exact h.within _

theorem skipFirst_entry (hcs : skipBlank cs = c :: text) (hc : c ≠ frame.closing)
    (h : Enters frame frames (c :: text) out) : Gives (skipFirst frame frames cs) () out := by
  obtain ⟨behind, hkey, hvalue⟩ := h
  rw [skipFirst]
  split
  case h_1 hnil => cases hcs.symm.trans hnil
  case h_2 c' text' hcons =>
    obtain ⟨rfl, rfl⟩ := List.cons.inj (hcs.symm.trans hcons)
    rw [if_neg hc]
    exact hkey.bind fun _ => hvalue.within _

theorem skipRest_closing (hcs : skipBlank cs = frame.closing :: rest)
    (h : Gives (skipRest frames rest) () out) : Gives (skipRest (frame :: frames) cs) () out := by
  rw [skipRest]
  split
  case h_1 hnil => cases hcs.symm.trans hnil
  case h_2 c' text' hcons =>
    obtain ⟨rfl, rfl⟩ := List.cons.inj (hcs.symm.trans hcons)
    rw [if_pos rfl]
    exact h.within _

theorem skipRest_comma (hcs : skipBlank cs = ',' :: text) (h : Enters frame frames text out) :
    Gives (skipRest (frame :: frames) cs) () out := by
  obtain ⟨behind, hkey, hvalue⟩ := h
  rw [skipRest]
  split
  case h_1 hnil => cases hcs.symm.trans hnil
  case h_2 c' text' hcons =>
    obtain ⟨rfl, rfl⟩ := List.cons.inj (hcs.symm.trans hcons)
    rw [if_neg (by cases frame <;> decide), if_pos rfl]
    exact hkey.bind fun _ => hvalue.within _

/-- What begins a value: no blank, nor what ends one. -/
def Begins (c : Char) : Prop := isBlank c = false ∧ c ≠ ']' ∧ c ≠ '\x7d'

theorem begins_digit {d : Char} (hd : d.isDigit) : Begins d := by
  refine ⟨?_, ?_, ?_⟩
  · by_contra hblank
    simp only [isBlank, Bool.not_eq_false, Bool.or_eq_true, beq_iff_eq] at hblank
    rcases hblank with ((rfl | rfl) | rfl) | rfl <;> exact absurd hd (by decide)
  · rintro rfl
    exact absurd hd (by decide)
  · rintro rfl
    exact absurd hd (by decide)

theorem begins_of_mem (hc : c ∈ ['n', 't', 'f', '"', '[', '\x7b', '-']) : Begins c := by
  revert c
  simp [Begins, isBlank]

theorem exists_begins_of_value {v : Value} (h : Writes (.value v) cs rest) :
    ∃ c text, cs = c :: text ∧ Begins c := by
  cases h with
  | number hnumber =>
    obtain ⟨c, text, rfl, rfl | hd⟩ := hnumber.exists_cons
    · exact ⟨'-', _, rfl, begins_of_mem (by simp)⟩
    · exact ⟨c, _, rfl, begins_digit hd⟩
  | _ => exact ⟨_, _, rfl, begins_of_mem (by simp)⟩

/-- Every part begins so, behind blanks. -/
theorem exists_begins {p : Part} (h : Writes p cs rest) :
    ∃ c text, skipBlank cs = c :: text ∧ Begins c := by
  have hvalue : ∀ {v ds rest}, Blanks cs ds → Writes (.value v) ds rest →
      ∃ c text, skipBlank cs = c :: text ∧ Begins c := by
    intro v ds rest front h
    obtain ⟨c, text, rfl, hc⟩ := exists_begins_of_value h
    exact ⟨c, text, skipBlank_of_blanks_cons front hc.1, hc⟩
  have hkey : ∀ {key rest}, WritesKey key cs rest →
      ∃ c text, skipBlank cs = c :: text ∧ Begins c := by
    rintro key rest ⟨body, behind, hquote, -, -⟩
    exact ⟨_, body, skipBlank_of_blanks_cons hquote (by decide), begins_of_mem (by simp)⟩
  cases p with
  | value v => exact hvalue .done h
  | items vs =>
    cases h with
    | lastItem front h _ => exact hvalue front h
    | item front h _ _ => exact hvalue front h
  | members ms =>
    cases h with
    | lastMember h _ _ _ => exact hkey h
    | member h _ _ _ _ => exact hkey h

theorem colon_gives (h : Blanks cs (':' :: rest)) : Gives (colon cs) () rest := by
  have hcs := skipBlank_of_blanks_cons h (by decide)
  rw [colon]
  split
  case h_1 hnil => cases hcs.symm.trans hnil
  case h_2 c' text' hcons =>
    obtain ⟨rfl, rfl⟩ := List.cons.inj (hcs.symm.trans hcons)
    rw [if_pos rfl]
    exact gives_ok rfl

theorem skipKey_gives {key : String} (h : WritesKey key text rest)
    (hcs : skipBlank cs = skipBlank text) : Gives (skipKey .object cs) () rest := by
  obtain ⟨body, behind, hquote, hkey, hcolon⟩ := h
  rw [skipBlank_of_blanks_cons hquote (by decide)] at hcs
  rw [skipKey]
  split
  case h_1 hnil => cases hcs.symm.trans hnil
  case h_2 c' text' hcons =>
    obtain ⟨rfl, rfl⟩ := List.cons.inj (hcs.symm.trans hcons)
    rw [if_pos rfl]
    refine (skipString_gives hkey.quoted).bind fun _ => ?_
    exact (colon_gives hcolon).bind fun _ => gives_ok rfl

/-- A part is taken off in front of what is open around it, whatever that is.  Of arrays and objects
the entries are meant, the first of which is entered. -/
def Skips : Part → List Char → List Char → Prop
  | .value _, text, rest => Ends rest → ∀ frames cs out, skipBlank cs = skipBlank text →
      Gives (skipRest frames rest) () out → Gives (skipIn frames cs) () out
  | .items _, text, rest => ∀ frames cs out, skipBlank cs = skipBlank text →
      Gives (skipRest frames rest) () out → Enters .array frames cs out
  | .members _, text, rest => ∀ frames cs out, skipBlank cs = skipBlank text →
      Gives (skipRest frames rest) () out → Enters .object frames cs out

theorem enters_item {v : Value} (front : Blanks text cs) (h : Skips (.value v) cs rest)
    (hends : Ends rest) (hds : skipBlank ds = skipBlank text)
    (hrest : Gives (skipRest (.array :: frames) rest) () out) : Enters .array frames ds out :=
  ⟨ds, gives_nothing ds, h hends _ _ _ (hds.trans (skipBlank_of_blanks front)) hrest⟩

theorem enters_member {key : String} {v : Value} {behind : List Char}
    (hkey : WritesKey key text behind) (front : Blanks behind cs) (h : Skips (.value v) cs rest)
    (hends : Ends rest) (hds : skipBlank ds = skipBlank text)
    (hrest : Gives (skipRest (.object :: frames) rest) () out) : Enters .object frames ds out :=
  ⟨behind, skipKey_gives hkey hds, h hends _ _ _ (skipBlank_of_blanks front) hrest⟩

theorem skipIn_entries (frame : Frame) {p : Part} (h : Writes p text rest)
    (hcs : skipBlank cs = frame.opening :: text)
    (henters : Enters frame frames (skipBlank text) out) : Gives (skipIn frames cs) () out := by
  obtain ⟨c, more, htext, hc⟩ := exists_begins h
  rw [htext] at henters
  refine skipIn_opening frame hcs (skipFirst_entry htext ?_ henters)
  cases frame
  · exact hc.2.1
  · exact hc.2.2

theorem skipBlank_skipBlank (cs : List Char) : skipBlank (skipBlank cs) = skipBlank cs :=
  List.dropWhile_idempotent _ _

/-- Whatever is written is skipped, in one step for each of its brackets. -/
theorem skips_of_writes {p : Part} (h : Writes p text rest) : Skips p text rest := by
  induction h with
  | null =>
    exact fun _ _ _ _ hcs hrest =>
      skipIn_scalar hcs (by decide) ((word_gives ['u', 'l', 'l'] _).past 'n') hrest
  | true =>
    exact fun _ _ _ _ hcs hrest =>
      skipIn_scalar hcs (by decide) ((word_gives ['r', 'u', 'e'] _).past 't') hrest
  | false =>
    exact fun _ _ _ _ hcs hrest =>
      skipIn_scalar hcs (by decide) ((word_gives ['a', 'l', 's', 'e'] _).past 'f') hrest
  | @number digits rest h =>
    intro hends frames cs out hcs hrest
    have hgives := skipScalar_number_gives h hends
    obtain ⟨c, more, rfl, hc⟩ := h.exists_cons
    have hblank : isBlank c = false := by
      rcases hc with rfl | hd
      · rfl
      · exact (begins_digit hd).1
    refine skipIn_scalar (hcs.trans (skipBlank_cons hblank _)) ?_ hgives hrest
    rcases hc with rfl | hd
    · decide
    · simp only [List.mem_cons, List.not_mem_nil, or_false, not_or]
      constructor <;>
        · rintro rfl
          exact absurd hd (by decide)
  | string h =>
    exact fun _ _ _ _ hcs hrest =>
      skipIn_scalar hcs (by decide) ((skipString_gives h.quoted).past '"') hrest
  | quoted h =>
    exact fun _ _ _ _ hcs hrest =>
      skipIn_scalar hcs (by decide) ((skipString_gives h).past '"') hrest
  | emptyArray h =>
    exact fun _ _ _ _ hcs hrest => skipIn_opening .array hcs
      (skipFirst_closing (skipBlank_of_blanks_cons h (by decide)) hrest)
  | array h ih =>
    exact fun _ _ _ _ hcs hrest => skipIn_entries .array h hcs
      (ih _ _ _ (skipBlank_skipBlank _) hrest)
  | emptyObject h =>
    exact fun _ _ _ _ hcs hrest => skipIn_opening .object hcs
      (skipFirst_closing (skipBlank_of_blanks_cons h (by decide)) hrest)
  | object h ih =>
    exact fun _ _ _ _ hcs hrest => skipIn_entries .object h hcs
      (ih _ _ _ (skipBlank_skipBlank _) hrest)
  | lastItem front h back ih =>
    exact fun _ _ _ hcs hrest => enters_item front ih (back.ends (by decide)) hcs
      (skipRest_closing (skipBlank_of_blanks_cons back (by decide)) hrest)
  | item front h back hs ih ihs =>
    exact fun _ _ _ hcs hrest => enters_item front ih (back.ends (by decide)) hcs
      (skipRest_comma (skipBlank_of_blanks_cons back (by decide)) (ihs _ _ _ rfl hrest))
  | lastMember hkey front h back ih =>
    exact fun _ _ _ hcs hrest => enters_member hkey front ih (back.ends (by decide)) hcs
      (skipRest_closing (skipBlank_of_blanks_cons back (by decide)) hrest)
  | member hkey front h back hs ih ihs =>
    exact fun _ _ _ hcs hrest => enters_member hkey front ih (back.ends (by decide)) hcs
      (skipRest_comma (skipBlank_of_blanks_cons back (by decide)) (ihs _ _ _ rfl hrest))

/-- A value is skipped off the beginning of its text. -/
theorem skipValue_gives {v : Value} (front : Blanks cs text) (h : Writes (.value v) text rest)
    (hends : Ends rest) : Gives (skipValue cs) () rest := by
  refine skips_of_writes h hends [] cs rest (skipBlank_of_blanks front) ?_
  rw [skipRest]
  exact gives_nothing rest

/-! ## Values of one type -/

theorem bool_gives {b : Bool} (front : Blanks cs text) (h : Writes (.value (.bool b)) text rest) :
    Gives (bool cs) b rest := by
  unfold bool
  cases h with
  | true =>
    have hcs := skipBlank_of_blanks_cons front (by decide)
    split
    case h_1 text' heq =>
      obtain ⟨-, rfl⟩ := List.cons.inj (hcs.symm.trans heq)
      exact (word_gives ['r', 'u', 'e'] rest).bind fun _ => gives_ok rfl
    case h_2 heq => cases hcs.symm.trans heq
    case h_3 hneither _ => exact absurd hcs (hneither _)
  | false =>
    have hcs := skipBlank_of_blanks_cons front (by decide)
    split
    case h_1 heq => cases hcs.symm.trans heq
    case h_2 text' heq =>
      obtain ⟨-, rfl⟩ := List.cons.inj (hcs.symm.trans heq)
      exact (word_gives ['a', 'l', 's', 'e'] rest).bind fun _ => gives_ok rfl
    case h_3 _ hneither => exact absurd hcs (hneither _)

theorem stringOrNull_null_gives (front : Blanks cs text) (h : Writes (.value .null) text rest) :
    Gives (stringOrNull cs) none rest := by
  cases h
  have hcs := skipBlank_of_blanks_cons front (by decide)
  unfold stringOrNull
  split
  case h_1 text' heq =>
    obtain ⟨-, rfl⟩ := List.cons.inj (hcs.symm.trans heq)
    exact (word_gives ['u', 'l', 'l'] rest).bind fun _ => gives_ok rfl
  case h_2 heq => cases hcs.symm.trans heq
  case h_3 hneither _ => exact absurd hcs (hneither _)

theorem stringOrNull_string_gives {s : String} (front : Blanks cs text)
    (h : Writes (.value (.string s)) text rest) : Gives (stringOrNull cs) (some s) rest := by
  cases h with
  | string hs =>
    have hcs := skipBlank_of_blanks_cons front (by decide)
    unfold stringOrNull
    split
    case h_1 heq => cases hcs.symm.trans heq
    case h_2 text' heq =>
      obtain ⟨-, rfl⟩ := List.cons.inj (hcs.symm.trans heq)
      exact (string_gives hs).bind fun _ => ⟨_, by rw [String.ofList_toList]⟩
    case h_3 _ hneither => exact absurd hcs (hneither _)

end Values

end Read

end TriLang.Json
