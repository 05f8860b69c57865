import Mathlib.Data.List.TakeWhile
import Mathlib.Tactic.IntervalCases
import TriLang.Json

/-!
# JSON texts

How a JSON value may be written: with any blanks around its parts, strings with any escapes, numbers
of any length, arrays and objects nested to any depth.  The compact text of a value is one of its
texts.
-/

namespace TriLang.Json

/-! ## How values are written -/

/-- `cs` is `rest` behind blanks. -/
inductive Blanks : List Char → List Char → Prop
  | done {rest} : Blanks rest rest
  | blank {c cs rest} (h : c ∈ [' ', '\t', '\n', '\r']) (more : Blanks cs rest) :
      Blanks (c :: cs) rest

/-- The digit `c` of a hexadecimal number, in either case, counts `n`. -/
def IsHexDigit (c : Char) (n : Nat) : Prop :=
  ['0', '1', '2', '3', '4', '5', '6', '7', '8', '9', 'a', 'b', 'c', 'd', 'e', 'f'][n]? = some c ∨
    ['0', '1', '2', '3', '4', '5', '6', '7', '8', '9', 'A', 'B', 'C', 'D', 'E', 'F'][n]? = some c

/-- Four hexadecimal digits of the number. -/
inductive HexQuad : Nat → List Char → Prop
  | mk {a b c d k l m n} (ha : IsHexDigit a k) (hb : IsHexDigit b l) (hc : IsHexDigit c m)
      (hd : IsHexDigit d n) : HexQuad (((k * 16 + l) * 16 + m) * 16 + n) [a, b, c, d]

/-- The letters of short escapes, and the characters that they stand for. -/
def shortEscapes : List (Char × Char) :=
  [('"', '"'), ('\\', '\\'), ('/', '/'), ('b', '\x08'), ('f', '\x0c'), ('n', '\n'), ('r', '\r'),
    ('t', '\t')]

/-- `Spells s text rest`: the characters `s` of a string are written up to its closing quote, behind
which is `rest`. -/
inductive Spells : List Char → List Char → List Char → Prop
  | done {rest} : Spells [] ('"' :: rest) rest
  | plain {c s text rest} (hc : 32 ≤ c.toNat) (hquote : c ≠ '"') (hback : c ≠ '\\')
      (more : Spells s text rest) : Spells (c :: s) (c :: text) rest
  | short {c e s text rest} (h : (e, c) ∈ shortEscapes) (more : Spells s text rest) :
      Spells (c :: s) ('\\' :: e :: text) rest
  | unicode {c quad s text rest} (h : HexQuad c.toNat quad) (more : Spells s text rest) :
      Spells (c :: s) ('\\' :: 'u' :: (quad ++ text)) rest
  /-- A character that does not fit four digits is written as two surrogates. -/
  | surrogates {c high low quad quad' s text rest} (hhigh : HexQuad high quad)
      (hlow : HexQuad low quad')
      (hranges : 0xD800 ≤ high ∧ high < 0xDC00 ∧ 0xDC00 ≤ low ∧ low < 0xE000)
      (hc : c.toNat = 0x10000 + (high - 0xD800) * 0x400 + (low - 0xDC00))
      (more : Spells s text rest) :
      Spells (c :: s) ('\\' :: 'u' :: (quad ++ '\\' :: 'u' :: (quad' ++ text))) rest

/-- `Quoted text rest`: a string is written up to its closing quote, behind which is `rest`.  What
its escapes stand for does not matter: a surrogate may stand alone. -/
inductive Quoted : List Char → List Char → Prop
  | done {rest} : Quoted ('"' :: rest) rest
  | plain {c text rest} (hc : 32 ≤ c.toNat) (hquote : c ≠ '"') (hback : c ≠ '\\')
      (more : Quoted text rest) : Quoted (c :: text) rest
  | short {c e text rest} (h : (e, c) ∈ shortEscapes) (more : Quoted text rest) :
      Quoted ('\\' :: e :: text) rest
  | unicode {n quad text rest} (h : HexQuad n quad) (more : Quoted text rest) :
      Quoted ('\\' :: 'u' :: (quad ++ text)) rest

def IsDigits (ds : List Char) : Prop := ds ≠ [] ∧ ∀ d ∈ ds, d.isDigit

/-- No digit stands behind a leading zero. -/
inductive IsInteger : List Char → Prop
  | zero : IsInteger ['0']
  | digits {d ds} (h : IsDigits (d :: ds)) (hd : d ≠ '0') : IsInteger (d :: ds)

inductive IsFraction : List Char → Prop
  | absent : IsFraction []
  | digits {ds} (h : IsDigits ds) : IsFraction ('.' :: ds)

inductive IsExponent : List Char → Prop
  | absent : IsExponent []
  | digits {e sign ds} (he : e = 'e' ∨ e = 'E') (hsign : sign ∈ [[], ['+'], ['-']])
      (h : IsDigits ds) : IsExponent (e :: (sign ++ ds))

inductive IsNumber : List Char → Prop
  | mk {sign int frac exp} (hsign : sign ∈ [[], ['-']]) (hint : IsInteger int)
      (hfrac : IsFraction frac) (hexp : IsExponent exp) : IsNumber (sign ++ (int ++ (frac ++ exp)))

/-- `text` is the key of a member with its colon, and `rest` behind it. -/
structure WritesKey (key : String) (text rest : List Char) : Prop where
  exists_spells : ∃ body behind, Blanks text ('"' :: body) ∧ Spells key.toList body behind ∧
    Blanks behind (':' :: rest)

/-- JSON values.  Numbers are kept as they are written, and so are strings of which an escape may
stand for no character. -/
inductive Value
  | null
  | bool (value : Bool)
  | number (text : List Char)
  | string (value : String)
  | quoted (text : List Char)
  | array (items : List Value)
  | object (members : List (String × Value))

/-- A value, or what stands behind the opening bracket of one that is not empty. -/
inductive Part
  | value (v : Value)
  | items (vs : List Value)
  | members (ms : List (String × Value))

/-- `Writes p text rest`: `text` is `p`, and `rest` behind it. -/
inductive Writes : Part → List Char → List Char → Prop
  | null {rest} : Writes (.value .null) ('n' :: 'u' :: 'l' :: 'l' :: rest) rest
  | true {rest} : Writes (.value (.bool .true)) ('t' :: 'r' :: 'u' :: 'e' :: rest) rest
  | false {rest} : Writes (.value (.bool .false)) ('f' :: 'a' :: 'l' :: 's' :: 'e' :: rest) rest
  | number {text rest} (h : IsNumber text) : Writes (.value (.number text)) (text ++ rest) rest
  | string {s text rest} (h : Spells s.toList text rest) :
      Writes (.value (.string s)) ('"' :: text) rest
  | quoted {text rest} (h : Quoted (text ++ rest) rest) :
      Writes (.value (.quoted text)) ('"' :: (text ++ rest)) rest
  | emptyArray {text rest} (h : Blanks text (']' :: rest)) :
      Writes (.value (.array [])) ('[' :: text) rest
  | array {vs text rest} (h : Writes (.items vs) text rest) :
      Writes (.value (.array vs)) ('[' :: text) rest
  | emptyObject {text rest} (h : Blanks text ('\x7d' :: rest)) :
      Writes (.value (.object [])) ('\x7b' :: text) rest
  | object {ms text rest} (h : Writes (.members ms) text rest) :
      Writes (.value (.object ms)) ('\x7b' :: text) rest
  | lastItem {v text cs ds rest} (front : Blanks text cs) (h : Writes (.value v) cs ds)
      (back : Blanks ds (']' :: rest)) : Writes (.items [v]) text rest
  | item {v vs text cs ds more rest} (front : Blanks text cs) (h : Writes (.value v) cs ds)
      (back : Blanks ds (',' :: more)) (hs : Writes (.items vs) more rest) :
      Writes (.items (v :: vs)) text rest
  | lastMember {key v text behind cs ds rest} (hkey : WritesKey key text behind)
      (front : Blanks behind cs) (h : Writes (.value v) cs ds) (back : Blanks ds ('\x7d' :: rest)) :
      Writes (.members [(key, v)]) text rest
  | member {key v ms text behind cs ds more rest} (hkey : WritesKey key text behind)
      (front : Blanks behind cs) (h : Writes (.value v) cs ds) (back : Blanks ds (',' :: more))
      (hs : Writes (.members ms) more rest) : Writes (.members ((key, v) :: ms)) text rest

/-- A text of one value, with blanks around it. -/
def IsText (v : Value) (text : String) : Prop :=
  ∃ cs rest, Blanks text.toList cs ∧ Writes (.value v) cs rest ∧ Blanks rest []

theorem Spells.quoted {s text rest : List Char} (h : Spells s text rest) : Quoted text rest := by
  induction h with
  | done => exact .done
  | plain hc hquote hback _ ih => exact .plain hc hquote hback ih
  | short hc _ ih => exact .short hc ih
  | unicode hquad _ ih => exact .unicode hquad ih
  | surrogates hhigh hlow _ _ _ ih => exact .unicode hhigh (.unicode hlow ih)

/-! ## What ends a value -/

/-- What stands behind a value does not go on with it. -/
def Ends (rest : List Char) : Prop :=
  ∀ c ∈ rest.head?, c ∈ [' ', '\t', '\n', '\r', ',', ']', '\x7d']

/-- Digits in front of `rest` end there. -/
def NoDigit (rest : List Char) : Prop := ∀ c ∈ rest.head?, c.isDigit = false

theorem Blanks.ends {c : Char} {cs ds : List Char} (h : Blanks cs (c :: ds))
    (hc : c ∈ [',', ']', '\x7d']) : Ends cs := by
  cases h with
  | done =>
    rintro _ ⟨⟩
    exact List.mem_of_mem_drop (i := 4) hc
  | blank hb _ =>
    rintro _ ⟨⟩
    exact List.mem_of_mem_take (i := 4) hb

section Numbers

variable {frac exp rest : List Char}

theorem Ends.noDigit (h : Ends rest) : NoDigit rest := by
  intro c hc
  have := h c hc
  simp only [List.mem_cons, List.not_mem_nil, or_false] at this
  rcases this with rfl | rfl | rfl | rfl | rfl | rfl | rfl <;> rfl

theorem IsInteger.exists_cons {int : List Char} (hint : IsInteger int) :
    ∃ d ds, int = d :: ds ∧ d.isDigit := by
  cases hint with
  | zero => exact ⟨'0', [], rfl, rfl⟩
  | @digits d ds h _ => exact ⟨d, ds, rfl, h.2 d List.mem_cons_self⟩

theorem IsExponent.noDigit (hexp : IsExponent exp) (hrest : Ends rest) : NoDigit (exp ++ rest) := by
  cases hexp with
  | absent => exact hrest.noDigit
  | digits he _ _ => rcases he with rfl | rfl <;> rintro _ ⟨⟩ <;> rfl

theorem IsFraction.noDigit (hfrac : IsFraction frac) (hexp : IsExponent exp) (hrest : Ends rest) :
    NoDigit (frac ++ (exp ++ rest)) := by
  cases hfrac with
  | absent => exact hexp.noDigit hrest
  | digits _ =>
    rintro _ ⟨⟩
    rfl

theorem NoDigit.dropWhile_append {digits : List Char} (hrest : NoDigit rest)
    (hdigits : ∀ d ∈ digits, d.isDigit) : (digits ++ rest).dropWhile Char.isDigit = rest := by
  rw [List.dropWhile_append_of_pos hdigits]
  cases rest with
  | nil => rfl
  | cons c rest => exact List.dropWhile_cons_of_neg (by simp [hrest c rfl])

theorem IsNumber.exists_cons {text : List Char} (h : IsNumber text) :
    ∃ c cs, text = c :: cs ∧ (c = '-' ∨ c.isDigit) := by
  obtain @⟨sign, int, frac, exp, hsign, hint, hfrac, hexp⟩ := h
  obtain ⟨d, ds, rfl, hd⟩ := hint.exists_cons
  simp only [List.mem_cons, List.not_mem_nil, or_false] at hsign
  rcases hsign with rfl | rfl
  · exact ⟨d, _, rfl, .inr hd⟩
  · exact ⟨'-', _, rfl, .inl rfl⟩

end Numbers

/-! ## Compact texts -/

mutual

/-- The value that is written. -/
def value : Json → Value
  | null => .null
  | bool b => .bool b
  | nat n => .number (Nat.toDigits 10 n)
  | str s => .string s
  | arr items => .array (itemValues items)
  | obj fields => .object (fieldValues fields)

def itemValues : List Json → List Value
  | [] => []
  | v :: vs => v.value :: itemValues vs

def fieldValues : List (String × Json) → List (String × Value)
  | [] => []
  | (key, v) :: fields => (key, v.value) :: fieldValues fields

end

theorem isHexDigit_hexDigit {n : Nat} (h : n < 16) : IsHexDigit (hexDigit n) n := by
  left
  interval_cases n <;> rfl

theorem hexQuad_of_lt {n : Nat} (h : n < 32) :
    HexQuad n ['0', '0', hexDigit (n / 16), hexDigit (n % 16)] := by
  have hzero : IsHexDigit '0' 0 := .inl rfl
  have hquad := HexQuad.mk hzero hzero (isHexDigit_hexDigit (n := n / 16) (by omega))
    (isHexDigit_hexDigit (n := n % 16) (by omega))
  rwa [show ((0 * 16 + 0) * 16 + n / 16) * 16 + n % 16 = n by omega] at hquad

/-- A character is written as a short escape, by its number or as it is. -/
theorem escape_cases (c : Char) :
    (∃ e, (e, c) ∈ shortEscapes ∧ escape c = ['\\', e]) ∨
      (c.toNat < 32 ∧
        escape c = ['\\', 'u', '0', '0', hexDigit (c.toNat / 16), hexDigit (c.toNat % 16)]) ∨
      (32 ≤ c.toNat ∧ c ≠ '"' ∧ c ≠ '\\' ∧ escape c = [c]) := by
  unfold escape
  split_ifs with hquote hback _ _ _ _ _ hcontrol
  iterate 7
    · subst c
      exact .inl ⟨_, by simp [shortEscapes], rfl⟩
  · exact .inr (.inl ⟨hcontrol, rfl⟩)
  · exact .inr (.inr ⟨Nat.le_of_not_lt hcontrol, hquote, hback, rfl⟩)

theorem Spells.escape {s text rest : List Char} (h : Spells s text rest) (c : Char) :
    Spells (c :: s) (Json.escape c ++ text) rest := by
  obtain ⟨e, he, hescape⟩ | ⟨hc, hescape⟩ | ⟨hc, hquote, hback, hescape⟩ := escape_cases c
  · rw [hescape]
    exact .short he h
  · rw [hescape]
    exact .unicode (hexQuad_of_lt hc) h
  · rw [hescape]
    exact .plain hc hquote hback h

theorem spells_quote (s : String) (rest : List Char) :
    ∃ text, (quote s).toList ++ rest = '"' :: text ∧ Spells s.toList text rest := by
  refine ⟨s.toList.flatMap Json.escape ++ '"' :: rest, ?_, ?_⟩
  · simp [quote]
  · induction s.toList with
    | nil => exact .done
    | cons c s ih => simpa only [List.flatMap_cons, List.append_assoc] using ih.escape c

theorem exists_toDigits {n : Nat} (hn : 0 < n) : ∃ d ds, Nat.toDigits 10 n = d :: ds ∧ d ≠ '0' := by
  induction n using Nat.strongRecOn with
  | ind n ih =>
    by_cases hlt : n < 10
    · refine ⟨n.digitChar, [], Nat.toDigits_of_lt_base hlt, ?_⟩
      interval_cases n <;> decide
    · obtain ⟨d, ds, hds, hd⟩ := ih (n / 10) (by omega) (by omega)
      refine ⟨d, ds ++ [(n % 10).digitChar], ?_, hd⟩
      rw [Nat.toDigits_of_base_le (by omega) (by omega), hds, List.cons_append]

theorem isNumber_toDigits (n : Nat) : IsNumber (Nat.toDigits 10 n) := by
  have hint : IsInteger (Nat.toDigits 10 n) := by
    rcases Nat.eq_zero_or_pos n with rfl | hn
    · exact .zero
    · have hdigits : IsDigits (Nat.toDigits 10 n) :=
        ⟨Nat.toDigits_ne_nil, fun _ => Nat.isDigit_of_mem_toDigits (by omega) (by omega)⟩
      obtain ⟨d, ds, hds, hd⟩ := exists_toDigits hn
      rw [hds] at hdigits ⊢
      exact .digits hdigits hd
  have hsign : [] ∈ [[], ['-']] := List.mem_cons_self
  simpa using IsNumber.mk hsign hint .absent .absent

/-- A key and its colon. -/
theorem writesKey_quote (key : String) (rest : List Char) :
    WritesKey key ((quote key).toList ++ ':' :: rest) rest := by
  obtain ⟨body, htext, h⟩ := spells_quote key (':' :: rest)
  rw [htext]
  exact ⟨body, ':' :: rest, .done, h, .done⟩

mutual

/-- The compact text of a value is one of its texts. -/
theorem writes_compact (v : Json) (rest : List Char) :
    Writes (.value v.value) (v.compact.toList ++ rest) rest :=
  match v with
  | .null => .null
  | .bool .true => .true
  | .bool .false => .false
  | .nat n => by
    rw [compact, Nat.toString_eq_repr, Nat.repr_eq_ofList_toDigits, String.toList_ofList]
    exact .number (isNumber_toDigits n)
  | .str s => by
    obtain ⟨text, htext, h⟩ := spells_quote s rest
    rw [compact, htext]
    exact .string h
  | .arr [] => .emptyArray .done
  | .arr (v :: vs) => by
    simpa [compact, value] using Writes.array (writes_compactItems (v :: vs) (by simp) rest)
  | .obj [] => .emptyObject .done
  | .obj (m :: ms) => by
    simpa [compact, value] using Writes.object (writes_compactFields (m :: ms) (by simp) rest)

theorem writes_compactItems (vs : List Json) (hvs : vs ≠ []) (rest : List Char) :
    Writes (.items (itemValues vs))
      ((String.intercalate "," (compactItems vs)).toList ++ ']' :: rest) rest :=
  match vs with
  | [v] => by
    simpa [compactItems, itemValues] using Writes.lastItem .done (writes_compact v _) .done
  | v :: w :: ws => by
    have hs := writes_compactItems (w :: ws) (by simp) rest
    simpa [compactItems, itemValues] using Writes.item .done (writes_compact v _) .done hs

theorem writes_compactFields (ms : List (String × Json)) (hms : ms ≠ []) (rest : List Char) :
    Writes (.members (fieldValues ms))
      ((String.intercalate "," (compactFields ms)).toList ++ '\x7d' :: rest) rest :=
  match ms with
  | [(key, v)] => by
    simpa [compactFields, fieldValues] using
      Writes.lastMember (writesKey_quote key _) .done (writes_compact v _) .done
  | (key, v) :: n :: ns => by
    have hs := writes_compactFields (n :: ns) (by simp) rest
    simpa [compactFields, fieldValues] using
      Writes.member (writesKey_quote key _) .done (writes_compact v _) .done hs

end

theorem isText_compact (v : Json) : IsText v.value v.compact := by
  refine ⟨v.compact.toList, [], .done, ?_, .done⟩
  simpa using writes_compact v []

end TriLang.Json
