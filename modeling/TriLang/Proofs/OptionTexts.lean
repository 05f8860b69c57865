import TriLang.Options
import TriLang.Proofs.JsonReading

/-!
# Texts of options

However an object with the options of a run is written, with whatever else stands in it, each option
is read as the value of its member, or has its default.
-/

namespace TriLang.Options

open Json (Blanks Ends Fault Reading Spells Value Writes WritesKey IsText)
open Json.Read

/-! ## Options as members -/

/-- The value of an option by itself. -/
def value (o : Options) : Field → Value
  | .keepGoing => .bool o.keepGoing
  | .color => .bool o.color
  | .fileName => o.fileName.elim .null .string

theorem eq_of_value_eq {o o' : Options} (h : ∀ f, o.value f = o'.value f) : o = o' := by
  obtain ⟨keepGoing, color, fileName⟩ := o
  obtain ⟨keepGoing', color', fileName'⟩ := o'
  have hkeepGoing := h .keepGoing
  have hcolor := h .color
  have hfileName := h .fileName
  simp only [value, Value.bool.injEq] at hkeepGoing hcolor hfileName
  subst hkeepGoing hcolor
  cases fileName <;> cases fileName' <;> simp_all

namespace Field

/-- Values of the type of an option. -/
def Allows : Field → Value → Prop
  | keepGoing, v => ∃ b, v = .bool b
  | color, v => ∃ b, v = .bool b
  | fileName, v => v = .null ∨ ∃ s, v = .string s

theorem mem_all (f : Field) : f ∈ all := by
  cases f <;> decide

theorem key_injective {f g : Field} (h : f.key = g.key) : f = g := by
  cases f <;> cases g <;> first | rfl | exact absurd h (by decide)

theorem ofKey?_eq_some_iff {key : String} {f : Field} :
    ofKey? key.toList = some f ↔ f.key = key := by
  constructor
  · intro h
    have := List.find?_some h
    exact String.toList_inj.1 (eq_of_beq this)
  · rintro rfl
    cases f <;> decide

end Field

/-- The members name each option once at most, with a value of its type.  What else they name does
not matter. -/
structure Given (ms : List (String × Value)) : Prop where
  once (f : Field) : (ms.map Prod.fst).count f.key ≤ 1
  typed (f : Field) (v : Value) (hv : (f.key, v) ∈ ms) : f.Allows v

/-- Options are set by the members, and stay as they were where there is none. -/
structure Takes (o : Options) (ms : List (String × Value)) (o' : Options) : Prop where
  member (f : Field) (v : Value) (hv : (f.key, v) ∈ ms) : o'.value f = v
  absent (f : Field) (hf : f.key ∉ ms.map Prod.fst) : o'.value f = o.value f

section Members

variable {o o₁ o₂ : Options} {key : String} {v : Value} {m : String × Value}
  {ms : List (String × Value)}

theorem Given.tail (h : Given (m :: ms)) : Given ms where
  once f := Nat.le_trans List.count_le_count_cons (h.once f)
  typed f v hv := h.typed f v (List.mem_cons_of_mem _ hv)

theorem Given.notMem_tail (h : Given (m :: ms)) {f : Field} (hf : f.key = m.1) :
    f.key ∉ ms.map Prod.fst := by
  intro hmem
  have honce := h.once f
  rw [List.map_cons, ← hf, List.count_cons_self] at honce
  have := List.count_pos_iff.2 hmem
  omega

theorem Takes.cons (hgiven : Given (m :: ms)) (h : Takes o [m] o₁) (hs : Takes o₁ ms o₂) :
    Takes o (m :: ms) o₂ where
  member f v hv := by
    rcases List.mem_cons.1 hv with rfl | hv
    · rw [hs.absent f (hgiven.notMem_tail rfl)]
      exact h.member f v List.mem_cons_self
    · exact hs.member f v hv
  absent f hf := by
    rw [List.map_cons, List.mem_cons, not_or] at hf
    rw [hs.absent f hf.2]
    exact h.absent f (by simpa using hf.1)

/-- A member that sets one option. -/
theorem takes_field {f : Field} (h : ∀ g, o₁.value g = if g = f then v else o.value g) :
    Takes o [(f.key, v)] o₁ where
  member g w hw := by
    obtain ⟨hkey, rfl⟩ := Prod.mk.inj (List.mem_singleton.1 hw)
    rw [h, if_pos (Field.key_injective hkey)]
  absent g hg := by
    have hne : g ≠ f := by
      rintro rfl
      exact hg (by simp)
    rw [h, if_neg hne]

/-- A member that sets none. -/
theorem takes_unknown (hkey : ∀ f : Field, f.key ≠ key) : Takes o [(key, v)] o where
  member f _ hv := absurd (congrArg Prod.fst (List.mem_singleton.1 hv)) (hkey f)
  absent _ _ := rfl

end Members

/-! ## Values of options -/

section Values

variable {o : Options} {key : String} {v : Value} {cs text rest : List Char}

theorem readField_gives {f : Field} (hv : f.Allows v) (front : Blanks cs text)
    (h : Writes (.value v) text rest) :
    ∃ o', Gives (readField o f cs) o' rest ∧ Takes o [(f.key, v)] o' := by
  cases f with
  | keepGoing =>
    obtain ⟨b, rfl⟩ := hv
    exact ⟨{ o with keepGoing := b }, (bool_gives front h).bind fun _ => gives_ok rfl,
      takes_field fun g => by cases g <;> rfl⟩
  | color =>
    obtain ⟨b, rfl⟩ := hv
    exact ⟨{ o with color := b }, (bool_gives front h).bind fun _ => gives_ok rfl,
      takes_field fun g => by cases g <;> rfl⟩
  | fileName =>
    have hgives : ∃ name : Option String, Gives (stringOrNull cs) name rest ∧
        name.elim .null .string = v := by
      rcases hv with rfl | ⟨s, rfl⟩
      · exact ⟨none, stringOrNull_null_gives front h, rfl⟩
      · exact ⟨some s, stringOrNull_string_gives front h, rfl⟩
    obtain ⟨name, hname, rfl⟩ := hgives
    exact ⟨{ o with fileName := name }, hname.bind fun _ => gives_ok rfl,
      takes_field fun g => by cases g <;> rfl⟩

theorem readValue_gives {behind : List Char} (hv : ∀ f : Field, f.key = key → f.Allows v)
    (hcolon : Blanks cs (':' :: behind)) (front : Blanks behind text)
    (h : Writes (.value v) text rest) (hends : Ends rest) :
    ∃ o', Gives (readValue o (Field.ofKey? key.toList) cs) o' rest ∧ Takes o [(key, v)] o' := by
  cases hfield : Field.ofKey? key.toList with
  | some f =>
    obtain rfl := Field.ofKey?_eq_some_iff.1 hfield
    obtain ⟨o', hread, htakes⟩ := readField_gives (o := o) (hv f rfl) front h
    exact ⟨o', (colon_gives hcolon).bind fun _ => hread.within _, htakes⟩
  | none =>
    refine ⟨o, (colon_gives hcolon).bind fun _ => ?_, takes_unknown fun f hf => ?_⟩
    · exact (skipValue_gives front h hends).bind fun _ => gives_ok rfl
    · rw [Field.ofKey?_eq_some_iff.2 hf] at hfield
      cases hfield

end Values

/-! ## Members -/

section Members

variable {o : Options} {seen : List Field} {isFirst : Bool} {key : String} {v : Value}
  {ms : List (String × Value)} {cs ds text more body behind rest : List Char}

/-- The opening quote of the next key is taken off, and `body` is behind it. -/
def Opens (isFirst : Bool) (cs body : List Char) : Prop :=
  ∃ lt, nextKey isFirst cs = .ok (true, ⟨body, lt⟩)

theorem opens_first (h : skipBlank cs = '"' :: body) : Opens true cs body := by
  refine ⟨length_lt_of_skipBlank_eq h, ?_⟩
  unfold nextKey
  split
  case h_1 hnil => cases h.symm.trans hnil
  case h_2 c' text' hcons =>
    obtain ⟨rfl, rfl⟩ := List.cons.inj (h.symm.trans hcons)
    rfl

theorem opens_comma (h : skipBlank cs = ',' :: more) (hmore : skipBlank more = '"' :: body) :
    Opens false cs body := by
  refine ⟨Nat.lt_trans (length_lt_of_skipBlank_eq hmore) (length_lt_of_skipBlank_eq h), ?_⟩
  unfold nextKey
  split
  case h_1 hnil => cases h.symm.trans hnil
  case h_2 c' text' hcons =>
    obtain ⟨rfl, rfl⟩ := List.cons.inj (h.symm.trans hcons)
    simp only [Char.reduceEq, if_false, Bool.false_eq_true, if_true]
    split
    case h_1 hnil => cases hmore.symm.trans hnil
    case h_2 c' text' hcons =>
      obtain ⟨rfl, rfl⟩ := List.cons.inj (hmore.symm.trans hcons)
      rfl

theorem readMembers_closing (h : skipBlank cs = '\x7d' :: rest) :
    readMembers o seen isFirst cs = .ok (o, rest) := by
  have hnext : nextKey isFirst cs = .ok (false, ⟨rest, length_lt_of_skipBlank_eq h⟩) := by
    unfold nextKey
    split
    case h_1 hnil => cases h.symm.trans hnil
    case h_2 c' text' hcons =>
      obtain ⟨rfl, rfl⟩ := List.cons.inj (h.symm.trans hcons)
      rfl
  rw [readMembers, hnext]
  rfl

theorem readMembers_opens {o' : Options} (hopens : Opens isFirst cs body)
    (hkey : Gives (string body) key.toList behind)
    (hseen : ∀ f ∈ seen, f.key ≠ key)
    (hvalue : Gives (readValue o (Field.ofKey? key.toList) behind) o' rest) :
    readMembers o seen isFirst cs =
      readMembers o' ((Field.ofKey? key.toList).toList ++ seen) false rest := by
  obtain ⟨lt, hnext⟩ := hopens
  obtain ⟨le, hkey⟩ := hkey
  obtain ⟨le', hvalue⟩ := hvalue
  have hnew : (Field.ofKey? key.toList).any (seen.contains ·) = false := by
    rw [Option.any_eq_false]
    intro f hf
    simpa using fun hmem => hseen f hmem (Field.ofKey?_eq_some_iff.1 hf)
  rw [readMembers, hnext]
  simp only [bind, Except.bind, hkey, hnew, hvalue, Bool.false_eq_true, if_false]

/-- One member is read: what is read of an object from there on. -/
theorem readMembers_member (hgiven : Given ((key, v) :: ms))
    (hseen : ∀ f ∈ seen, f.key ∉ ((key, v) :: ms).map Prod.fst)
    (hopens : ∀ body, skipBlank text = '"' :: body → Opens isFirst cs body)
    (hkey : WritesKey key text behind) (front : Blanks behind ds) (h : Writes (.value v) ds rest)
    (hends : Ends rest) :
    ∃ o' seen', readMembers o seen isFirst cs = readMembers o' seen' false rest ∧
      Takes o [(key, v)] o' ∧ ∀ f ∈ seen', f.key ∉ ms.map Prod.fst := by
  obtain ⟨body, left, hquote, hspells, hcolon⟩ := hkey
  obtain ⟨o', hvalue, htakes⟩ := readValue_gives (o := o)
    (fun f hf => hgiven.typed f v (by rw [hf]; exact List.mem_cons_self)) hcolon front h hends
  refine ⟨o', _, readMembers_opens (hopens body (skipBlank_of_blanks_cons hquote (by decide)))
    (string_gives hspells) (fun f hf hkey => hseen f hf (by simp [hkey])) hvalue, htakes, ?_⟩
  intro f hf
  rcases List.mem_append.1 hf with hf | hf
  · rw [Option.mem_toList] at hf
    exact hgiven.notMem_tail (Field.ofKey?_eq_some_iff.1 hf)
  · exact fun hmem => hseen f hf (List.mem_cons_of_mem _ hmem)

/-- The members of an object are read to its end. -/
theorem readMembers_gives (h : Writes (.members ms) text rest) (hgiven : Given ms)
    (hseen : ∀ f ∈ seen, f.key ∉ ms.map Prod.fst)
    (hopens : ∀ body, skipBlank text = '"' :: body → Opens isFirst cs body) :
    ∃ o', readMembers o seen isFirst cs = .ok (o', rest) ∧ Takes o ms o' := by
  induction ms generalizing o seen isFirst cs text with
  | nil => cases h
  | cons m ms ih =>
    cases h with
    | lastMember hkey front hv back =>
      obtain ⟨o', seen', hstep, htakes, -⟩ := readMembers_member (o := o) hgiven hseen hopens hkey
        front hv (back.ends (by decide))
      refine ⟨o', hstep.trans (readMembers_closing ?_), htakes⟩
      exact skipBlank_of_blanks_cons back (by decide)
    | member hkey front hv back hs =>
      obtain ⟨o₁, seen', hstep, htakes, hseen'⟩ := readMembers_member (o := o) hgiven hseen hopens
        hkey front hv (back.ends (by decide))
      obtain ⟨o', hrun, hrest⟩ := ih (o := o₁) hs hgiven.tail hseen' fun body hbody =>
        opens_comma (skipBlank_of_blanks_cons back (by decide)) hbody
      exact ⟨o', hstep.trans hrun, htakes.cons hgiven hrest⟩

end Members

/-! ## Texts -/

section Texts

variable {ms ms' : List (String × Value)} {text text' : String}

/-- What is read is decided by the members that set options. -/
theorem Takes.eq {o o₁ o₂ : Options} (h₁ : Takes o ms o₁) (h₂ : Takes o ms' o₂)
    (hsame : ∀ (f : Field) v, (f.key, v) ∈ ms ↔ (f.key, v) ∈ ms') : o₁ = o₂ := by
  refine eq_of_value_eq fun f => ?_
  by_cases hf : f.key ∈ ms.map Prod.fst
  · obtain ⟨⟨_, v⟩, hv, rfl⟩ := List.mem_map.1 hf
    rw [h₁.member f v hv, h₂.member f v ((hsame f v).1 hv)]
  · have hf' : f.key ∉ ms'.map Prod.fst := by
      intro hmem
      obtain ⟨⟨_, v⟩, hv, rfl⟩ := List.mem_map.1 hmem
      exact hf (List.mem_map_of_mem ((hsame f v).2 hv))
    rw [h₁.absent f hf, h₂.absent f hf']

theorem exists_ofJson (hgiven : Given ms) (h : IsText (.object ms) text) :
    ∃ o, ofJson text = .ok o ∧ Takes {} ms o := by
  obtain ⟨cs, rest, front, hobject, hrest⟩ := h
  have hend : (skipBlank rest).isEmpty := by
    rw [skipBlank_of_blanks hrest]
    rfl
  have hmembers : ∃ more o, skipBlank text.toList = '\x7b' :: more ∧
      readMembers {} [] true more = .ok (o, rest) ∧ Takes {} ms o := by
    cases hobject with
    | emptyObject hclosing =>
      refine ⟨_, {}, skipBlank_of_blanks_cons front (by decide), readMembers_closing ?_, ?_⟩
      · exact skipBlank_of_blanks_cons hclosing (by decide)
      · exact ⟨fun _ _ hv => absurd hv List.not_mem_nil, fun _ _ => rfl⟩
    | object hms =>
      obtain ⟨o, hread, htakes⟩ := readMembers_gives (o := {}) hms hgiven
        (fun _ hf => absurd hf List.not_mem_nil) fun body hbody => opens_first hbody
      exact ⟨_, o, skipBlank_of_blanks_cons front (by decide), hread, htakes⟩
  obtain ⟨more, o, hcs, hread, htakes⟩ := hmembers
  refine ⟨o, ?_, htakes⟩
  rw [ofJson, hcs]
  simp only [hread, bind, Except.bind, hend, if_true]

/-- Options as the members of an object, in the order in which they are written. -/
def members (o : Options) : List (String × Value) := Field.all.map fun f => (f.key, o.value f)

theorem value_json (o : Options) : o.json.value = .object o.members := by
  obtain ⟨_, _, _ | _⟩ := o <;> rfl

theorem mem_members_iff {o : Options} {f : Field} {v : Value} :
    (f.key, v) ∈ o.members ↔ v = o.value f := by
  constructor
  · intro h
    obtain ⟨g, -, hg⟩ := List.mem_map.1 h
    obtain ⟨hkey, rfl⟩ := Prod.mk.inj hg
    rw [Field.key_injective hkey]
  · rintro rfl
    exact List.mem_map_of_mem f.mem_all

theorem given_members (o : Options) : Given o.members where
  once f := by
    have hkeys : o.members.map Prod.fst = Field.all.map Field.key := rfl
    rw [hkeys]
    cases f <;> decide
  typed f v hv := by
    rw [mem_members_iff.1 hv]
    cases f with
    | keepGoing => exact ⟨_, rfl⟩
    | color => exact ⟨_, rfl⟩
    | fileName =>
      cases h : o.fileName with
      | none => exact .inl (by simp [value, h])
      | some s => exact .inr ⟨s, by simp [value, h]⟩

/-- However an object that names each option once at most is written, each option is read as the
value of its member, or has its default.  What else stands in the object, and in which order, does
not matter; and options are read back from their compact text. -/
theorem ofJson_members :
    (∀ ms text, Given ms → IsText (.object ms) text → ∃ o, ofJson text = .ok o ∧
      (∀ f v, (Field.key f, v) ∈ ms → o.value f = v) ∧
      ∀ f, Field.key f ∉ ms.map Prod.fst → o.value f = value ⟨true, false, none⟩ f) ∧
    (∀ ms ms' text text', Given ms → Given ms' → IsText (.object ms) text →
      IsText (.object ms') text' → (∀ f v, (Field.key f, v) ∈ ms ↔ (Field.key f, v) ∈ ms') →
      ofJson text = ofJson text') ∧
    ∀ o : Options, ofJson o.json.compact = .ok o := by
  refine ⟨fun ms text hgiven h => ?_, fun ms ms' text text' hgiven hgiven' h h' hsame => ?_,
    fun o => ?_⟩
  · obtain ⟨o, hread, htakes⟩ := exists_ofJson hgiven h
    exact ⟨o, hread, htakes.member, htakes.absent⟩
  · obtain ⟨o, hread, htakes⟩ := exists_ofJson hgiven h
    obtain ⟨o', hread', htakes'⟩ := exists_ofJson hgiven' h'
    rw [hread, hread', htakes.eq htakes' hsame]
  · have htext := Json.isText_compact o.json
    rw [value_json] at htext
    obtain ⟨o', hread, htakes⟩ := exists_ofJson (given_members o) htext
    rw [hread, eq_of_value_eq fun f => htakes.member f _ (mem_members_iff.2 rfl)]

/-- An unknown member holds the name of an option, and a name is written with an escape. -/
theorem ofJson_members_nested :
    let ms : List (String × Value) :=
      [("x", .array [.number ['1'], .object [("color", .null)]]), ("file_name", .string "é")]
    let text := "\x7b\"x\": [1,\x7b\"color\":null\x7d] ,\"file_name\":\"\\u00e9\"\x7d"
    let ms' : List (String × Value) := [("file_name", .string "é")]
    let text' := (Json.obj [("file_name", .str "é")]).compact
    (Given ms ∧ IsText (.object ms) text) ∧ (Given ms' ∧ IsText (.object ms') text') ∧
      (∀ f v, (Field.key f, v) ∈ ms ↔ (Field.key f, v) ∈ ms') ∧
      ofJson text = .ok ⟨true, false, some "é"⟩ ∧ ofJson text = ofJson text' := by
  intro ms text ms' text'
  have hms : Given ms := by
    constructor
    · rintro (_ | _ | _) <;> decide
    · rintro (_ | _ | _) v hv <;> simp [ms, Field.key] at hv
      exact .inr ⟨_, hv⟩
  have hms' : Given ms' := by
    constructor
    · rintro (_ | _ | _) <;> decide
    · rintro (_ | _ | _) v hv <;> simp [ms', Field.key] at hv
      exact .inr ⟨_, hv⟩
  have hsame : ∀ f v, (Field.key f, v) ∈ ms ↔ (Field.key f, v) ∈ ms' := by
    rintro (_ | _ | _) v <;> simp [ms, ms', Field.key]
  have hquad : Json.HexQuad 'é'.toNat ['0', '0', 'e', '9'] :=
    .mk (k := 0) (l := 0) (m := 14) (n := 9) (.inl rfl) (.inl rfl) (.inl rfl) (.inl rfl)
  have htext : IsText (.object ms) text := by
    refine ⟨text.toList, [], .done, ?_, .done⟩
    have hx := Json.writes_compact (.arr [.nat 1, .obj [("color", .null)]])
    have hend : Blanks ['\x7d'] ['\x7d'] := .done
    have hlast := Writes.lastMember (Json.writesKey_quote "file_name" _) .done
      (.string (s := "é") (.unicode hquad .done)) hend
    have hobject := Writes.object (Writes.member (Json.writesKey_quote "x" _)
      (.blank (c := ' ') (by simp) .done) (hx _) (.blank (c := ' ') (by simp) .done) hlast)
    convert hobject using 1
    · rfl
    · decide
  obtain ⟨hread, hsameRead, -⟩ := ofJson_members
  obtain ⟨o, ho, hmember, habsent⟩ := hread ms text hms htext
  have htext' : IsText (.object ms') text' := Json.isText_compact _
  refine ⟨⟨hms, htext⟩, ⟨hms', htext'⟩, hsame, ?_, hsameRead _ _ _ _ hms hms' htext htext' hsame⟩
  refine ho.trans (congrArg _ (eq_of_value_eq ?_))
  rintro (_ | _ | _)
  · exact habsent .keepGoing (by decide)
  · exact habsent .color (by decide)
  · exact hmember .fileName (.string "é") (by simp [ms, Field.key])

end Texts

end TriLang.Options
