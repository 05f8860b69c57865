import Mathlib.Data.List.Induction
import Mathlib.Data.Nat.Find
import TriLang.Scope

/-!
# Histories of scopes

A stack of scopes comes from an empty root by scopes being opened and closed and names being
entered.  What it holds is told by that history alone: a name stands for what it was first entered
as, in the innermost scope still open that it was entered in.  To close the root does nothing, so a
scope opened later is closed by a later change.
-/

namespace TriLang

namespace Scopes

/-! ## Changes -/

/-- A change of a stack of scopes. -/
inductive Change
  | push
  | pop
  | enter (name : String) (b : Binding)
  deriving DecidableEq

/-- The scopes behind a change.  A name that is refused changes nothing. -/
def change (ss : Scopes) : Change → Scopes
  | .push => ss.push
  | .pop => ss.pop
  | .enter name b =>
    match ss.insertNew name b with
    | .ok ts => ts
    | .error _ => ss

/-- The scopes behind the changes `cs`, first to last. -/
def after (ss : Scopes) (cs : List Change) : Scopes := cs.foldl change ss

theorem after_concat (ss : Scopes) (cs : List Change) (c : Change) :
    ss.after (cs ++ [c]) = (ss.after cs).change c := by
  rw [after, List.foldl_append, List.foldl_cons, List.foldl_nil, after]

namespace Change

/-- How deep a change leads that is made at depth `n`.  The root is never closed. -/
def level (n : Nat) : Change → Nat
  | push => n + 1
  | pop => n - 1
  | enter .. => n

/-- The number of scopes above the root behind the changes `cs`. -/
def depth (cs : List Change) : Nat := cs.foldl level 0

/-- The number of scopes above the root in front of the change `i`. -/
def depthAt (cs : List Change) (i : Nat) : Nat := depth (cs.take i)

theorem depth_concat (cs : List Change) (c : Change) : depth (cs ++ [c]) = level (depth cs) c := by
  rw [depth, List.foldl_append, List.foldl_cons, List.foldl_nil, depth]

theorem depthAt_length (cs : List Change) : depthAt cs cs.length = depth cs := by
  rw [depthAt, List.take_length]

theorem depthAt_concat_of_le {cs : List Change} {i : Nat} (h : i ≤ cs.length) (c : Change) :
    depthAt (cs ++ [c]) i = depthAt cs i := by
  rw [depthAt, List.take_append_of_le_length h, depthAt]

/-- The changes that enter the standard environment into an empty root. -/
def standard : List Change := Builtin.all.map fun b => enter b.name (.builtin b)

/-- No scope is closed that has not been opened here, and in the end none is open. -/
structure Balanced (cs : List Change) : Prop where
  count_le : ∀ ds, ds <+: cs → ds.count pop ≤ ds.count push
  count_eq : cs.count pop = cs.count push

end Change

open Change (depthAt depthAt_length depthAt_concat_of_le)

theorem standard_eq_after : standard = empty.after Change.standard := by decide +kernel

/-! ### The scopes below -/

variable {ss : Scopes} {cs : List Change} {name : String} {b : Binding}

theorem change_enter_eq_or (ss : Scopes) (name : String) (b : Binding) :
    ss.innermost.lookup name = none ∧ ss.change (.enter name b) = ss.insert name b ∨
      (∃ existing, ss.innermost.lookup name = some existing) ∧ ss.change (.enter name b) = ss := by
  rw [change]
  rcases h : ss.insertNew name b with existing | ts
  · exact .inr ⟨⟨existing, insertNew_eq_error_iff.1 h⟩, rfl⟩
  · obtain ⟨hnone, hinsert⟩ := insertNew_eq_ok_iff.1 h
    exact .inl ⟨hnone, hinsert.symm⟩

theorem lookup_root_change {existing : Binding} (h : ss.root.lookup name = some existing)
    (c : Change) : (ss.change c).root.lookup name = some existing := by
  cases c with
  | push | pop => exact h
  | enter other b =>
    rcases change_enter_eq_or ss other b with ⟨hnone, heq⟩ | ⟨-, heq⟩
    · rw [heq]
      obtain ⟨_ | ⟨scope, outer⟩, root⟩ := ss
      · -- A name that is new to the root is none of those bound there.
        have hne : name ≠ other := by
          rintro rfl
          rw [show root.lookup name = none from hnone] at h
          cases h
        show ((other, b) :: root).lookup name = some existing
        rwa [List.lookup_cons, beq_eq_false_iff_ne.2 hne]
      · exact h
    · rwa [heq]

/-- What the root binds it binds for ever. -/
theorem lookup_root_after {existing : Binding} (h : ss.root.lookup name = some existing)
    (cs : List Change) : (ss.after cs).root.lookup name = some existing := by
  induction cs generalizing ss with
  | nil => exact h
  | cons c cs ih => exact ih (lookup_root_change h c)

/-- A change to one of the `n + 1` scopes `top`, but for closing the last of them, leaves those
below as they are. -/
theorem exists_inner_change {top below : List Scope} {n : Nat} (hinner : ss.inner = top ++ below)
    (htop : top.length = n + 1) {c : Change} (hc : c = .pop → 0 < n) :
    ∃ top', (ss.change c).inner = top' ++ below ∧ (ss.change c).root = ss.root ∧
      top'.length = Change.level n c + 1 := by
  obtain ⟨scope, rest, rfl⟩ : ∃ scope rest, top = scope :: rest :=
    List.exists_cons_of_length_eq_add_one htop
  obtain ⟨inner, root⟩ := ss
  obtain rfl : inner = scope :: (rest ++ below) := hinner
  rw [List.length_cons] at htop
  cases c with
  | push => exact ⟨[] :: scope :: rest, rfl, rfl, congrArg (· + 1) htop⟩
  | pop =>
    have hopen : 0 < n := hc rfl
    exact ⟨rest, rfl, rfl, by rw [Change.level]; omega⟩
  | enter name b =>
    rcases change_enter_eq_or ⟨scope :: (rest ++ below), root⟩ name b with ⟨-, heq⟩ | ⟨-, heq⟩
    · rw [heq]
      exact ⟨((name, b) :: scope) :: rest, rfl, rfl, htop⟩
    · rw [heq]
      exact ⟨scope :: rest, rfl, rfl, htop⟩

/-- As long as no scope is closed but the `n + 1` scopes `top` and those opened since, and of `top`
not the last, the scopes below stay as they are. -/
theorem exists_inner_after {top below : List Scope} {n : Nat} (hinner : ss.inner = top ++ below)
    (htop : top.length = n + 1) (h : ∀ ds, ds <+: cs → ds.count .pop ≤ ds.count .push + n) :
    ∃ top', (ss.after cs).inner = top' ++ below ∧ (ss.after cs).root = ss.root ∧
      top'.length + cs.count .pop = n + 1 + cs.count .push := by
  induction cs generalizing ss top n with
  | nil => exact ⟨top, hinner, rfl, by simpa using htop⟩
  | cons c cs ih =>
    have htail (ds : List Change) (hds : ds <+: cs) :
        (c :: ds).count .pop ≤ (c :: ds).count .push + n :=
      h (c :: ds) (List.cons_prefix_cons.2 ⟨rfl, hds⟩)
    have hpop (hc : c = .pop) : 0 < n := by
      have hone := htail [] List.nil_prefix
      simp [hc] at hone
      omega
    obtain ⟨top', hinner', hroot', hlen'⟩ := exists_inner_change hinner htop hpop
    have hrest (ds : List Change) (hds : ds <+: cs) :
        ds.count .pop ≤ ds.count .push + Change.level n c := by
      have := htail ds hds
      cases c <;> simp [Change.level] at this ⊢ <;> omega
    obtain ⟨top'', hinner'', hroot'', hlen''⟩ := ih hinner' hlen' hrest
    refine ⟨top'', hinner'', hroot''.trans hroot', ?_⟩
    cases c <;> simp [Change.level] at hlen'' hpop ⊢ <;> omega

/-- Behind a scope with balanced changes in it all is as it was in front. -/
theorem pop_after_push (h : Change.Balanced cs) (ss : Scopes) : (ss.push.after cs).pop = ss := by
  obtain ⟨top, hi, hr, hl⟩ := @exists_inner_after ss.push cs [[]] ss.inner 0 rfl rfl h.count_le
  have hcount := h.count_eq
  obtain ⟨scope, rfl⟩ : ∃ scope, top = [scope] := List.length_eq_one_iff.1 (by omega)
  rw [pop, hi, hr]
  rfl

/-! ## What a history tells -/

/-- The change `i` of the history `cs` binds `name` to `b`, in a scope that is open at the end. -/
structure Binds (cs : List Change) (i : Nat) (name : String) (b : Binding) : Prop where
  enters : cs[i]? = some (.enter name b)
  accepted : ∃ ts, (empty.after (cs.take i)).insertNew name b = .ok ts
  stays : ∀ j, i ≤ j → j ≤ cs.length → depthAt cs i ≤ depthAt cs j

/-- In the history `cs`, the change `i` binds `name` to `b` in the innermost of the open scopes that
`name` is bound in, as the first to do so. -/
structure BindsInnermost (cs : List Change) (i : Nat) (name : String) (b : Binding) : Prop
    extends Binds cs i name b where
  innermost : ∀ j b', Binds cs j name b' → depthAt cs j ≤ depthAt cs i
  first : ∀ j b', Binds cs j name b' → depthAt cs j = depthAt cs i → i ≤ j

variable {i : Nat}

theorem Binds.lt_length (h : Binds cs i name b) : i < cs.length :=
  (List.getElem?_eq_some_iff.1 h.enters).1

theorem Binds.depthAt_le (h : Binds cs i name b) : depthAt cs i ≤ Change.depth cs := by
  rw [← depthAt_length]
  exact h.stays cs.length (Nat.le_of_lt h.lt_length) (Nat.le_refl _)

/-- A change more may close the scope of an earlier one, or bind a name itself. -/
theorem binds_concat_iff {c : Change} :
    Binds (cs ++ [c]) i name b ↔
      Binds cs i name b ∧ depthAt cs i ≤ Change.depth (cs ++ [c]) ∨
        i = cs.length ∧ c = .enter name b ∧ ∃ ts, (empty.after cs).insertNew name b = .ok ts := by
  have hlast : depthAt (cs ++ [c]) (cs.length + 1) = Change.depth (cs ++ [c]) := by
    rw [← depthAt_length, List.length_append, List.length_singleton]
  constructor
  · intro h
    have hle : i ≤ cs.length := by simpa [Nat.lt_succ_iff] using h.lt_length
    have htake : (cs ++ [c]).take i = cs.take i := List.take_append_of_le_length hle
    rcases Nat.lt_or_eq_of_le hle with hlt | rfl
    · refine .inl ⟨⟨?_, htake ▸ h.accepted, fun j hij hj => ?_⟩, ?_⟩
      · rw [← h.enters, List.getElem?_append_left hlt]
      · have := h.stays j hij (by simp; omega)
        rwa [depthAt_concat_of_le hle, depthAt_concat_of_le hj] at this
      · have := h.stays (cs.length + 1) (by omega) (by simp)
        rwa [depthAt_concat_of_le hle, hlast] at this
    · refine .inr ⟨rfl, ?_, ?_⟩
      · simpa using h.enters
      · simpa using h.accepted
  · rintro (⟨h, hdepth⟩ | ⟨rfl, rfl, hts⟩)
    · have hlt := h.lt_length
      have hle := Nat.le_of_lt hlt
      have htake : (cs ++ [c]).take i = cs.take i := List.take_append_of_le_length hle
      refine ⟨?_, htake ▸ h.accepted, fun j hij hj => ?_⟩
      · rw [List.getElem?_append_left hlt, h.enters]
      · rw [depthAt_concat_of_le hle]
        by_cases hjlen : j ≤ cs.length
        · rw [depthAt_concat_of_le hjlen]
          exact h.stays j hij hjlen
        · obtain rfl : j = cs.length + 1 := by
            rw [List.length_append, List.length_singleton] at hj
            omega
          rwa [hlast]
    · refine ⟨by simp, by simpa using hts, fun j hij hj => ?_⟩
      rw [depthAt_concat_of_le (Nat.le_refl _), depthAt_length]
      by_cases hjlen : j ≤ cs.length
      · obtain rfl : j = cs.length := Nat.le_antisymm hjlen hij
        rw [depthAt_concat_of_le hjlen, depthAt_length]
      · obtain rfl : j = cs.length + 1 := by
          rw [List.length_append, List.length_singleton] at hj
          omega
        rw [hlast, Change.depth_concat, Change.level]

/-- What a history binds `k` scopes out from the innermost, a change later. -/
theorem exists_binds_concat_iff {c : Change} {k : Nat} :
    (∃ i, Binds (cs ++ [c]) i name b ∧ depthAt (cs ++ [c]) i + k = Change.depth (cs ++ [c])) ↔
      (∃ i, Binds cs i name b ∧ depthAt cs i + k = Change.depth (cs ++ [c])) ∨
        c = .enter name b ∧ k = 0 ∧ ∃ ts, (empty.after cs).insertNew name b = .ok ts := by
  constructor
  · rintro ⟨i, hb, hdepth⟩
    rcases binds_concat_iff.1 hb with ⟨hb, -⟩ | ⟨rfl, rfl, hts⟩
    · rw [depthAt_concat_of_le (Nat.le_of_lt hb.lt_length)] at hdepth
      exact .inl ⟨i, hb, hdepth⟩
    · rw [depthAt_concat_of_le (Nat.le_refl _), depthAt_length, Change.depth_concat,
        Change.level] at hdepth
      exact .inr ⟨rfl, by omega, hts⟩
  · rintro (⟨i, hb, hdepth⟩ | ⟨rfl, rfl, hts⟩)
    · refine ⟨i, binds_concat_iff.2 (.inl ⟨hb, by omega⟩), ?_⟩
      rwa [depthAt_concat_of_le (Nat.le_of_lt hb.lt_length)]
    · refine ⟨cs.length, binds_concat_iff.2 (.inr ⟨rfl, rfl, hts⟩), ?_⟩
      rw [depthAt_concat_of_le (Nat.le_refl _), depthAt_length, Change.depth_concat, Change.level,
        Nat.add_zero]

/-- The scopes `ss` are those that the history `cs` leaves open, the innermost first, and each binds
what the changes made in it do. -/
structure Tells (ss : Scopes) (cs : List Change) : Prop where
  length_eq : ss.toList.length = Change.depth cs + 1
  lookup_eq : ∀ k scope, ss.toList[k]? = some scope → ∀ name b,
    scope.lookup name = some b ↔ ∃ i, Binds cs i name b ∧ depthAt cs i + k = Change.depth cs

theorem tells_empty : empty.Tells [] where
  length_eq := rfl
  lookup_eq k scope hk name b := by
    have hscope : scope ∈ empty.toList := List.mem_of_getElem? hk
    obtain rfl : scope = [] := by simpa [empty, toList] using hscope
    constructor
    · intro h
      cases h
    · rintro ⟨i, h, -⟩
      cases h.lt_length

namespace Tells

/-- In a new scope nothing is bound, and those around it lie one further out. -/
theorem push (h : ss.Tells cs) : ss.push.Tells (cs ++ [.push]) where
  length_eq := by
    rw [Change.depth_concat, Change.level, ← h.length_eq]
    rfl
  lookup_eq k scope hk name b := by
    rw [exists_binds_concat_iff, or_iff_left (by simp), Change.depth_concat, Change.level]
    cases k with
    | zero =>
      obtain rfl : [] = scope := Option.some.inj hk
      constructor
      · intro h
        cases h
      · rintro ⟨i, hb, hdepth⟩
        have hle := hb.depthAt_le
        omega
    | succ k =>
      rw [h.lookup_eq k scope hk]
      refine exists_congr fun i => and_congr_right fun _ => ?_
      omega

/-- What was bound in the scope that is closed is gone. -/
theorem pop (h : ss.Tells cs) : ss.pop.Tells (cs ++ [.pop]) := by
  have hlength := h.length_eq
  obtain ⟨_ | ⟨scope, outer⟩, root⟩ := ss
  · have hroot : Change.depth cs = 0 := by simpa [toList] using hlength
    refine ⟨?_, fun k scope hk name b => ?_⟩
    · rw [Change.depth_concat, Change.level, hroot]
      rfl
    · rw [exists_binds_concat_iff, or_iff_left (by simp), Change.depth_concat, Change.level,
        h.lookup_eq k scope hk, hroot]
  · have hopen : Change.depth cs = outer.length + 1 := by simpa [toList] using hlength.symm
    refine ⟨?_, fun k scope' hk name b => ?_⟩
    · rw [Change.depth_concat, Change.level, hopen]
      simp [Scopes.pop, toList]
    · rw [exists_binds_concat_iff, or_iff_left (by simp), Change.depth_concat, Change.level,
        h.lookup_eq (k + 1) scope' hk]
      refine exists_congr fun i => and_congr_right fun _ => ?_
      omega

/-- A name is bound in the innermost scope, or it is bound there already. -/
theorem enter (h : (empty.after cs).Tells cs) (name : String) (b : Binding) :
    ((empty.after cs).change (.enter name b)).Tells (cs ++ [.enter name b]) := by
  obtain ⟨outer, hlist, hinsert⟩ := (empty.after cs).exists_toList_eq
  have hdepth : Change.depth (cs ++ [.enter name b]) = Change.depth cs := Change.depth_concat _ _
  rcases change_enter_eq_or (empty.after cs) name b with ⟨hnone, heq⟩ | ⟨⟨existing, hsome⟩, heq⟩
  · rw [heq]
    refine ⟨?_, fun k scope hk other b' => ?_⟩
    · rw [hdepth, ← h.length_eq, hinsert, hlist, List.length_cons, List.length_cons]
    · rw [exists_binds_concat_iff, hdepth]
      rw [hinsert] at hk
      cases k with
      | zero =>
        obtain rfl : (name, b) :: (empty.after cs).innermost = scope := Option.some.inj hk
        rw [← h.lookup_eq 0 (empty.after cs).innermost (by rw [hlist]; rfl), List.lookup_cons]
        by_cases hname : other = name
        · subst hname
          rw [BEq.rfl, hnone]
          simp [insertNew_eq_ok_iff, hnone]
        · rw [beq_eq_false_iff_ne.2 hname, or_iff_left]
          rintro ⟨hc, -⟩
          exact hname (Change.enter.inj hc).1.symm
      | succ k =>
        have hk' : (empty.after cs).toList[k + 1]? = some scope := by rwa [hlist]
        rw [h.lookup_eq (k + 1) scope hk', or_iff_left (by simp)]
  · rw [heq]
    refine ⟨by rw [hdepth, h.length_eq], fun k scope hk other b' => ?_⟩
    rw [exists_binds_concat_iff, hdepth, h.lookup_eq k scope hk, or_iff_left]
    rintro ⟨hc, -, ts, hts⟩
    obtain ⟨rfl, rfl⟩ : name = other ∧ b = b' := by simpa using hc
    rw [insertNew_eq_ok_iff, hsome] at hts
    cases hts.1

end Tells

theorem tells_after (cs : List Change) : (empty.after cs).Tells cs := by
  induction cs using List.reverseRecOn with
  | nil => exact tells_empty
  | append_singleton cs c ih =>
    rw [after_concat]
    cases c with
    | push => exact ih.push
    | pop => exact ih.pop
    | enter name b => exact ih.enter name b

/-- The scope that a name was bound in is still there, as many scopes out as were opened in it. -/
theorem Tells.exists_scope (h : ss.Tells cs) (hb : Binds cs i name b) :
    ∃ scope, ss.toList[Change.depth cs - depthAt cs i]? = some scope ∧
      scope.lookup name = some b := by
  have hle := hb.depthAt_le
  have hlt : Change.depth cs - depthAt cs i < ss.toList.length := by
    rw [h.length_eq]
    omega
  have hk := List.getElem?_eq_getElem hlt
  exact ⟨_, hk, (h.lookup_eq _ _ hk name b).2 ⟨i, hb, by omega⟩⟩

/-- A name stands for what it is bound to innermost. -/
theorem Tells.find?_eq_some_iff (h : ss.Tells cs) :
    ss.find? name = some b ↔ ∃ i, BindsInnermost cs i name b := by
  rw [find?, List.findSome?_eq_some_iff]
  constructor
  · rintro ⟨inner, scope, outer, hlist, hb, hnone⟩
    have hk : ss.toList[inner.length]? = some scope := by
      rw [hlist]
      simp
    -- All changes that bind the name at this depth bind it to the same; the first of them is meant.
    have hex : ∃ i b', Binds cs i name b' ∧ depthAt cs i + inner.length = Change.depth cs := by
      obtain ⟨i, hi, hdepth⟩ := (h.lookup_eq inner.length scope hk name b).1 hb
      exact ⟨i, b, hi, hdepth⟩
    classical
    obtain ⟨b', hbinds, hdepth⟩ := Nat.find_spec hex
    obtain rfl : b' = b := by
      have hb' := (h.lookup_eq inner.length scope hk name b').2 ⟨_, hbinds, hdepth⟩
      exact Option.some.inj (hb'.symm.trans hb)
    refine ⟨Nat.find hex, hbinds, fun j b'' hj => ?_, fun j b'' hj hsame => ?_⟩
    · by_contra hdeeper
      obtain ⟨scope', hk', hb'⟩ := h.exists_scope hj
      have hlt : Change.depth cs - depthAt cs j < inner.length := by
        have := hj.depthAt_le
        omega
      rw [hlist, List.getElem?_append_left hlt] at hk'
      rw [hnone scope' (List.mem_of_getElem? hk')] at hb'
      cases hb'
    · exact Nat.find_min' hex ⟨b'', hj, by omega⟩
  · rintro ⟨i, hi⟩
    obtain ⟨scope, hk, hb⟩ := h.exists_scope hi.toBinds
    obtain ⟨hlt, hscope⟩ := List.getElem?_eq_some_iff.1 hk
    refine ⟨ss.toList.take (Change.depth cs - depthAt cs i), scope,
      ss.toList.drop (Change.depth cs - depthAt cs i + 1), ?_, hb, fun x hx => ?_⟩
    · rw [← hscope, List.getElem_cons_drop, List.take_append_drop]
    · obtain ⟨k, hmin, hkx⟩ := List.mem_take_iff_getElem.1 hx
      have hklt : k < Change.depth cs - depthAt cs i :=
        Nat.lt_of_lt_of_le hmin (Nat.min_le_left _ _)
      replace hkx : ss.toList[k]? = some x := List.getElem?_eq_some_iff.2 ⟨_, hkx⟩
      refine Option.eq_none_iff_forall_ne_some.2 fun b' hb' => ?_
      obtain ⟨j, hj, hdepth⟩ := (h.lookup_eq k x hkx name b').1 hb'
      have hle := hi.innermost j b' hj
      omega

/-! ## Laws -/

/-- What is true of the scopes `ss` that come from the history `cs`. -/
structure Lawful (ss : Scopes) (cs : List Change) : Prop where
  /-- The root is below the scopes that are open. -/
  length : ss.toList.length = Change.depth cs + 1
  root_kept : ∀ more name b, ss.root.lookup name = some b →
    (ss.after more).root.lookup name = some b
  refused : ∀ name b existing, ss.insertNew name b = .error existing ↔
    ss.innermost.lookup name = some existing
  /-- A name that is refused changes nothing. -/
  unchanged : ∀ name b existing, ss.insertNew name b = .error existing →
    ss.change (.enter name b) = ss
  accepted : ∀ name b ts, ss.insertNew name b = .ok ts →
    ts.find? name = some b ∧ ∀ other, other ≠ name → ts.find? other = ss.find? other
  found : ∀ name b, ss.find? name = some b ↔ ∃ i, BindsInnermost cs i name b
  closed : ∀ more, Change.Balanced more → (ss.push.after more).pop = ss

theorem find?_insert_self (ss : Scopes) (name : String) (b : Binding) :
    (ss.insert name b).find? name = some b := by
  obtain ⟨outer, -, hinsert⟩ := ss.exists_toList_eq
  rw [find?, hinsert, List.findSome?_cons, List.lookup_cons, BEq.rfl]

theorem find?_insert_of_ne {other : String} (h : other ≠ name) (ss : Scopes) (b : Binding) :
    (ss.insert name b).find? other = ss.find? other := by
  obtain ⟨outer, hlist, hinsert⟩ := ss.exists_toList_eq
  rw [find?, find?, hlist, hinsert, List.findSome?_cons, List.findSome?_cons, List.lookup_cons,
    beq_eq_false_iff_ne.2 h]

theorem Tells.lawful (h : ss.Tells cs) : ss.Lawful cs where
  length := h.length_eq
  root_kept more _ _ hb := lookup_root_after hb more
  refused _ _ _ := insertNew_eq_error_iff
  unchanged name b existing hr := by rw [change, hr]
  accepted name b ts ha := by
    obtain ⟨-, rfl⟩ := insertNew_eq_ok_iff.1 ha
    exact ⟨find?_insert_self ss name b, fun other hother => find?_insert_of_ne hother ss b⟩
  found _ _ := h.find?_eq_some_iff
  closed _ hmore := pop_after_push hmore ss

/-- Whatever is done to scopes, from an empty root or from one that holds the standard environment,
they are lawful.  The standard environment is itself entered into an empty root. -/
theorem after_lawful (cs : List Change) :
    (empty.after cs).Lawful cs ∧ standard = empty.after Change.standard ∧
      (standard.after cs).Lawful (Change.standard ++ cs) := by
  refine ⟨(tells_after cs).lawful, standard_eq_after, ?_⟩
  have happend : standard.after cs = empty.after (Change.standard ++ cs) := by
    rw [standard_eq_after, after, after, after, List.foldl_append]
  rw [happend]
  exact (tells_after (Change.standard ++ cs)).lawful

/-- The first change closes nothing, so the last one closes the scope that `n` is entered in. -/
example : empty.after [.pop, .push, .enter "n" (.declared 1), .pop] = empty := by decide

end Scopes

end TriLang
