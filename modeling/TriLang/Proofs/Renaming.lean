import Mathlib.Logic.Equiv.Basic
import TriLang.Proofs.Naming
import TriLang.Proofs.Traversal

/-!
# Names are told apart by their spelling only

Naming asks of two spellings whether they are the same and nothing else.  So if all names of a
program are spelled anew, different ones differently and the predeclared ones as before, the same is
found under the new spellings.  The scopes open at a place change with the program: their keys are
spelled anew, and what a key is bound to stays.
-/

namespace TriLang

/-! ## New spellings -/

/-- Spells every name and every operator anew.  Literals stay. -/
def Relabel.respell (r : String → String) : Relabel :=
  ⟨fun o => { o with spelling := r o.spelling }, fun i => i, fun s => s⟩

def Program.rename (r : String → String) (p : Program) : Program :=
  { p with command := p.command.relabel (.respell r) }

def DeclEntry.rename (r : String → String) (e : DeclEntry) : DeclEntry :=
  { e with name := r e.name, type := e.type.map r }

def NamingFault.rename (r : String → String) : NamingFault → NamingFault
  | alreadyDeclared name previous => alreadyDeclared (r name) previous
  | undeclared name => undeclared (r name)
  | malformed what => malformed what

def NamingError.rename (r : String → String) (e : NamingError) : NamingError :=
  { e with fault := e.fault.rename r }

/-- Occurrences stand for the same under the new spellings. -/
def Naming.rename (r : String → String) (n : Naming) : Naming where
  bindings := n.bindings
  declarations := n.declarations.map fun _ e => e.rename r
  errors := n.errors.map (NamingError.rename r)

def Scope.rename (r : String → String) (scope : Scope) : Scope := scope.map fun q => (r q.1, q.2)

def Scopes.rename (r : String → String) (ss : Scopes) : Scopes :=
  ⟨ss.inner.map (Scope.rename r), ss.root.rename r⟩

def NamingState.rename (r : String → String) (s : NamingState) : NamingState :=
  ⟨s.scopes.rename r, s.found.rename r⟩

/-! ## Scopes -/

variable {r : String → String}

theorem Scope.lookup_rename (hr : Function.Injective r) (scope : Scope) (name : String) :
    (scope.rename r).lookup (r name) = scope.lookup name := by
  unfold Scope.rename
  induction scope with
  | nil => rfl
  | cons q scope ih =>
    rw [List.map_cons, List.lookup_cons, List.lookup_cons, ih]
    by_cases h : name = q.1
    · rw [h, BEq.rfl, BEq.rfl]
    · rw [beq_eq_false_iff_ne.2 h, beq_eq_false_iff_ne.2 (hr.ne h)]

namespace Scopes

theorem find?_rename (hr : Function.Injective r) (ss : Scopes) (name : String) :
    (ss.rename r).find? (r name) = ss.find? name := by
  have hlist : (ss.rename r).toList = ss.toList.map (Scope.rename r) := by
    rw [toList, toList, List.map_append]
    rfl
  rw [find?, find?, hlist, List.findSome?_map]
  congr 1
  funext scope
  exact scope.lookup_rename hr name

theorem innermost_rename (ss : Scopes) : (ss.rename r).innermost = ss.innermost.rename r := by
  obtain ⟨_ | ⟨scope, outer⟩, root⟩ := ss <;> rfl

theorem insert_rename (ss : Scopes) (name : String) (b : Binding) :
    (ss.rename r).insert (r name) b = (ss.insert name b).rename r := by
  obtain ⟨_ | ⟨scope, outer⟩, root⟩ := ss <;> rfl

/-- A name is refused under its new spelling where it is under the old one. -/
theorem insertNew_rename (hr : Function.Injective r) (ss : Scopes) (name : String) (b : Binding) :
    (ss.rename r).insertNew (r name) b = (ss.insertNew name b).map (rename r) := by
  rw [insertNew, insertNew, innermost_rename, Scope.lookup_rename hr]
  cases ss.innermost.lookup name with
  | none => exact congrArg Except.ok (insert_rename ss name b)
  | some existing => rfl

theorem standard_rename (hb : ∀ b ∈ Builtin.all, r b.name = b.name) :
    standard.rename r = standard := by
  have hroot : standard.root.rename r = standard.root := by
    have hentry : ∀ b ∈ Builtin.all.reverse, (r b.name, Binding.builtin b) = (b.name, .builtin b) :=
      fun b hmem => by rw [hb b (List.mem_reverse.1 hmem)]
    exact (List.map_map ..).trans (List.map_congr_left hentry)
  exact congrArg (Scopes.mk []) hroot

end Scopes

/-! ## What is found -/

theorem Naming.empty_rename : empty.rename r = empty := by
  have h : (empty.declarations.map fun _ e => DeclEntry.rename r e) = empty.declarations :=
    Std.ExtTreeMap.ext_getElem? fun i => by simp [empty]
  rw [rename, h]
  rfl

theorem NodeMap.map_insert {α β : Type} (f : NodeId → α → β) (m : NodeMap α) (i : NodeId) (v : α) :
    (m.insert i v).map f = (m.map f).insert i (f i v) := by
  refine Std.ExtTreeMap.ext_getElem? fun j => ?_
  rw [Std.ExtTreeMap.getElem?_map, Std.ExtTreeMap.getElem?_insert, Std.ExtTreeMap.getElem?_insert,
    Std.ExtTreeMap.getElem?_map]
  by_cases h : compare i j = .eq
  · obtain rfl := Std.LawfulEqCmp.eq_of_compare h
    rw [if_pos h, if_pos h, Option.map_some]
  · rw [if_neg h, if_neg h]

namespace NamingState

theorem fail_rename (fault : NamingFault) (span : Span) (s : NamingState) :
    (s.rename r).fail (fault.rename r) span = (s.fail fault span).rename r := by
  have herrors : (s.rename r).found.errors ++ [NamingError.mk (fault.rename r) span] =
      (s.found.errors ++ [NamingError.mk fault span]).map (NamingError.rename r) := by
    rw [List.map_append]
    rfl
  rw [fail, herrors]
  rfl

theorem lookUp_rename (hr : Function.Injective r) (o : Occurrence) (s : NamingState) :
    (s.rename r).lookUp ((Relabel.respell r).occurrence o) = (s.lookUp o).rename r := by
  have hfind : (s.rename r).scopes.find? (r o.spelling) = s.scopes.find? o.spelling :=
    Scopes.find?_rename hr s.scopes o.spelling
  rw [lookUp, lookUp, Relabel.respell, hfind]
  cases s.scopes.find? o.spelling with
  | none => exact fail_rename (.undeclared o.spelling) o.span s
  | some b => rfl

theorem spanOf?_rename (s : NamingState) (b : Binding) :
    (s.rename r).spanOf? b = s.spanOf? b := by
  cases b with
  | builtin entry => rfl
  | declared i =>
    have hentry : (s.rename r).found.declarations[i]? =
        s.found.declarations[i]?.map (DeclEntry.rename r) := Std.ExtTreeMap.getElem?_map
    rw [spanOf?, spanOf?, hentry, Option.map_map]
    rfl

theorem declare_rename (hr : Function.Injective r)
    {rightSide rightSide' : NamingState → NamingState}
    (h : ∀ s, rightSide' (s.rename r) = (rightSide s).rename r) (id : NodeId) (span : Span)
    (name : Occurrence) (type : Option String) (s : NamingState) :
    (s.rename r).declare id span ((Relabel.respell r).occurrence name) (type.map r) rightSide' =
      (s.declare id span name type rightSide).rename r := by
  have hinsert : (s.rename r).scopes.insertNew (r name.spelling) (.declared id) =
      (s.scopes.insertNew name.spelling (.declared id)).map (Scopes.rename r) :=
    Scopes.insertNew_rename hr s.scopes name.spelling (.declared id)
  rw [declare, declare, Relabel.respell, hinsert]
  cases s.scopes.insertNew name.spelling (.declared id) with
  | error existing =>
    dsimp only [Except.map]
    rw [spanOf?_rename]
    exact fail_rename (.alreadyDeclared name.spelling (s.spanOf? existing)) name.span s
  | ok scopes =>
    dsimp only [Except.map]
    have hdepth : (scopes.rename r).depth = scopes.depth := List.length_map ..
    have htable : (s.found.declarations.map fun _ e => DeclEntry.rename r e).insert id
          ⟨r name.spelling, type.map r, span, scopes.depth⟩ =
        (s.found.declarations.insert id ⟨name.spelling, type, span, scopes.depth⟩).map
          fun _ e => DeclEntry.rename r e :=
      (NodeMap.map_insert (fun _ e => DeclEntry.rename r e) s.found.declarations id
        ⟨name.spelling, type, span, scopes.depth⟩).symm
    rw [← h, hdepth]
    exact congrArg (fun ds => rightSide' ⟨scopes.rename r, ⟨_, ds, _⟩⟩) htable

theorem inScope_rename {part part' : NamingState → NamingState}
    (h : ∀ s, part' (s.rename r) = (part s).rename r) (s : NamingState) :
    (s.rename r).inScope part' = (s.inScope part).rename r := by
  have hinside : part' { s.rename r with scopes := (s.rename r).scopes.push } =
      (part { s with scopes := s.scopes.push }).rename r := h { s with scopes := s.scopes.push }
  have hpop (ss : Scopes) : (ss.rename r).pop = ss.pop.rename r := by
    obtain ⟨_ | ⟨scope, outer⟩, root⟩ := ss <;> rfl
  rw [inScope, hinside]
  exact congrArg (NamingState.mk · _) (hpop _)

/-- At each node the same is found under the new spellings. -/
theorem relabels_rename (hr : Function.Injective r) :
    Relabels (.respell r) fun s s' => s' = s.rename r where
  lookUp o h := by
    subst h
    exact lookUp_rename hr o _
  malformed family span h := by
    subst h
    exact fail_rename (.malformed family) span _
  inScope h hpart := by
    subst h
    exact inScope_rename (fun s => hpart s _ rfl) _
  declare id span name type h hright := by
    subst h
    have htype : (type.map (Relabel.respell r).occurrence).map Occurrence.spelling =
        (type.map Occurrence.spelling).map r := by cases type <;> rfl
    rw [htype]
    exact declare_rename hr (fun s => hright s _ rfl) id span name _ _

end NamingState

/-- Where a program is spelled anew, with different names kept apart and the predeclared ones kept
as they are, its occurrences stand for what they stood for, and its declarations and errors are the
same under the new names, errors in the same order. -/
theorem Naming.ofProgram_rename (hr : Function.Injective r)
    (hb : ∀ b ∈ Builtin.all, r b.name = b.name) (p : Program) :
    ofProgram (p.rename r) = (ofProgram p).rename r := by
  have hinitial : NamingState.initial.rename r = .initial := by
    rw [NamingState.rename, NamingState.initial, Scopes.standard_rename hb, empty_rename]
  have hnames := p.command.findNames_relabel (NamingState.relabels_rename hr) hinitial.symm
  exact congrArg NamingState.found hnames

/-- `n` and `y` change places: it is `y` that is declared twice, and the right-hand side of its
first declaration is still bound to that. -/
theorem Naming.ofProgram_rename_swapped :
    let r := Equiv.swap "n" "y"
    Function.Injective r ∧ (∀ b ∈ Builtin.all, r b.name = b.name) ∧
      (ofProgram (Program.declaredTwice.rename r)).bindings[(3 : NodeId)]? = some (.declared 1) ∧
      (ofProgram (Program.declaredTwice.rename r)).declarations[(1 : NodeId)]? =
        some ⟨"y", none, ⟨4, 15⟩, 1⟩ ∧
      (ofProgram (Program.declaredTwice.rename r)).errors =
        [⟨.alreadyDeclared "y" (some ⟨4, 15⟩), ⟨23, 24⟩⟩, ⟨.undeclared "z", ⟨43, 44⟩⟩] := by
  intro r
  have hr : Function.Injective r := r.injective
  have hb : ∀ b ∈ Builtin.all, r b.name = b.name := by decide
  rw [ofProgram_rename hr hb]
  exact ⟨hr, hb, by decide +kernel, by decide +kernel, by decide +kernel⟩

end TriLang
