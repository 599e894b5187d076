import SymbolTable.Proofs.Analysis.Session

/-!
# What a type name selects

A name is searched among the members around a place, then among what the file sees, and a dotted
name last as a coordinate. The search among members asks for a named type, which an anonymous class
is not. The view of the file and the coordinate are asked for a type declaration only, so these two
are the ways in which a name can lead to an anonymous class.
-/

namespace SymbolTable

/-- Whether a type name may refer to components of the kind. -/
def ComponentKind.NamesType (kind : ComponentKind) : Prop :=
  kind.isTypeDeclaration = true ∨ kind = .typeParameter

namespace Component

/-- A type declaration with the mark of anonymous classes. -/
def IsAnonymous (c : Component) : Prop :=
  c.kind.isTypeDeclaration = true ∧ anonymousMark ∈ c.attributes

instance (c : Component) : Decidable c.IsAnonymous :=
  inferInstanceAs (Decidable (_ ∧ _))

/-- What a name may be resolved to by the search among members. -/
def IsMember (c : Component) (name : String) : Prop :=
  c.isNamedType name = true ∨ c.isTypeParameter name = true

variable {c : Component} {name : String}

theorem value_of_isNamedType (h : c.isNamedType name = true) : c.value = name := by
  rw [isNamedType, Bool.and_eq_true, Bool.and_eq_true, decide_eq_true_eq] at h
  exact h.1.1

theorem isTypeDeclaration_of_isNamedType (h : c.isNamedType name = true) :
    c.kind.isTypeDeclaration = true := by
  rw [isNamedType, Bool.and_eq_true, Bool.and_eq_true] at h
  exact h.1.2

theorem kind_of_isTypeParameter (h : c.isTypeParameter name = true) : c.kind = .typeParameter := by
  rw [isTypeParameter, Bool.and_eq_true, decide_eq_true_eq] at h
  exact h.1

theorem not_isAnonymous_of_isNamedType (h : c.isNamedType name = true) : ¬ c.IsAnonymous := by
  rintro ⟨-, hmark⟩
  rw [isNamedType, Bool.and_eq_true, Bool.not_eq_true', ← Bool.not_eq_true, hasAttribute_iff] at h
  exact h.2 hmark

theorem not_isAnonymous_of_isTypeParameter (h : c.isTypeParameter name = true) :
    ¬ c.IsAnonymous := by
  rintro ⟨htype, -⟩
  rw [kind_of_isTypeParameter h] at htype
  cases htype

namespace IsMember

theorem not_isAnonymous (h : c.IsMember name) : ¬ c.IsAnonymous :=
  h.elim not_isAnonymous_of_isNamedType not_isAnonymous_of_isTypeParameter

theorem namesType (h : c.IsMember name) : c.kind.NamesType :=
  h.imp isTypeDeclaration_of_isNamedType kind_of_isTypeParameter

end IsMember

end Component

namespace Scope

/-- The component that was resolved to. -/
def component (s : Scope) (app : Application) : Resolved → Component
  | .inFile id => s.tree.node id
  | .known r => app.get r

/-- What a type written in a declaration is resolved to, before it is described. -/
def selectType (s : Scope) (app : Application) (place : NodeId) (text : String) :
    Option Resolved :=
  let name := TypeText.erase text
  match TypeText.segments name with
  | [] => none
  | first :: rest =>
    match s.resolveChain app place first rest with
    | some found => some found
    | none => if rest.isEmpty then none else (resolveQualified app name).map .known

variable (s : Scope) (app : Application) (place : NodeId)

theorem resolveType_eq (text : String) :
    s.resolveType app place text = (s.selectType app place text).map (s.describe app) := by
  unfold resolveType selectType
  simp only
  generalize TypeText.segments (TypeText.erase text) = segments
  cases segments with
  | nil => simp only [Option.map_none]
  | cons first rest =>
    simp only
    cases s.resolveChain app place first rest with
    | some found => rfl
    | none =>
      simp only
      split
      · rfl
      · rw [Option.map_map]
        rfl

variable {s app place} {name : String} {found : Resolved}

/-! ## The search among members -/

theorem accept_fileMember {id : NodeId} {accept : Component → Bool}
    (h : s.fileMember id accept = some found) : accept (s.component app found) = true := by
  obtain ⟨c, hc, rfl⟩ := Option.map_eq_some_iff.1 h
  have haccept := List.find?_some hc
  exact haccept

theorem accept_programMember {id : NodeId} {accept : Component → Bool}
    (h : s.programMember app id accept = some found) :
    accept (s.component app found) = true := by
  unfold programMember at h
  split at h
  · cases h
  · obtain ⟨r, hr, rfl⟩ := Option.map_eq_some_iff.1 h
    have haccept := List.find?_some hr
    exact haccept

theorem isMember_resolveEnclosing {fuel : Nat}
    (h : s.resolveEnclosing app name fuel place = some found) :
    (s.component app found).IsMember name := by
  have hmember : ∀ {c : Component}, (c.isNamedType name || c.isTypeParameter name) = true →
      c.IsMember name := fun h => (Bool.or_eq_true _ _).mp h
  induction fuel generalizing place with
  | zero => cases h
  | succ fuel ih =>
    simp only [resolveEnclosing] at h
    split at h
    · cases h
    · exact .inl (accept_fileMember h)
    · split at h
      · next hfile =>
        obtain rfl := Option.some.inj h
        exact hmember (accept_fileMember hfile)
      · split at h
        · next hprogram =>
          obtain rfl := Option.some.inj h
          exact hmember (accept_programMember hprogram)
        · split at h
          · next hself =>
            obtain rfl := Option.some.inj h
            exact .inl hself
          · split at h
            · exact ih h
            · cases h

theorem isNamedType_memberType {scope : Resolved}
    (h : s.memberType app scope name = some found) :
    (s.component app found).isNamedType name = true := by
  unfold memberType at h
  split at h
  · split at h
    · next hfile =>
      obtain rfl := Option.some.inj h
      exact accept_fileMember hfile
    · exact accept_programMember h
  · obtain ⟨r, hr, rfl⟩ := Option.map_eq_some_iff.1 h
    have haccept := List.find?_some hr
    exact haccept

/-- The last member of a dotted name is a named type, wherever the name starts. -/
theorem isNamedType_members {rest : List String} (hrest : rest ≠ []) {start : Resolved}
    (h : rest.foldlM (fun scope segment => s.memberType app scope segment) start = some found) :
    ∃ name, (s.component app found).isNamedType name = true := by
  induction rest generalizing start with
  | nil => exact absurd rfl hrest
  | cons segment rest ih =>
    rw [List.foldlM_cons] at h
    obtain ⟨next, hnext, h⟩ := Option.bind_eq_some_iff.1 h
    by_cases hlast : rest = []
    · rw [hlast, List.foldlM_nil] at h
      obtain rfl := Option.some.inj h
      exact ⟨segment, isNamedType_memberType hnext⟩
    · exact ih hlast h

/-! ## The view and the coordinate -/

theorem accept_findVisible {accept : Component → Bool} {r : ComponentRef}
    (h : s.findVisible app name accept = some r) :
    (app.get r).value = name ∧ accept (app.get r) = true := by
  have hfits : ((app.get r).value = name && accept (app.get r)) = true := by
    unfold findVisible at h
    simp only at h
    split at h
    · next hvisible =>
      obtain rfl := Option.some.inj h
      have hfits := List.find?_some hvisible
      exact hfits
    · obtain ⟨container, -, hchild⟩ := List.exists_of_findSome?_eq_some h
      have hfits := List.find?_some hchild
      exact hfits
  rwa [Bool.and_eq_true, decide_eq_true_eq] at hfits

variable (s app place)

/-- A simple name that is no member around `place` leads to `r`, which the file sees. -/
def SelectsByView (text : String) (r : ComponentRef) : Prop :=
  ∃ name, TypeText.segments (TypeText.erase text) = [name] ∧
    s.resolveEnclosing app name s.tree.size place = none ∧
    s.findVisible app name (·.kind.isTypeDeclaration) = some r

/-- A dotted name that cannot be followed member by member is the coordinate of `r`. -/
def SelectsByCoordinate (text : String) (r : ComponentRef) : Prop :=
  ∃ first rest, TypeText.segments (TypeText.erase text) = first :: rest ∧ rest ≠ [] ∧
    s.resolveChain app place first rest = none ∧
    resolveQualified app (TypeText.erase text) = some r

variable {s app place} {text : String} {r : ComponentRef}

theorem isTypeDeclaration_resolveQualified (h : resolveQualified app name = some r) :
    (app.get r).kind.isTypeDeclaration = true := by
  unfold resolveQualified at h
  exact (Option.filter_eq_some_iff.1 h).2

theorem SelectsByView.isTypeDeclaration (h : s.SelectsByView app place text r) :
    (app.get r).kind.isTypeDeclaration = true := by
  obtain ⟨name, -, -, hvisible⟩ := h
  exact (accept_findVisible hvisible).2

theorem SelectsByCoordinate.isTypeDeclaration (h : s.SelectsByCoordinate app place text r) :
    (app.get r).kind.isTypeDeclaration = true := by
  obtain ⟨first, rest, -, -, -, hqualified⟩ := h
  exact isTypeDeclaration_resolveQualified hqualified

theorem SelectsByView.selectType (h : s.SelectsByView app place text r) :
    s.selectType app place text = some (.known r) := by
  obtain ⟨name, hsegments, henclosing, hvisible⟩ := h
  have hsimple : s.resolveSimple app place name = some (.known r) := by
    rw [resolveSimple, henclosing, hvisible]
    rfl
  have hchain : s.resolveChain app place name [] = some (.known r) := by
    rw [resolveChain, hsimple]
    rfl
  simp only [Scope.selectType, hsegments, hchain]

theorem SelectsByCoordinate.selectType (h : s.SelectsByCoordinate app place text r) :
    s.selectType app place text = some (.known r) := by
  obtain ⟨first, rest, hsegments, hrest, hchain, hqualified⟩ := h
  have hempty : ¬ rest.isEmpty = true := fun h => hrest (List.isEmpty_iff.1 h)
  simp only [Scope.selectType, hsegments, hchain, if_neg hempty, hqualified, Option.map_some]

/-! ## Selection -/

theorem resolveChain_cases {first : String} {rest : List String}
    (h : s.resolveChain app place first rest = some found) :
    (∃ name, (s.component app found).IsMember name) ∨
      rest = [] ∧ s.resolveEnclosing app first s.tree.size place = none ∧
        ∃ r, found = .known r ∧ s.findVisible app first (·.kind.isTypeDeclaration) = some r := by
  obtain ⟨start, hstart, hmembers⟩ := Option.bind_eq_some_iff.1 h
  by_cases hrest : rest = []
  · rw [hrest, List.foldlM_nil] at hmembers
    obtain rfl := Option.some.inj hmembers
    unfold resolveSimple at hstart
    split at hstart
    · next henclosing =>
      obtain rfl := Option.some.inj hstart
      exact .inl ⟨first, isMember_resolveEnclosing henclosing⟩
    · next henclosing =>
      obtain ⟨r, hr, hknown⟩ := Option.map_eq_some_iff.1 hstart
      exact .inr ⟨hrest, henclosing, r, hknown.symm, hr⟩
  · obtain ⟨name, hname⟩ := isNamedType_members hrest hmembers
    exact .inl ⟨name, .inl hname⟩

/-- What is selected is a member, or comes from the view of the file or from a coordinate. -/
theorem selectType_cases (h : s.selectType app place text = some found) :
    (∃ name, (s.component app found).IsMember name) ∨
      ∃ r, found = .known r ∧
        (s.SelectsByView app place text r ∨ s.SelectsByCoordinate app place text r) := by
  unfold selectType at h
  simp only at h
  split at h
  · cases h
  · next first rest hsegments =>
    split at h
    · next hchain =>
      obtain rfl := Option.some.inj h
      rcases resolveChain_cases hchain with hmember | ⟨rfl, henclosing, r, hknown, hvisible⟩
      · exact .inl hmember
      · exact .inr ⟨r, hknown, .inl ⟨first, hsegments, henclosing, hvisible⟩⟩
    · next hchain =>
      split at h
      · cases h
      · next hrest =>
        obtain ⟨r, hqualified, hknown⟩ := Option.map_eq_some_iff.1 h
        have hne : rest ≠ [] := fun h => hrest (List.isEmpty_iff.2 h)
        exact .inr ⟨r, hknown.symm, .inr ⟨first, rest, hsegments, hne, hchain, hqualified⟩⟩

theorem namesType_selectType (h : s.selectType app place text = some found) :
    (s.component app found).kind.NamesType := by
  rcases selectType_cases h with ⟨name, hmember⟩ | ⟨r, rfl, hview | hcoordinate⟩
  · exact hmember.namesType
  · exact .inl hview.isTypeDeclaration
  · exact .inl hcoordinate.isTypeDeclaration

variable (s app place text)

/-- Resolution describes what it selects, and it selects an anonymous class just when the view of
the file or a coordinate leads there: the search among members never does. -/
theorem selectType_isAnonymous_iff :
    s.resolveType app place text = (s.selectType app place text).map (s.describe app) ∧
      ∀ found,
        (s.selectType app place text = some found ∧ (s.component app found).IsAnonymous) ↔
          ∃ r, found = .known r ∧ (app.get r).IsAnonymous ∧
            (s.SelectsByView app place text r ∨ s.SelectsByCoordinate app place text r) := by
  refine ⟨s.resolveType_eq app place text, fun found => ⟨?_, ?_⟩⟩
  · rintro ⟨hselect, hanonymous⟩
    rcases selectType_cases hselect with ⟨name, hmember⟩ | ⟨r, rfl, hroute⟩
    · exact absurd hanonymous hmember.not_isAnonymous
    · exact ⟨r, rfl, hanonymous, hroute⟩
  · rintro ⟨r, rfl, hanonymous, hview | hcoordinate⟩
    · exact ⟨hview.selectType, hanonymous⟩
    · exact ⟨hcoordinate.selectType, hanonymous⟩

end Scope

/-! ## A name that leads to an anonymous class -/

/-- A class with an anonymous `Thread` in a field initializer. -/
def anonymousThreadUnit : CompilationUnit where
  sourceName := "T.java"
  package := some ⟨["p"], default⟩
  imports := []
  types := [.mk ⟨.classType, "T", ["public"], [], none, [], false, default⟩
    [.field ⟨["o"], [], "Object", false, default⟩,
      .type (.mk ⟨.classType, "Thread", [], [], none, [], true, default⟩ [])]]

/-- A class that extends `Thread` and sees the members of `T`. -/
def extendingUnit : CompilationUnit :=
  classUnit "q" "U" [⟨"p.T", true, true, default⟩] (some "Thread")

def anonymousThreadApplication : Application :=
  declaredApplication {} [] [anonymousThreadUnit, extendingUnit]

/-- The class `U` is taken to extend the anonymous class. -/
theorem selectType_anonymousThread :
    (anonymousThreadApplication.get (.program 4)).IsAnonymous ∧
      (({} : Scope).walk anonymousThreadApplication .structural extendingUnit).selectType
        anonymousThreadApplication 2 "Thread" = some (.known (.program 4)) ∧
      (analyze {} [] [anonymousThreadUnit, extendingUnit]).1.qualifiedName (.program 4) =
        "p.T$Thread" ∧
      (analyze {} [] [anonymousThreadUnit, extendingUnit]).1.components.identityPath 8 =
        [packageSymbol "q", ⟨.classType, "U", none⟩] ∧
      ⟨.extendsType, "p.T$Thread"⟩ ∈
        ((analyze {} [] [anonymousThreadUnit, extendingUnit]).1.components.node 8).attributes := by
  decide +kernel

end SymbolTable
