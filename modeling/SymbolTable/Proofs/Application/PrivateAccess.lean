import SymbolTable.Application.Visibility
import SymbolTable.Proofs.Analysis.Session
import SymbolTable.Proofs.Tree.Enclosure
import SymbolTable.Proofs.Tree.Segments

/-!
# Private access

Whether a private component or a type parameter may be named from a place is decided by the
outermost type declarations around the two. Both have to exist. They are compared by their
coordinates, so two types that are not the same component are taken for one when their coordinates
are spelled alike: types of different kinds under one name, or types whose values hold the
delimiter.
-/

namespace SymbolTable

namespace Application

variable {app : Application} {origin : Origin} {c v : NodeId}

theorem topLevelType_eq (h : (app.tree origin).Climbable c) :
    app.topLevelType ⟨origin, c⟩ =
      match ((app.tree origin).enclosingTypes c).getLast? with
      | some own => .ok ⟨origin, own⟩
      | none => .error (.notInside (app.get ⟨origin, c⟩)) := by
  cases hlast : ((app.tree origin).enclosingTypes c).getLast? with
  | none => simp only [topLevelType, h.outermost_eq, hlast]
  | some own => simp only [topLevelType, h.outermost_eq, hlast]

/-- A component whose access only the outermost types decide: private or a type parameter, without a
modifier that opens it. -/
structure IsGuarded (c : Component) : Prop where
  not_package : c.kind ≠ .package
  not_public : c.hasModifier publicWord = false
  not_protected : c.hasModifier protectedWord = false
  guarded : c.hasModifier privateWord = true ∨ c.kind = .typeParameter

/-- The outermost type of the component is asked for first. -/
theorem isVisible_of_isGuarded (h : IsGuarded (app.get ⟨origin, c⟩))
    (hc : (app.tree origin).Climbable c) (hv : (app.tree origin).Climbable v) (inheriting : Bool) :
    app.isVisible ⟨origin, c⟩ ⟨origin, v⟩ inheriting =
      match ((app.tree origin).enclosingTypes c).getLast?,
        ((app.tree origin).enclosingTypes v).getLast? with
      | none, _ => .error (.notInside (app.get ⟨origin, c⟩))
      | some _, none => .error (.notInside (app.get ⟨origin, v⟩))
      | some own, some other =>
        .ok (app.coordinate ⟨origin, own⟩ = app.coordinate ⟨origin, other⟩) := by
  have hopen : ¬ ((app.get ⟨origin, c⟩).kind = .package ∨
      (app.get ⟨origin, c⟩).hasModifier publicWord = true) :=
    not_or.2 ⟨h.not_package, Bool.eq_false_iff.1 h.not_public⟩
  rw [isVisible, if_neg hopen, if_neg (Bool.eq_false_iff.1 h.not_protected), if_pos h.guarded,
    topLevelType_eq hc, topLevelType_eq hv]
  cases ((app.tree origin).enclosingTypes c).getLast? with
  | none => rfl
  | some own => cases ((app.tree origin).enclosingTypes v).getLast? <;> rfl

/-- With the way up ending inside the tree for both, as it does for all that is attached to a
consistent tree, the check is an error exactly when no type is around one of them. Otherwise it
tells whether the outermost types around them have one coordinate, whatever is inherited. That is so
when they are the same component; it is so for two components when their coordinates are spelled
alike, for which the values from the root down have to be the same unless one of them holds the
delimiter. -/
theorem isVisible_guarded (app : Application) (origin : Origin) (c v : NodeId)
    (h : IsGuarded (app.get ⟨origin, c⟩)) (hc : (app.tree origin).Climbable c)
    (hv : (app.tree origin).Climbable v) (inheriting : Bool) :
    ((∃ e, app.isVisible ⟨origin, c⟩ ⟨origin, v⟩ inheriting = .error e) ↔
      (app.tree origin).enclosingTypes c = [] ∨ (app.tree origin).enclosingTypes v = []) ∧
    ∀ own other, ((app.tree origin).enclosingTypes c).getLast? = some own →
      ((app.tree origin).enclosingTypes v).getLast? = some other →
      app.isVisible ⟨origin, c⟩ ⟨origin, v⟩ inheriting =
        .ok (app.coordinate ⟨origin, own⟩ = app.coordinate ⟨origin, other⟩) ∧
      (own = other → app.isVisible ⟨origin, c⟩ ⟨origin, v⟩ inheriting = .ok true) ∧
      (app.naming.delimiter ≠ "" →
        (∀ value ∈ (app.tree origin).pathValues own ++ (app.tree origin).pathValues other,
          Absent app.naming.delimiter value) →
        (app.isVisible ⟨origin, c⟩ ⟨origin, v⟩ inheriting = .ok true ↔
          (app.tree origin).pathValues own = (app.tree origin).pathValues other)) := by
  have hvisible := isVisible_of_isGuarded h hc hv inheriting
  constructor
  · rw [hvisible, ← List.getLast?_eq_none_iff, ← List.getLast?_eq_none_iff]
    cases ((app.tree origin).enclosingTypes c).getLast? <;>
      cases ((app.tree origin).enclosingTypes v).getLast? <;> simp
  · intro own other hown hother
    have hvisible : app.isVisible ⟨origin, c⟩ ⟨origin, v⟩ inheriting =
        .ok (app.coordinate ⟨origin, own⟩ = app.coordinate ⟨origin, other⟩) := by
      rw [hvisible, hown, hother]
    refine ⟨hvisible, fun hsame => ?_, fun hne habsent => ?_⟩
    · rw [hvisible, hsame, decide_eq_true rfl]
    · have hown' := Tree.pathValues_ne_nil (List.mem_of_getLast? hown)
      have hother' := Tree.pathValues_ne_nil (List.mem_of_getLast? hother)
      rw [hvisible, Except.ok.injEq, decide_eq_true_eq]
      exact Tree.coordinate_eq_iff hne hown' hother' habsent

/-! A class and an interface of one name -/

def privateClassUnit : CompilationUnit where
  sourceName := "A.java"
  package := some ⟨["p"], default⟩
  imports := []
  types := [.mk ⟨.classType, "A", [], [], none, [], false, default⟩
    [.field ⟨["x"], ["private"], "int", false, default⟩]]

def sameNameUnit : CompilationUnit where
  sourceName := "A.java"
  package := some ⟨["p"], default⟩
  imports := []
  types := [.mk ⟨.interfaceType, "A", [], [], none, [], false, default⟩
    [.method (.mk ⟨"m", [], [], [], some "void", default⟩ [])]]

def sameNameApplication : Application := (analyze {} [] [privateClassUnit, sameNameUnit]).1

theorem isGuarded_privateField : IsGuarded (sameNameApplication.get (.program 3)) :=
  ⟨by decide +kernel, by decide +kernel, by decide +kernel, .inl (by decide +kernel)⟩

/-- The field `x` of the class `A` and the method `m` of the interface `A`: both outermost types
have the values `p` and `A`. -/
theorem isVisible_guarded_sameName :
    IsGuarded (sameNameApplication.get (.program 3)) ∧
      sameNameApplication.components.Climbable 3 ∧ sameNameApplication.components.Climbable 6 ∧
      (sameNameApplication.isVisible (.program 3) (.program 6) false = .ok true ↔
        sameNameApplication.components.pathValues 2 =
          sameNameApplication.components.pathValues 5) := by
  have hconsistent : sameNameApplication.components.isConsistent = true := by decide +kernel
  have hgrown : sameNameApplication.components.Grown := grown_analyze {} [] _
  have hfield : sameNameApplication.components.Climbable 3 :=
    Tree.climbable_of_attached hconsistent (hgrown.attached_of_lt (by decide +kernel))
  have hmethod : sameNameApplication.components.Climbable 6 :=
    Tree.climbable_of_attached hconsistent (hgrown.attached_of_lt (by decide +kernel))
  have hvisible := (isVisible_guarded sameNameApplication .program 3 6 isGuarded_privateField hfield
    hmethod false).2 2 5 (by decide +kernel) (by decide +kernel)
  exact ⟨isGuarded_privateField, hfield, hmethod,
    hvisible.2.2 (by decide +kernel) (by decide +kernel)⟩

/-- The interface is not the class, and still its method may name the private field of the class. -/
theorem private_field_open_to_namesake :
    sameNameApplication.components.isConsistent = true ∧
      sameNameApplication.components.HasUniqueSiblings ∧
      IsGuarded (sameNameApplication.get (.program 3)) ∧
      (sameNameApplication.components.enclosingTypes 3).getLast? = some 2 ∧
      (sameNameApplication.components.enclosingTypes 6).getLast? = some 5 ∧
      sameNameApplication.isVisible (.program 3) (.program 6) false = .ok true := by
  refine ⟨by decide +kernel, ?_, isGuarded_privateField, by decide +kernel,
    by decide +kernel, by decide +kernel⟩
  exact Tree.Grown.uniqueSiblings (grown_analyze {} [] [privateClassUnit, sameNameUnit])

end Application

end SymbolTable
