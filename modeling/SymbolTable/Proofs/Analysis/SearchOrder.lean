import SymbolTable.Proofs.Analysis.CursorPath
import SymbolTable.Proofs.Analysis.Edges

/-!
# The order of the search

What a file sees is one list, searched from its head: the components that single imports name, then
what lies below the implicit packages and the roots, below the declared package, below the imports
on demand, and last below the default package. A top-level type is related to other types when the
types before it in the file are declared and those after it are not.
-/

namespace SymbolTable

open SymbolTable.Tree (root)

theorem find?_unite {α : Type} [DecidableEq α] (p : α → Bool) (known added : List α) :
    (unite known added).find? p = (known ++ added).find? p := by
  induction added generalizing known with
  | nil => rw [unite_nil, List.append_nil]
  | cons a added ih =>
    rw [unite_cons, ih, List.append_cons, List.find?_append, List.find?_append]
    congr 1
    by_cases ha : a ∈ known
    · rw [addAbsent_of_mem ha, List.find?_append]
      cases hfound : known.find? p with
      | some b => rfl
      | none => simp [List.find?_eq_none.1 hfound a ha]
    · rw [addAbsent, if_neg ha]

/-! ## What a file is searched for -/

/-- The first type declaration of the name. -/
def Application.firstType (app : Application) (rs : List ComponentRef) (name : String) :
    Option ComponentRef :=
  rs.find? fun r => (app.get r).value = name && (app.get r).kind.isTypeDeclaration

theorem Application.isType_of_firstType {app : Application} {rs : List ComponentRef} {name : String}
    {r : ComponentRef} (h : app.firstType rs name = some r) : r ∈ rs ∧ app.IsType r name := by
  have hfits := List.find?_some h
  rw [Bool.and_eq_true, decide_eq_true_eq] at hfits
  exact ⟨List.mem_of_find?_eq_some h, hfits⟩

theorem Application.firstType_append (app : Application) (rs rs' : List ComponentRef)
    (name : String) :
    app.firstType (rs ++ rs') name = (app.firstType rs name).or (app.firstType rs' name) :=
  List.find?_append ..

namespace CompilationUnit

variable (app : Application) (u : CompilationUnit)

/-- All that a file sees, in the order in which it is searched. -/
def searched : List ComponentRef :=
  (u.named app.naming).filterMap app.find ++
    (app.alwaysOpen ++ (u.opened app.naming).filterMap app.find).flatMap app.children

/-- What a file is searched for before the package that it belongs to. -/
def searchedFirst : List ComponentRef :=
  (u.named app.naming).filterMap app.find ++
    (app.alwaysOpen ++ if u.package = none then
      ((u.imports.filter (·.onDemand)).map fun i => app.naming.coordinateOf i.path).filterMap
        app.find
      else []).flatMap app.children

/-- The coordinate that leads from the package of the file along the names. -/
def coordinate (naming : Naming) (u : CompilationUnit) (names : List String) : String :=
  naming.delimiter.intercalate ((u.packagePath naming).map Symbol.value ++ names)

/-- The package of the file is opened after the first part of the search, before what is left. -/
theorem exists_searched_eq (ht : u.types ≠ []) {r : ComponentRef}
    (hr : app.find (u.coordinate app.naming []) = some r) :
    ∃ rest, u.searched app = u.searchedFirst app ++ (app.children r ++ rest) := by
  cases hp : u.package with
  | some p =>
    have hcoordinate : app.find (app.naming.delimiter.intercalate p.segments) = some r := by
      rw [← hr, coordinate, packagePath, hp, List.append_nil, List.map_map]
      exact congrArg (fun l => app.find (app.naming.delimiter.intercalate l)) (List.map_id _).symm
    refine ⟨(((u.imports.filter (·.onDemand)).map fun i =>
      app.naming.coordinateOf i.path).filterMap app.find).flatMap app.children, ?_⟩
    simp [searched, searchedFirst, opened, implied, hp, hcoordinate]
  | none =>
    have hcoordinate : app.find app.naming.defaultPackage = some r := by
      rw [← hr, coordinate, packagePath, hp]
      rfl
    refine ⟨[], ?_⟩
    simp [searched, searchedFirst, opened, implied, hp, ht, hcoordinate]

end CompilationUnit

namespace Scope

theorem findVisible_eq (s : Scope) (app : Application) (name : String)
    (accept : Component → Bool) :
    s.findVisible app name accept = (s.visible ++ s.containers.flatMap app.children).find?
      fun r => (app.get r).value = name && accept (app.get r) := by
  unfold findVisible
  rw [List.find?_append, List.find?_flatMap]
  cases hfound : s.visible.find? fun r => (app.get r).value = name && accept (app.get r) with
  | some r => simp only [hfound, Option.some_or]
  | none => simp only [hfound, Option.none_or]

/-- The scope sees what the file does after its heading. -/
structure Views (s : Scope) (app : Application) (u : CompilationUnit) : Prop where
  visible : s.visible = unite [] ((u.named app.naming).filterMap app.find)
  containers : s.containers = app.alwaysOpen ++ (u.opened app.naming).filterMap app.find

theorem Views.findVisible {s : Scope} {app : Application} {u : CompilationUnit}
    (h : s.Views app u) (name : String) :
    s.findVisible app name (·.kind.isTypeDeclaration) = app.firstType (u.searched app) name := by
  rw [findVisible_eq, h.visible, h.containers, Application.firstType, CompilationUnit.searched,
    List.find?_append, List.find?_append, find?_unite, List.nil_append]

theorem Views.of_sameView {s s' : Scope} {app : Application} {u : CompilationUnit}
    (h : s.Views app u) (hview : s.SameView s') : s'.Views app u :=
  ⟨hview.visible.trans h.visible, hview.containers.trans h.containers⟩

end Scope

end SymbolTable
