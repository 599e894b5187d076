import SymbolTable.Proofs.Analysis.Acts
import SymbolTable.Proofs.Analysis.Session
import SymbolTable.Proofs.Tree.Search

/-!
# The program's copy of a scope

While a unit is walked a second time, the program has a component at the path of every node of the
file. Resolution looks for it by coordinate, which keeps the values on the path but neither kinds
nor signatures: it is found unless another component comes first in pre-order with the same
coordinate.
-/

namespace SymbolTable

open SymbolTable.Tree (root)

namespace Scope

/-- The scope after the first `n` events of a unit. -/
def walkTo (s : Scope) (app : Application) (phase : Phase) (u : CompilationUnit) (n : Nat) :
    Scope :=
  (u.events.take n).foldl (step app phase) (s.fullReset.seed app)

variable (s : Scope) (app : Application) (phase : Phase) (u : CompilationUnit) (n : Nat)

theorem sound_walkTo : (s.walkTo app phase u n).Sound :=
  (acts_steps (sound_seed s app) _).sound (sound_seed s app)

/-- What the first events built is the beginning of what all of them build. -/
theorem growth_walkTo : (s.walkTo app phase u n).tree.Extends (s.walk app phase u).tree := by
  have hrest : s.walk app phase u =
      (u.events.drop n).foldl (step app phase) (s.walkTo app phase u n) := by
    rw [walkTo, ← List.foldl_append, List.take_append_drop]
    rfl
  rw [hrest]
  exact (acts_steps (s.sound_walkTo app phase u n) _).growth (s.sound_walkTo app phase u n)

end Scope

namespace Application

/-- No component before `k` in pre-order has the coordinate of `k`. -/
def IsFirst (app : Application) (k : NodeId) : Prop :=
  ∃ earlier later, app.components.preorder Tree.root = earlier ++ k :: later ∧
    ∀ j ∈ earlier, app.coordinate (.program j) ≠ app.coordinate (.program k)

variable {app : Application} (h : app.components.Grown)
include h

theorem findInProgram_eq (text : String) :
    app.findInProgram text =
      if text = "" then none
      else (app.components.preorder Tree.root).find? fun j =>
        app.coordinate (.program j) = text := h.locate_eq text _

theorem findInProgram_coordinate_iff {k : NodeId} :
    app.findInProgram (app.coordinate (.program k)) = some k ↔
      app.coordinate (.program k) ≠ "" ∧ app.IsFirst k := by
  rw [findInProgram_eq h, Option.ite_none_left_eq_some, List.find?_eq_some_iff_append]
  simp [IsFirst]

theorem coordinate_of_findInProgram {text : String} {j : NodeId}
    (hj : app.findInProgram text = some j) :
    j < app.components.size ∧ app.coordinate (.program j) = text := by
  refine ⟨h.locate_lt hj, ?_⟩
  rw [findInProgram_eq h, Option.ite_none_left_eq_some] at hj
  simpa using List.find?_some hj.2

theorem isSome_findInProgram {k : NodeId} (hpos : Tree.root < k) (hk : k < app.components.size)
    (hcoordinate : app.coordinate (.program k) ≠ "") :
    (app.findInProgram (app.coordinate (.program k))).isSome := by
  rw [findInProgram_eq h, if_neg hcoordinate, List.find?_isSome]
  exact ⟨k, h.mem_preorder hpos hk, decide_eq_true rfl⟩

end Application

/-! ## The copy of a node -/

/-- The component `k` is at the path of the node `id` of the file, and the search for the program's
copy of `id` finds it unless another component comes first. -/
structure Scope.FindsCopy (s : Scope) (app : Application) (id k : NodeId) : Prop where
  lt : k < app.components.size
  path : app.components.identityPath k = s.tree.identityPath id
  found_iff : s.programScope app id = some (.program k) ↔
    app.coordinate (.program k) ≠ "" ∧ app.IsFirst k
  found : app.coordinate (.program k) ≠ "" → (s.programScope app id).isSome
  sameCoordinate : ∀ r, s.programScope app id = some r →
    ∃ j < app.components.size, r = .program j ∧
      app.coordinate (.program j) = app.coordinate (.program k)

/-- Only the path of `k` matters. -/
theorem Scope.findsCopy_of_path {s : Scope} {app : Application} (hs : s.tree.Grown)
    (happ : app.components.Grown) {id k : NodeId} (hpos : root < id) (hid : id < s.tree.size)
    (hk : k < app.components.size)
    (hpath : app.components.identityPath k = s.tree.identityPath id) : s.FindsCopy app id k := by
  have hkpos : root < k := by
    refine Nat.pos_of_ne_zero fun hkroot => ?_
    have hnil : s.tree.identityPath id = [] := by
      rw [← hpath, hkroot]
      exact happ.identityPath_root
    have hself := hs.follow_identityPath hid
    rw [hnil] at hself
    exact Nat.ne_of_gt hpos (Option.some.inj hself).symm
  have hcoordinate : s.tree.coordinate id app.naming.delimiter = app.coordinate (.program k) := by
    rw [Tree.coordinate, Tree.pathValues_eq, ← hpath, ← Tree.pathValues_eq]
    rfl
  have hscope : s.programScope app id =
      (app.findInProgram (app.coordinate (.program k))).map .program := by
    rw [programScope, hcoordinate]
  refine ⟨hk, hpath, ?_, ?_, ?_⟩
  · rw [hscope, ← Application.findInProgram_coordinate_iff happ, Option.map_eq_some_iff]
    constructor
    · rintro ⟨j, hj, hjk⟩
      obtain rfl : j = k := congrArg ComponentRef.id hjk
      exact hj
    · exact fun hfound => ⟨k, hfound, rfl⟩
  · intro hne
    rw [hscope, Option.isSome_map]
    exact Application.isSome_findInProgram happ hkpos hk hne
  · intro r hr
    rw [hscope] at hr
    obtain ⟨j, hj, rfl⟩ := Option.map_eq_some_iff.1 hr
    obtain ⟨hlt, hsame⟩ := Application.coordinate_of_findInProgram happ hj
    exact ⟨j, hlt, rfl, hsame⟩

/-- While a unit is walked, the program has a component at the path of every node of the file. -/
theorem Application.Declares.exists_copy {app app' : Application} {units : List CompilationUnit}
    (h : app.Declares units) (he : app.Enriches app') {u : CompilationUnit} (hu : u ∈ units)
    (s : Scope) (phase : Phase) (n : Nat) {id : NodeId}
    (hid : id < (s.walkTo app' phase u n).tree.size) :
    ∃ k < app'.components.size,
      app'.components.identityPath k = (s.walkTo app' phase u n).tree.identityPath id := by
  have hgrown := h.grown.of_sameShape he.alike.sameShape
  have hw := (s.sound_walkTo app' phase u n).grown
  have hwalk := (s.growth_walkTo app' phase u n).follow hw hw.root_lt (hw.follow_identityPath hid)
  generalize (s.walkTo app' phase u n).tree.identityPath id = path at hwalk ⊢
  have hskeleton : ((u.skeleton app.naming).entry path).isSome := by
    rw [← he.naming, ← (u.alike_skeleton s app' phase).isSome_entry]
    exact Tree.isSome_entry_iff.2 ⟨id, hwalk⟩
  have hsome : (app'.components.entry path).isSome := by
    rw [he.alike.isSome_entry]
    exact (h.includes u hu path hskeleton).1
  obtain ⟨k, hk⟩ := Tree.isSome_entry_iff.1 hsome
  exact ⟨k, hgrown.follow_lt hgrown.root_lt hk, hgrown.identityPath_of_follow hk⟩

/-- The application of the structural phase when the units `walked` have been merged. -/
def structuralApplication (naming : Naming) (libraries : List Library)
    (units walked : List CompilationUnit) : Application :=
  (((Analyzer.withLibraries naming libraries).runPass .declaration units).1.absorbAll .structural
    walked).1.application

theorem enriches_structuralApplication (naming : Naming) (libraries : List Library)
    {units walked : List CompilationUnit} (hwalked : ∀ v ∈ walked, v ∈ units) :
    (declaredApplication naming libraries units).Enriches
      (structuralApplication naming libraries units walked) := by
  have hdeclares := declares_declaredApplication naming libraries units
  exact (Analyzer.absorbAll_declared hdeclares .structural
    (a := ((Analyzer.withLibraries naming libraries).runPass .declaration units).1)
    (Application.Enriches.refl _) hwalked).1

/-- At every point of the structural walk of a unit, each node of the file has its copy in the
program, and it is found just when it is the first in pre-order of all components with its
coordinate; else the first one is found in its place. -/
theorem findsCopy_walkTo (naming : Naming) (libraries : List Library)
    {units walked : List CompilationUnit} (hwalked : ∀ v ∈ walked, v ∈ units)
    {u : CompilationUnit} (hu : u ∈ units) (s : Scope) (n : Nat) {id : NodeId} (hpos : root < id)
    (hid : id < (s.walkTo (structuralApplication naming libraries units walked) .structural u
      n).tree.size) :
    ∃ k, (s.walkTo (structuralApplication naming libraries units walked) .structural u
      n).FindsCopy (structuralApplication naming libraries units walked) id k := by
  have hdeclares := declares_declaredApplication naming libraries units
  have henriches := enriches_structuralApplication naming libraries hwalked
  obtain ⟨k, hk, hpath⟩ := hdeclares.exists_copy henriches hu s .structural n hid
  have hgrown := hdeclares.grown.of_sameShape henriches.alike.sameShape
  exact ⟨k, Scope.findsCopy_of_path (s.sound_walkTo _ .structural u n).grown hgrown hpos hid hk
    hpath⟩

/-- A class with a field and a member class of one name. -/
def fieldAndClassUnit : CompilationUnit where
  sourceName := "T.java"
  package := none
  imports := []
  types := [.mk ⟨.classType, "T", [], [], none, [], false, default⟩
    [.field ⟨["In"], [], "int", false, default⟩,
      .type (.mk ⟨.classType, "In", ["static"], [], none, [], false, default⟩
        [.type (.mk ⟨.classType, "Sub", [], [], some "Later", [], false, default⟩ []),
          .type (.mk ⟨.classType, "Later", [], [], none, [], false, default⟩ [])])]]

/-- The application in which the unit is walked a second time. -/
def fieldAndClassApplication : Application := structuralApplication {} [] [fieldAndClassUnit] []

theorem findsCopy_walkTo_fieldAndClass :
    (∀ v ∈ ([] : List CompilationUnit), v ∈ [fieldAndClassUnit]) ∧
      fieldAndClassUnit ∈ [fieldAndClassUnit] ∧ root < 4 ∧
      4 < (({} : Scope).walkTo fieldAndClassApplication .structural fieldAndClassUnit 5).tree.size ∧
      ∃ k, (({} : Scope).walkTo fieldAndClassApplication .structural fieldAndClassUnit
        5).FindsCopy fieldAndClassApplication 4 k := by
  have hsize : 4 < (({} : Scope).walkTo fieldAndClassApplication .structural fieldAndClassUnit
      5).tree.size := by decide +kernel
  have hwalked : ∀ v ∈ ([] : List CompilationUnit), v ∈ [fieldAndClassUnit] := nofun
  exact ⟨hwalked, List.mem_singleton_self _, by decide, hsize,
    findsCopy_walkTo {} [] hwalked (List.mem_singleton_self _) {} 5 (by decide) hsize⟩

/-- The field comes first, so it is taken for the class, and the class `Later` that follows is not
found from within. -/
theorem memberClass_notFound :
    (({} : Scope).walkTo fieldAndClassApplication .structural fieldAndClassUnit
        5).tree.identityPath 4 =
      [packageSymbol "default", ⟨.classType, "T", none⟩, ⟨.classType, "In", none⟩] ∧
    (({} : Scope).walkTo fieldAndClassApplication .structural fieldAndClassUnit
        5).programScope fieldAndClassApplication 4 = some (.program 3) ∧
    fieldAndClassApplication.components.identityPath 3 =
      [packageSymbol "default", ⟨.classType, "T", none⟩, ⟨.field, "In", none⟩] ∧
    fieldAndClassApplication.components.identityPath 4 =
      [packageSymbol "default", ⟨.classType, "T", none⟩, ⟨.classType, "In", none⟩] ∧
    ((analyze {} [] [fieldAndClassUnit]).1.components.node 5).value = "Sub" ∧
    ((analyze {} [] [fieldAndClassUnit]).1.components.node 5).hasAttributeOfKind .extendsType =
      false := by
  decide +kernel

end SymbolTable
