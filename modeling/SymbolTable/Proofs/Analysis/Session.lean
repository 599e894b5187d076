import SymbolTable.Analysis.Pass
import SymbolTable.Proofs.Analysis.Correspondence
import SymbolTable.Proofs.Analysis.Skeleton
import SymbolTable.Proofs.Tree.Inclusion
import SymbolTable.Proofs.Tree.Location

/-!
# Runs of an analysis

After the declaration phase the application has every skeleton, and from then on no pass adds a
component: it `Enriches` that application by attributes only. A lookup that worked while attributes
were still missing therefore finds the same component ever after, so each unit has one tree for each
phase, and a run merges these trees in order.
-/

namespace SymbolTable

open SymbolTable.Tree (root)
open SymbolTable.Tree.Entry (attributesOf)

namespace Tree

/-! ## Alike trees correspond -/

namespace Alike

variable {t t' : Tree} (ha : t.Alike t')
include ha

theorem locateWithin (delimiter : List Char) (fuel : Nat) (above : NodeId) (rest : List Char) :
    t'.locateWithin delimiter fuel above rest = t.locateWithin delimiter fuel above rest := by
  induction fuel generalizing above rest with
  | zero => rfl
  | succ fuel ih =>
    simp only [Tree.locateWithin, ha.sameShape.children, ha.sameShape.value, ih]

theorem locate (text delimiter : String) : t'.locate text delimiter = t.locate text delimiter := by
  unfold Tree.locate
  rw [ha.locateWithin, ha.size]

theorem isSome_entry (x : List Symbol) : (t'.entry x).isSome = (t.entry x).isSome := by
  rw [Tree.isSome_entry, Tree.isSome_entry, ha.sameShape.follow]

theorem marked {x : List Symbol} :
    anonymousMark ∈ attributesOf (t'.entry x) ↔ anonymousMark ∈ attributesOf (t.entry x) := by
  cases hx : t.follow root x with
  | none =>
    have hx' : t'.follow root x = none := by rw [ha.sameShape.follow, hx]
    rw [entry_of_follow_eq_none hx, entry_of_follow_eq_none hx']
  | some id =>
    have hx' : t'.follow root x = some id := by rw [ha.sameShape.follow, hx]
    rw [attributesOf_of_follow hx, attributesOf_of_follow hx']
    exact (ha.node id).marked

theorem eq_of_samePath {id id' : NodeId} (hid : t.SamePath t' id id') : id' = id := by
  obtain ⟨path, hp, hp'⟩ := hid
  rw [ha.sameShape.follow, hp] at hp'
  exact (Option.some.inj hp').symm

variable (h : t.Grown)
include h

theorem samePath_self {id : NodeId} (hid : id < t.size) : t.SamePath t' id id := by
  refine ⟨t.identityPath id, h.follow_identityPath hid, ?_⟩
  rw [ha.sameShape.follow]
  exact h.follow_identityPath hid

/-- Trees that differ in nothing but attributes and agree on marks answer all lookups alike. -/
theorem corresponds (delimiter : String) : t.Corresponds delimiter t' where
  grown := h
  grown' := h.of_sameShape ha.sameShape
  symbol_root := (ha.node root).symbol
  marked {id id'} hid := by
    rw [ha.eq_of_samePath hid]
    exact (ha.node id).marked
  locate text := by
    rw [ha.locate]
    cases hid : t.locate text delimiter with
    | none => exact .none
    | some id => exact .some (ha.samePath_self h (h.locate_lt hid))
  member {id id'} hid accept haccept := by
    have hfind : (t'.children id').find? (fun c => accept (t'.node c)) =
        (t.children id).find? fun c => accept (t.node c) := by
      rw [ha.eq_of_samePath hid, ha.sameShape.children]
      apply List.find?_congr
      intro c _
      exact haccept.congr (ha.node c).symbol (ha.node c).marked
    rw [hfind]
    cases hc : (t.children id).find? fun c => accept (t.node c) with
    | none => exact .none
    | some c => exact .some (ha.samePath_self h (h.child_lt (List.mem_of_find?_eq_some hc)))

end Alike

end Tree

/-! ## Enriched applications -/

/-- `app'` is `app` with more attributes, but no more marks of anonymous classes. -/
structure Application.Enriches (app app' : Application) : Prop where
  naming : app'.naming = app.naming
  libraries : app'.libraries = app.libraries
  alike : app.components.Alike app'.components

namespace Application.Enriches

variable {app app' : Application}

theorem refl (app : Application) : app.Enriches app := ⟨rfl, rfl, Tree.Alike.refl _⟩

theorem corresponds (h : app.Enriches app') (hgrown : app.components.Grown) :
    app.Corresponds app' :=
  ⟨h.naming, h.libraries, h.alike.corresponds hgrown _⟩

end Application.Enriches

/-- The tree that a unit gets in a phase. -/
def Application.treeOf (app : Application) (phase : Phase) (u : CompilationUnit) : Tree :=
  (({} : Scope).build app phase u).1

theorem Application.alike_treeOf (app : Application) (phase : Phase) (u : CompilationUnit) :
    (u.skeleton app.naming).Alike (app.treeOf phase u) := u.alike_skeleton {} app phase

theorem Application.grown_treeOf (app : Application) (phase : Phase) (u : CompilationUnit) :
    (app.treeOf phase u).Grown :=
  (u.grown_skeleton app.naming).of_sameShape (app.alike_treeOf phase u).sameShape

theorem Application.treeOf_declaration (app : Application) (u : CompilationUnit) :
    app.treeOf .declaration u = u.skeleton app.naming := u.build_declaration {} app

/-- The application has every skeleton of the units. -/
structure Application.Declares (app : Application) (units : List CompilationUnit) : Prop where
  grown : app.components.Grown
  includes : ∀ u ∈ units, app.components.Includes (u.skeleton app.naming)

namespace Application.Declares

variable {app app' : Application} {units : List CompilationUnit} (h : app.Declares units)
  {u : CompilationUnit}
include h

/-- Merging a tree of a declared unit adds attributes only. -/
theorem enriches_merge (he : app.Enriches app') (hu : u ∈ units) (phase : Phase) :
    app.Enriches (app'.merge (app.treeOf phase u)) := by
  have hgrown := h.grown.of_sameShape he.alike.sameShape
  have htree := app.grown_treeOf phase u
  have halike := app.alike_treeOf phase u
  have hmerged := Tree.grown_merge hgrown htree
  have hpaths : ∀ x, ((app'.components.merge (app.treeOf phase u)).entry x).isSome →
      (app'.components.entry x).isSome := by
    intro x hx
    rw [Tree.entry_merge hgrown htree, Tree.Entry.isSome_join, halike.isSome_entry,
      Bool.or_eq_true] at hx
    rcases hx with hx | hx
    · exact hx
    · rw [he.alike.isSome_entry]
      exact (h.includes u hu x hx).1
  have hshape := (Tree.extends_merge hgrown htree).sameShape hgrown hmerged hpaths
  refine ⟨he.naming, he.libraries, he.alike.trans ⟨hshape.size, fun id => ?_⟩⟩
  refine ⟨hshape.symbol id, hshape.parent id, hshape.children id, ?_⟩
  rcases Nat.lt_or_ge id app'.components.size with hid | hid
  · have hself := hgrown.follow_identityPath hid
    rw [Application.merge, Tree.attributes_merge hgrown htree hself, mem_unite]
    refine or_iff_left_of_imp fun ha => ?_
    rw [halike.marked] at ha
    have hsome := Tree.isSome_of_mem_attributesOf ha
    have hold := (h.includes u hu _ hsome).2 _ ha
    rw [← he.alike.marked, Tree.attributesOf_of_follow hself] at hold
    exact hold
  · rw [Application.merge, Tree.node_of_size_le hid,
      Tree.node_of_size_le (hshape.size.symm ▸ hid)]

/-- An enriched application builds the trees of the application. -/
theorem build_eq (he : app.Enriches app') (s : Scope) (phase : Phase) (u : CompilationUnit) :
    (s.build app' phase u).1 = app.treeOf phase u :=
  (he.corresponds h.grown).build_eq phase {} s u

end Application.Declares

/-! ## Passes -/

namespace Analyzer

/-- Absorbing a unit merges the tree that the unit is given. -/
theorem absorb_application (phase : Phase) (a : Analyzer) (u : CompilationUnit) :
    (a.absorb phase u).1.application =
      a.application.merge (a.scope.build a.application phase u).1 := rfl

theorem absorbAll_cons (phase : Phase) (a : Analyzer) (u : CompilationUnit)
    (rest : List CompilationUnit) :
    (a.absorbAll phase (u :: rest)).1 = ((a.absorb phase u).1.absorbAll phase rest).1 := rfl

theorem runPass_application (a : Analyzer) (phase : Phase) (units : List CompilationUnit) :
    (a.runPass phase units).1.application = (a.absorbAll phase units).1.application := rfl

theorem addLibrary_naming_components (app : Application) (l : Library) :
    (app.addLibrary l).1.naming = app.naming ∧
      (app.addLibrary l).1.components = app.components := by
  unfold Application.addLibrary
  split <;> exact ⟨rfl, rfl⟩

theorem withLibraries_application (naming : Naming) (libraries : List Library) :
    (withLibraries naming libraries).application.naming = naming ∧
      (withLibraries naming libraries).application.components = .empty := by
  unfold withLibraries
  apply List.foldlRecOn (motive := fun a : Analyzer =>
    a.application.naming = naming ∧ a.application.components = .empty) libraries _ ⟨rfl, rfl⟩
  intro a h l _
  have hadd := addLibrary_naming_components a.application l
  exact ⟨hadd.1.trans h.1, hadd.2.trans h.2⟩

/-- The declaration phase merges the skeletons. -/
theorem absorbAll_declaration (a : Analyzer) (units : List CompilationUnit) :
    (a.absorbAll .declaration units).1.application =
      { a.application with
        components := a.application.components.mergeAll
          (units.map (·.skeleton a.application.naming)) } := by
  induction units generalizing a with
  | nil => rfl
  | cons u rest ih =>
    rw [absorbAll_cons, ih, absorb_application, u.build_declaration]
    rfl

/-- Absorbing a declared unit merges its tree of the phase, which adds attributes only. -/
theorem absorb_declared {app : Application} {units : List CompilationUnit} (h : app.Declares units)
    (phase : Phase) {a : Analyzer} (ha : app.Enriches a.application) {u : CompilationUnit}
    (hu : u ∈ units) :
    (a.absorb phase u).1.application = a.application.merge (app.treeOf phase u) ∧
      app.Enriches (a.absorb phase u).1.application := by
  rw [absorb_application, h.build_eq ha]
  exact ⟨rfl, h.enriches_merge ha hu phase⟩

/-- Any pass over declared units merges their trees of the phase. -/
theorem absorbAll_declared {app : Application} {units : List CompilationUnit}
    (h : app.Declares units) (phase : Phase) {a : Analyzer} (ha : app.Enriches a.application)
    {drawn : List CompilationUnit} (hdrawn : ∀ u ∈ drawn, u ∈ units) :
    app.Enriches (a.absorbAll phase drawn).1.application ∧
      (a.absorbAll phase drawn).1.application.components =
        a.application.components.mergeAll (drawn.map (app.treeOf phase)) := by
  induction drawn generalizing a with
  | nil => exact ⟨ha, rfl⟩
  | cons u rest ih =>
    obtain ⟨habsorb, henriches⟩ := absorb_declared h phase ha (hdrawn u List.mem_cons_self)
    obtain ⟨hrest, hcomponents⟩ := ih henriches fun v hv => hdrawn v (List.mem_cons_of_mem u hv)
    rw [absorbAll_cons]
    refine ⟨hrest, hcomponents.trans ?_⟩
    rw [habsorb]
    rfl

end Analyzer

/-! ## The run -/

/-- The application between the two phases of an analysis. -/
def declaredApplication (naming : Naming) (libraries : List Library)
    (units : List CompilationUnit) : Application :=
  ((Analyzer.withLibraries naming libraries).runPass .declaration units).1.application

section Run

variable (naming : Naming) (libraries : List Library) (units : List CompilationUnit)

theorem declaredApplication_eq :
    declaredApplication naming libraries units =
      { (Analyzer.withLibraries naming libraries).application with
        components := Tree.empty.mergeAll (units.map (·.skeleton naming)) } := by
  obtain ⟨hnaming, hempty⟩ := Analyzer.withLibraries_application naming libraries
  rw [declaredApplication, Analyzer.runPass_application, Analyzer.absorbAll_declaration, hnaming,
    hempty]

theorem declaredApplication_naming : (declaredApplication naming libraries units).naming = naming := by
  rw [declaredApplication_eq]
  exact (Analyzer.withLibraries_application naming libraries).1

theorem declaredApplication_components :
    (declaredApplication naming libraries units).components =
      Tree.empty.mergeAll (units.map (·.skeleton naming)) := by
  rw [declaredApplication_eq]

theorem grown_skeletons : ∀ s ∈ units.map (·.skeleton naming), s.Grown := by
  intro s hs
  obtain ⟨u, -, rfl⟩ := List.mem_map.1 hs
  exact u.grown_skeleton naming

theorem isSome_entry_skeletons (y : List Symbol) (s : Symbol) :
    ((Tree.empty.mergeAll (units.map (·.skeleton naming))).entry (y ++ [s])).isSome ↔
      ∃ u ∈ units, ((u.skeleton naming).entry (y ++ [s])).isSome := by
  rw [Tree.isSome_entry_mergeAll Tree.grown_empty (grown_skeletons naming units),
    CompilationUnit.entry_empty]
  simp

theorem declares_declaredApplication :
    (declaredApplication naming libraries units).Declares units := by
  have hs := grown_skeletons naming units
  refine ⟨?_, fun u hu => ?_⟩
  · rw [declaredApplication_components]
    exact Tree.grown_mergeAll Tree.grown_empty hs
  · rw [declaredApplication_components, declaredApplication_naming]
    exact Tree.includes_mergeAll Tree.grown_empty hs (List.mem_map_of_mem hu)

/-- A run merges every skeleton and then every tree of the structural phase. -/
theorem analyze_spec :
    (declaredApplication naming libraries units).Enriches (analyze naming libraries units).1 ∧
      (analyze naming libraries units).1.components =
        Tree.empty.mergeAll (units.map (·.skeleton naming) ++
          units.map ((declaredApplication naming libraries units).treeOf .structural)) := by
  have hpass := Analyzer.absorbAll_declared (declares_declaredApplication naming libraries units)
    .structural (a := ((Analyzer.withLibraries naming libraries).runPass .declaration units).1)
    (Application.Enriches.refl _) (fun _ hu => hu)
  refine ⟨hpass.1, hpass.2.trans ?_⟩
  rw [Tree.mergeAll, Tree.mergeAll, List.foldl_append]
  congr 1
  exact declaredApplication_components naming libraries units

theorem grown_analyze : (analyze naming libraries units).1.components.Grown :=
  (declares_declaredApplication naming libraries units).grown.of_sameShape
    (analyze_spec naming libraries units).1.alike.sameShape

/-- Below the root, a run has the paths that some unit declares. -/
theorem isSome_entry_analyze (y : List Symbol) (s : Symbol) :
    ((analyze naming libraries units).1.components.entry (y ++ [s])).isSome ↔
      ∃ u ∈ units, ((u.skeleton naming).entry (y ++ [s])).isSome := by
  rw [(analyze_spec naming libraries units).1.alike.isSome_entry, declaredApplication_components]
  exact isSome_entry_skeletons naming units y s

end Run

/-! ## A small program -/

/-- A file with one class in a package. -/
def classUnit (package name : String) (imports : List ImportDecl) (superclass : Option String) :
    CompilationUnit where
  sourceName := name ++ ".java"
  package := some ⟨[package], default⟩
  imports := imports
  types := [.mk ⟨.classType, name, [], [], superclass, [], false, default⟩ []]

def baseUnit : CompilationUnit := classUnit "a" "A" [] none

def derivedUnit : CompilationUnit := classUnit "b" "B" [⟨"a.A", false, false, default⟩] (some "A")

end SymbolTable
