import SymbolTable.Proofs.Analysis.Session

/-!
# Two passes reach a fixpoint

After both phases the application includes the tree of every unit in either phase. A further pass
builds one of these trees for each unit it is given, because all lookups still find what they found
before, and merging an included tree changes nothing.
-/

namespace SymbolTable

namespace Analyzer

/-- Runs passes one after the other, each over units of its own. -/
def runPasses (a : Analyzer) (passes : List (Phase × List CompilationUnit)) : Analyzer :=
  passes.foldl (fun a pass => (a.runPass pass.1 pass.2).1) a

/-- The application has all that any pass over the units could add. -/
structure Settled (app : Application) (units : List CompilationUnit) (a : Analyzer) : Prop where
  enriches : app.Enriches a.application
  includes : ∀ u ∈ units, ∀ phase, a.application.components.Includes (app.treeOf phase u)

namespace Settled

variable {app : Application} {units : List CompilationUnit} {a : Analyzer}

theorem runPass (h : Settled app units a) (hdeclares : app.Declares units) (phase : Phase)
    {drawn : List CompilationUnit} (hdrawn : ∀ u ∈ drawn, u ∈ units) :
    (a.runPass phase drawn).1.application.components = a.application.components ∧
      Settled app units (a.runPass phase drawn).1 := by
  have hgrown := hdeclares.grown.of_sameShape h.enriches.alike.sameShape
  obtain ⟨henriches, hcomponents⟩ := absorbAll_declared hdeclares phase h.enriches hdrawn
  have htrees : ∀ s ∈ drawn.map (app.treeOf phase),
      s.Grown ∧ a.application.components.Includes s := by
    intro s hs
    obtain ⟨u, hu, rfl⟩ := List.mem_map.1 hs
    exact ⟨app.grown_treeOf phase u, h.includes u (hdrawn u hu) phase⟩
  have hsame : (a.absorbAll phase drawn).1.application.components = a.application.components := by
    rw [hcomponents]
    exact Tree.mergeAll_of_includes hgrown (fun s hs => (htrees s hs).1) fun s hs => (htrees s hs).2
  rw [runPass_application]
  refine ⟨hsame, henriches, fun u hu phase => ?_⟩
  rw [runPass_application, hsame]
  exact h.includes u hu phase

theorem runPasses (h : Settled app units a) (hdeclares : app.Declares units)
    {passes : List (Phase × List CompilationUnit)}
    (hdrawn : ∀ pass ∈ passes, ∀ u ∈ pass.2, u ∈ units) :
    (a.runPasses passes).application.components = a.application.components := by
  induction passes generalizing a with
  | nil => rfl
  | cons pass passes ih =>
    obtain ⟨hsame, hsettled⟩ := h.runPass hdeclares pass.1 (hdrawn pass List.mem_cons_self)
    have hrest := ih hsettled fun p hp => hdrawn p (List.mem_cons_of_mem pass hp)
    exact hrest.trans hsame

end Settled

/-- The state of an analysis after both phases. -/
def afterBoth (naming : Naming) (libraries : List Library) (units : List CompilationUnit) :
    Analyzer :=
  (((withLibraries naming libraries).runPass .declaration units).1.runPass .structural units).1

theorem settled_afterBoth (naming : Naming) (libraries : List Library)
    (units : List CompilationUnit) :
    Settled (declaredApplication naming libraries units) units
      (afterBoth naming libraries units) := by
  obtain ⟨henriches, hcomponents⟩ := analyze_spec naming libraries units
  have hnaming := declaredApplication_naming naming libraries units
  refine ⟨henriches, fun u hu phase => ?_⟩
  have hcomponents' : (afterBoth naming libraries units).application.components = _ := hcomponents
  rw [hcomponents']
  apply Tree.includes_mergeAll Tree.grown_empty
  · intro s hs
    rcases List.mem_append.1 hs with hs | hs
    · exact grown_skeletons naming units s hs
    · obtain ⟨v, -, rfl⟩ := List.mem_map.1 hs
      exact Application.grown_treeOf _ _ v
  · cases phase with
    | declaration =>
      rw [Application.treeOf_declaration, hnaming]
      exact List.mem_append_left _ (List.mem_map_of_mem hu)
    | structural => exact List.mem_append_right _ (List.mem_map_of_mem hu)

/-- After both phases no sequence of passes over the same units changes the tree. -/
theorem components_runPasses_afterBoth (naming : Naming) (libraries : List Library)
    (units : List CompilationUnit) (passes : List (Phase × List CompilationUnit))
    (hdrawn : ∀ pass ∈ passes, ∀ u ∈ pass.2, u ∈ units) :
    ((afterBoth naming libraries units).runPasses passes).application.components =
      (afterBoth naming libraries units).application.components :=
  (settled_afterBoth naming libraries units).runPasses
    (declares_declaredApplication naming libraries units) hdrawn

theorem components_runPasses_twoFiles :
    (∀ pass ∈ [(Phase.structural, [derivedUnit]), (.declaration, [baseUnit, baseUnit])],
      ∀ u ∈ pass.2, u ∈ [baseUnit, derivedUnit]) ∧
    ((afterBoth {} [] [baseUnit, derivedUnit]).runPasses
        [(.structural, [derivedUnit]), (.declaration, [baseUnit, baseUnit])]).application.components =
      (afterBoth {} [] [baseUnit, derivedUnit]).application.components := by
  have hdrawn : ∀ pass ∈ [(Phase.structural, [derivedUnit]), (.declaration, [baseUnit, baseUnit])],
      ∀ u ∈ pass.2, u ∈ [baseUnit, derivedUnit] := by simp
  exact ⟨hdrawn, components_runPasses_afterBoth {} [] _ _ hdrawn⟩

end Analyzer

end SymbolTable
