import SymbolTable.Proofs.Analysis.Bare
import SymbolTable.Proofs.Analysis.ProgramScope

/-!
# What the structural phase adds

Once an application has the skeletons of some units, absorbing one of the units again finds a node
for every node of its tree. The node keeps its place and its attributes, and what is appended to
them was not declared, so it comes from relating the component: an edge to a type, or the type of an
enum constant. The same holds of any number of units, one after the other, and so of the structural
phase as a whole.
-/

namespace SymbolTable

open SymbolTable.Tree.Entry (attributesOf)

/-! ## Trees with relations added -/

/-- The second tree is the first with attributes appended that come from relating components. -/
structure Tree.OnlyRelates (t t' : Tree) : Prop where
  size : t'.size = t.size
  node : ∀ id, ∃ added, (∀ a ∈ added, (t.node id).Related a) ∧
    t'.node id = { t.node id with attributes := (t.node id).attributes ++ added }

namespace Tree.OnlyRelates

variable {t t' t'' : Tree}

theorem refl (t : Tree) : t.OnlyRelates t := by
  refine ⟨rfl, fun id => ⟨[], by simp, ?_⟩⟩
  rw [List.append_nil]

theorem trans (h : t.OnlyRelates t') (h' : t'.OnlyRelates t'') : t.OnlyRelates t'' := by
  refine ⟨h'.size.trans h.size, fun id => ?_⟩
  obtain ⟨added, hadded, hnode⟩ := h.node id
  obtain ⟨more, hmore, hnode'⟩ := h'.node id
  rw [hnode] at hmore hnode'
  refine ⟨added ++ more, fun a ha => ?_, ?_⟩
  · rcases List.mem_append.1 ha with ha | ha
    · exact hadded a ha
    · exact hmore a ha
  · rw [hnode', ← List.append_assoc]

end Tree.OnlyRelates

/-! ## One unit -/

namespace Application.Declares

variable {app app' : Application} {units : List CompilationUnit} (h : app.Declares units)
  {u : CompilationUnit}
include h

/-- What a tree of a declared unit has at a path, the application has there, or it comes from
relating. -/
theorem mem_or_related (hu : u ∈ units) (phase : Phase) {path : List Symbol} {id : NodeId}
    (hid : app.components.follow Tree.root path = some id) {a : Attribute}
    (ha : a ∈ attributesOf ((app.treeOf phase u).entry path)) :
    a ∈ (app.components.node id).attributes ∨ (app.components.node id).Related a := by
  obtain ⟨j, hj⟩ := Tree.isSome_entry_iff.1 (Tree.isSome_of_mem_attributesOf ha)
  have hj' : (u.skeleton app.naming).follow Tree.root path = some j := by
    rw [← (app.alike_treeOf phase u).sameShape.follow, hj]
  rw [Tree.attributesOf_of_follow hj] at ha
  have hbare := (Tree.bare_eq_iff.1 (u.bare_build {} app phase)).2 j
  rcases Component.mem_or_related_of_bare hbare ha with hdeclared | hrelated
  · have hknown := (h.includes u hu _ (Tree.isSome_entry_iff.2 ⟨j, hj'⟩)).2 a
    rw [Tree.attributesOf_of_follow hid, Tree.attributesOf_of_follow hj'] at hknown
    exact .inl (hknown hdeclared)
  · have hkind := (u.grown_skeleton app.naming).kind_eq_of_follow h.grown hj' hid
    rw [Component.Related, ← hkind] at hrelated
    exact .inr hrelated

/-- Merging a tree of a declared unit only relates. -/
theorem onlyRelates_merge (he : app.Enriches app')
    (hold : app.components.OnlyRelates app'.components) (hu : u ∈ units) (phase : Phase) :
    app'.components.OnlyRelates (app'.merge (app.treeOf phase u)).components := by
  have hgrown := h.grown.of_sameShape he.alike.sameShape
  have hshape : app'.components.SameShape (app'.merge (app.treeOf phase u)).components :=
    (he.alike.symm.trans (h.enriches_merge he hu phase).alike).sameShape
  refine ⟨hshape.size, fun id => ?_⟩
  rcases Nat.lt_or_ge id app'.components.size with hid | hid
  · have hself := hgrown.follow_identityPath hid
    have hself' := hself
    rw [he.alike.sameShape.follow] at hself'
    have hunite := Tree.attributes_merge hgrown (app.grown_treeOf phase u) hself
    obtain ⟨fresh, hfresh, -, hnew⟩ := exists_unite_eq (app'.components.node id).attributes
      (attributesOf ((app.treeOf phase u).entry (app'.components.identityPath id)))
    obtain ⟨added, -, hnode⟩ := hold.node id
    refine ⟨fresh, fun a ha => ?_, ?_⟩
    · have hmem : a ∈ attributesOf
          ((app.treeOf phase u).entry (app'.components.identityPath id)) := by
        refine (mem_unite.1 ?_).resolve_left (hnew a ha)
        rw [hfresh]
        exact List.mem_append_right _ ha
      have hcases := h.mem_or_related hu phase hself' hmem
      have hknown : a ∉ (app.components.node id).attributes := by
        refine fun hknown => hnew a ha ?_
        rw [hnode]
        exact List.mem_append_left added hknown
      rw [hnode]
      exact hcases.resolve_left hknown
    · rw [← hfresh, ← hunite]
      exact hshape.node_eq id
  · refine ⟨[], by simp, ?_⟩
    rw [List.append_nil, Tree.node_of_size_le hid, Tree.node_of_size_le (hshape.size ▸ hid)]

end Application.Declares

/-! ## A pass -/

namespace Analyzer

variable {app : Application} {units : List CompilationUnit} (h : app.Declares units)
  {a : Analyzer} {drawn : List CompilationUnit} (hdrawn : ∀ u ∈ drawn, u ∈ units)
include h hdrawn

/-- What is drawn from declared units only relates. -/
theorem onlyRelates_absorbAll (ha : app.Enriches a.application)
    (hold : app.components.OnlyRelates a.application.components) (phase : Phase) :
    app.components.OnlyRelates (a.absorbAll phase drawn).1.application.components := by
  induction drawn generalizing a with
  | nil => exact hold
  | cons u rest ih =>
    have hu := hdrawn u List.mem_cons_self
    obtain ⟨habsorb, henriches⟩ := absorb_declared h phase ha hu
    rw [absorbAll_cons]
    apply ih (fun v hv => hdrawn v (List.mem_cons_of_mem u hv)) henriches
    rw [habsorb]
    exact hold.trans (h.onlyRelates_merge ha hold hu phase)

/-- Each unit reports how much it declares, and the size that the application keeps. -/
theorem progress_absorbAll (ha : app.Enriches a.application) (phase : Phase) :
    (a.absorbAll phase drawn).2 = drawn.flatMap fun u =>
      [.fileWalked phase u.sourceName ((u.skeleton app.naming).size - 1),
        .merged phase u.sourceName (app.components.size - 1)] := by
  induction drawn generalizing a with
  | nil => rfl
  | cons u rest ih =>
    obtain ⟨-, henriches⟩ := absorb_declared h phase ha (hdrawn u List.mem_cons_self)
    have hreport : (a.absorb phase u).2 =
        [.fileWalked phase u.sourceName ((u.skeleton app.naming).size - 1),
          .merged phase u.sourceName (app.components.size - 1)] := by
      rw [← (app.alike_treeOf phase u).size, ← henriches.alike.size,
        ← h.build_eq ha a.scope phase u]
      rfl
    have hrest := ih (fun v hv => hdrawn v (List.mem_cons_of_mem u hv)) henriches
    rw [List.flatMap_cons, ← hreport, ← hrest]
    rfl

end Analyzer

section Run

variable {naming : Naming} {libraries : List Library} {units : List CompilationUnit}

/-- What a run lists at a path is what the declaration phase found, and then the rest. -/
theorem attributesOf_analyze (naming : Naming) (libraries : List Library)
    (units : List CompilationUnit) {x : List Symbol}
    (hx : ((declaredApplication naming libraries units).components.entry x).isSome) :
    attributesOf ((analyze naming libraries units).1.components.entry x) =
      unite (attributesOf ((declaredApplication naming libraries units).components.entry x))
        (units.flatMap fun u =>
          attributesOf (((declaredApplication naming libraries units).treeOf .structural u).entry x)) := by
  have hdeclares := declares_declaredApplication naming libraries units
  have htrees : ∀ s ∈ units.map ((declaredApplication naming libraries units).treeOf .structural),
      s.Grown := List.forall_mem_map.2 fun u _ => Application.grown_treeOf _ _ u
  rw [(analyze_spec naming libraries units).2, Tree.mergeAll_append,
    ← declaredApplication_components naming libraries,
    Tree.attributesOf_mergeAll hdeclares.grown htrees hx, List.flatMap_map]

/-- The run keeps what the declaration phase has found and only relates it. -/
theorem onlyRelates_analyze (naming : Naming) (libraries : List Library)
    (units : List CompilationUnit) :
    (declaredApplication naming libraries units).components.OnlyRelates
      (analyze naming libraries units).1.components :=
  Analyzer.onlyRelates_absorbAll (declares_declaredApplication naming libraries units)
    (fun _ hu => hu) (.refl (declaredApplication naming libraries units)) (.refl _) .structural

/-- The declaration phase has found all attributes except for edges and the types of enum
constants. -/
theorem mem_attributes_analyze_iff {id : NodeId} {a : Attribute}
    (ha : ¬ ((analyze naming libraries units).1.components.node id).Related a) :
    a ∈ ((analyze naming libraries units).1.components.node id).attributes ↔
      a ∈ ((declaredApplication naming libraries units).components.node id).attributes := by
  obtain ⟨added, hadded, hnode⟩ := (onlyRelates_analyze naming libraries units).node id
  rw [hnode] at ha ⊢
  rw [List.mem_append]
  exact or_iff_left fun hmem => ha (hadded a hmem)

end Run

/-- However many units a structural pass has merged, the application is that of the declaration pass
with edges and types of enum constants appended. All units report one total, the size that the
application had between the passes. -/
theorem structural_pass_only_relates (naming : Naming) (libraries : List Library)
    (units : List CompilationUnit) :
    (∀ n, (declaredApplication naming libraries units).components.OnlyRelates
      (structuralApplication naming libraries units (units.take n)).components) ∧
    (((Analyzer.withLibraries naming libraries).runPass .declaration units).1.runPass .structural
        units).2 =
      .passStart .structural units.length :: units.flatMap fun u =>
        [.fileWalked .structural u.sourceName ((u.skeleton naming).size - 1),
          .merged .structural u.sourceName
            ((declaredApplication naming libraries units).components.size - 1)] := by
  have hdeclares := declares_declaredApplication naming libraries units
  have henriches := Application.Enriches.refl (declaredApplication naming libraries units)
  constructor
  · intro n
    exact Analyzer.onlyRelates_absorbAll hdeclares (fun u hu => List.mem_of_mem_take hu) henriches
      (.refl _) .structural
  · have hprogress := Analyzer.progress_absorbAll hdeclares (fun u hu => hu) henriches .structural
    rw [declaredApplication_naming] at hprogress
    exact congrArg (.passStart .structural units.length :: ·) hprogress

end SymbolTable
