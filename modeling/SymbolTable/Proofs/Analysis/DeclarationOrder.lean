import SymbolTable.Proofs.Analysis.Additions
import SymbolTable.Proofs.Analysis.Edges
import SymbolTable.Proofs.Analysis.Reordering

/-!
# The order of declarations in a file

Files in another order declare the same components, so a run of the analysis gives the same symbol
table but for the edges between types.
-/

namespace SymbolTable

open SymbolTable.Tree (root)
open SymbolTable.Tree.Entry (attributesOf)

/-! ## Merging trees with the same entries -/

theorem Tree.SameEntries.mergeAll {t t' : Tree} (h : t.SameEntries t') (ht : t.Grown)
    (ht' : t'.Grown) {sources sources' : List Tree} (hs : ∀ s ∈ sources, s.Grown)
    (hs' : ∀ s ∈ sources', s.Grown) (hsources : List.Forall₂ SameEntries sources sources') :
    (t.mergeAll sources).SameEntries (t'.mergeAll sources') := by
  induction hsources generalizing t t' with
  | nil => exact h
  | @cons s s' sources sources' hself _ ih =>
    have hgrown := hs s List.mem_cons_self
    have hgrown' := hs' s' List.mem_cons_self
    have hmerge : (t.merge s).SameEntries (t'.merge s') := by
      refine ⟨fun x => ?_, fun x => ?_⟩
      · rw [entry_merge ht hgrown, entry_merge ht' hgrown', Entry.isSome_join, Entry.isSome_join,
          h.isSome, hself.isSome]
      · rw [entry_merge ht hgrown, entry_merge ht' hgrown', Entry.attributesOf_join,
          Entry.attributesOf_join, h.isSome, h.attributes, hself.attributes]
    exact ih hmerge (grown_merge ht hgrown) (grown_merge ht' hgrown')
      (fun r hr => hs r (List.mem_cons_of_mem s hr)) fun r hr => hs' r (List.mem_cons_of_mem s' hr)

section Run

variable (naming : Naming) (libraries : List Library) {units units' : List CompilationUnit}
  (h : List.Forall₂ CompilationUnit.Reorders units units')

include h in
/-- Between the phases the program is the same up to the order of siblings. -/
theorem sameEntries_declaredApplication :
    (declaredApplication naming libraries units).components.SameEntries
      (declaredApplication naming libraries units').components := by
  rw [declaredApplication_components, declaredApplication_components]
  refine (Tree.SameEntries.refl _).mergeAll Tree.grown_empty Tree.grown_empty
    (grown_skeletons naming units) (grown_skeletons naming units') ?_
  rw [List.forall₂_map_left_iff, List.forall₂_map_right_iff]
  exact h.imp fun _ _ hu => hu.sameEntries_skeleton naming

variable {naming libraries}

theorem symbol_root_analyze : ((analyze naming libraries units).1.components.node root).symbol =
    (Tree.empty.node root).symbol := by
  rw [components_analyze]
  exact Tree.symbol_root_mergeAll Tree.grown_empty (grown_sources naming libraries units)

/-- Two runs agree on the type of an enum constant. -/
theorem declaredType_mem_analyze {x : List Symbol} {id id' : NodeId}
    (hid : (analyze naming libraries units).1.components.follow root x = some id)
    (hid' : (analyze naming libraries units').1.components.follow root x = some id')
    (hconstant : ((analyze naming libraries units).1.components.node id).kind = .enumConstant)
    {a : Attribute} (hkind : a.kind = .declaredType)
    (ha : a ∈ ((analyze naming libraries units).1.components.node id).attributes) :
    a ∈ ((analyze naming libraries units').1.components.node id').attributes := by
  have hgrown := grown_analyze naming libraries units
  have hgrown' := grown_analyze naming libraries units'
  have hroot : ((analyze naming libraries units').1.components.node root).symbol =
      ((analyze naming libraries units).1.components.node root).symbol :=
    symbol_root_analyze.trans symbol_root_analyze.symm
  have hconstant' : ((analyze naming libraries units').1.components.node id').kind =
      .enumConstant :=
    (congrArg Symbol.kind (Tree.symbol_eq_of_follow hroot hid hid')).trans hconstant
  have hnaming : (analyze naming libraries units').1.naming =
      (analyze naming libraries units).1.naming := by
    rw [naming_analyze, naming_analyze, declaredApplication_naming, declaredApplication_naming]
  obtain ⟨⟨kind, value⟩, hb, hdeclared⟩ := typed_analyze hconstant'
  obtain ⟨p', hp', hvalue'⟩ := owner_analyze hconstant' hb hdeclared
  obtain ⟨p, hp, hvalue⟩ := owner_analyze hconstant ha hkind
  have hname := Tree.qualifiedName_eq_of_follow hgrown hgrown' hroot (hgrown.follow_dropLast hid hp)
    (hgrown'.follow_dropLast hid' hp') (analyze naming libraries units).1.naming.nestedSeparator
  have hsame : value = a.value := by
    rw [hvalue, ← hname, ← hnaming]
    exact hvalue'
  have hattribute : (⟨kind, value⟩ : Attribute) = a := by
    obtain ⟨akind, avalue⟩ := a
    exact congrArg₂ Attribute.mk (hdeclared.trans hkind.symm) hsame
  exact hattribute ▸ hb

theorem mem_analyze_of_sameEntries
    (h : (declaredApplication naming libraries units).components.SameEntries
      (declaredApplication naming libraries units').components)
    {x : List Symbol} {a : Attribute} (hedge : ¬ a.kind.IsEdge)
    (ha : a ∈ attributesOf ((analyze naming libraries units).1.components.entry x)) :
    a ∈ attributesOf ((analyze naming libraries units').1.components.entry x) := by
  have halike := (analyze_spec naming libraries units).1.alike
  have halike' := (analyze_spec naming libraries units').1.alike
  obtain ⟨id, hid⟩ := Tree.isSome_entry_iff.1 (Tree.isSome_of_mem_attributesOf ha)
  have hsome : ((analyze naming libraries units').1.components.entry x).isSome := by
    rw [halike'.isSome_entry, h.isSome, ← halike.isSome_entry]
    exact Tree.isSome_entry_iff.2 ⟨id, hid⟩
  obtain ⟨id', hid'⟩ := Tree.isSome_entry_iff.1 hsome
  rw [Tree.attributesOf_of_follow hid] at ha
  rw [Tree.attributesOf_of_follow hid']
  have hkind := congrArg Symbol.kind (Tree.symbol_eq_of_follow
    (symbol_root_analyze.trans symbol_root_analyze.symm) hid hid')
  -- What the structural phase adds is an edge or the type of an enum constant; all else was declared.
  by_cases hrelated : ((analyze naming libraries units).1.components.node id).Related a
  · obtain ⟨hconstant, hdeclared⟩ := hrelated.resolve_left hedge
    exact declaredType_mem_analyze hid hid' hconstant hdeclared ha
  · have hrelated' : ¬ ((analyze naming libraries units').1.components.node id').Related a :=
      fun hr => hrelated (hr.imp_right (And.imp_left hkind.symm.trans))
    rw [mem_attributes_analyze_iff hrelated] at ha
    rw [mem_attributes_analyze_iff hrelated']
    rw [halike.sameShape.follow] at hid
    rw [halike'.sameShape.follow] at hid'
    rw [← Tree.attributesOf_of_follow hid', h.attributes, Tree.attributesOf_of_follow hid]
    exact ha

/-- Runs that declare the same components and agree on some attributes list these in another order
at most. -/
theorem perm_filter_analyze
    (h : (declaredApplication naming libraries units).components.SameEntries
      (declaredApplication naming libraries units').components) {x : List Symbol}
    {keep : Attribute → Bool}
    (hmem : ∀ a, keep a = true →
      (a ∈ attributesOf ((analyze naming libraries units').1.components.entry x) ↔
        a ∈ attributesOf ((analyze naming libraries units).1.components.entry x))) :
    ((attributesOf ((analyze naming libraries units').1.components.entry x)).filter keep).Perm
      ((attributesOf ((analyze naming libraries units).1.components.entry x)).filter keep) := by
  have halike := (analyze_spec naming libraries units).1.alike
  have halike' := (analyze_spec naming libraries units').1.alike
  have hfilter : ∀ a,
      a ∈ (attributesOf ((analyze naming libraries units').1.components.entry x)).filter keep ↔
        a ∈ (attributesOf ((analyze naming libraries units).1.components.entry x)).filter keep := by
    intro a
    rw [List.mem_filter, List.mem_filter]
    exact and_congr_left (hmem a)
  by_cases hx : ((declaredApplication naming libraries units).components.entry x).isSome
  · have hx' : ((declaredApplication naming libraries units').components.entry x).isSome :=
      (h.isSome x).trans hx
    rw [attributesOf_analyze naming libraries units hx,
      attributesOf_analyze naming libraries units' hx', filter_unite, filter_unite, h.attributes] at *
    exact perm_unite (.refl _) hfilter
  · have hnone : (analyze naming libraries units).1.components.entry x = none := by
      rw [← Option.not_isSome_iff_eq_none, halike.isSome_entry]
      exact hx
    have hnone' : (analyze naming libraries units').1.components.entry x = none := by
      rw [← Option.not_isSome_iff_eq_none, halike'.isSome_entry, h.isSome]
      exact hx
    rw [hnone, hnone']

/-- The attributes of two runs that declare the same components, but for edges, differ in their
order at most. -/
theorem perm_analyze_of_sameEntries
    (h : (declaredApplication naming libraries units).components.SameEntries
      (declaredApplication naming libraries units').components) (x : List Symbol) :
    ((attributesOf ((analyze naming libraries units').1.components.entry x)).filter
      fun a => ¬ a.kind.IsEdge).Perm
        ((attributesOf ((analyze naming libraries units).1.components.entry x)).filter
          fun a => ¬ a.kind.IsEdge) := by
  refine perm_filter_analyze h fun a hedge => ⟨fun ha => ?_, fun ha => ?_⟩
  · exact mem_analyze_of_sameEntries h.symm (of_decide_eq_true hedge) ha
  · exact mem_analyze_of_sameEntries h (of_decide_eq_true hedge) ha

end Run

/-- Whatever the order of members, local types and types in the files, a run has the same paths, and
at each path the same attributes but for edges. -/
theorem analyze_of_reorders (naming : Naming) (libraries : List Library)
    {units units' : List CompilationUnit}
    (h : List.Forall₂ CompilationUnit.Reorders units units') (x : List Symbol) :
    ((analyze naming libraries units').1.components.entry x).isSome =
        ((analyze naming libraries units).1.components.entry x).isSome ∧
      ((attributesOf ((analyze naming libraries units').1.components.entry x)).filter
        fun a => ¬ a.kind.IsEdge).Perm
          ((attributesOf ((analyze naming libraries units).1.components.entry x)).filter
            fun a => ¬ a.kind.IsEdge) := by
  have hsame := sameEntries_declaredApplication naming libraries h
  refine ⟨?_, perm_analyze_of_sameEntries hsame x⟩
  rw [(analyze_spec naming libraries units).1.alike.isSome_entry,
    (analyze_spec naming libraries units').1.alike.isSome_entry, hsame.isSome]

/-- The class of `fieldAndClassUnit` with the member class before the field. -/
def classAndFieldUnit : CompilationUnit where
  sourceName := "T.java"
  package := none
  imports := []
  types := [.mk ⟨.classType, "T", [], [], none, [], false, default⟩
    [.type (.mk ⟨.classType, "In", ["static"], [], none, [], false, default⟩
        [.type (.mk ⟨.classType, "Sub", [], [], some "Later", [], false, default⟩ []),
          .type (.mk ⟨.classType, "Later", [], [], none, [], false, default⟩ [])]),
      .field ⟨["In"], [], "int", false, default⟩]]

/-- The two units differ in the order of the members of `T` only. With the member class first, `Sub`
extends `Later`; with the field first, it does not. -/
theorem edge_lost_by_order :
    fieldAndClassUnit.Reorders classAndFieldUnit ∧
    ((analyze {} [] [classAndFieldUnit]).1.components.node 4).value = "Sub" ∧
    ⟨.extendsType, "default.T$In$Later"⟩ ∈
      ((analyze {} [] [classAndFieldUnit]).1.components.node 4).attributes ∧
    ((analyze {} [] [fieldAndClassUnit]).1.components.node 5).value = "Sub" ∧
    ((analyze {} [] [fieldAndClassUnit]).1.components.node 5).hasAttributeOfKind .extendsType =
      false := by
  refine ⟨⟨rfl, rfl, rfl, .members _ _ (.swap _ (List.disjoint_left.2 (by decide)))⟩, ?_⟩
  decide +kernel

end SymbolTable
