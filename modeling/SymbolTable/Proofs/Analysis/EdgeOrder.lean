import SymbolTable.Proofs.Analysis.DeclarationOrder
import SymbolTable.Proofs.Analysis.SiteWalk
import SymbolTable.Proofs.Tree.Outline

/-!
# Edges in any order

When each type name has one meaning, the edges of a run can be read off the program that the
declaration phase has found: a site leads to what its type texts mean there. Meanings do not depend
on the order of declarations, so neither do the edges, and files in another order have the same
symbol table.
-/

namespace SymbolTable

open SymbolTable.Tree (root)
open SymbolTable.Tree.Entry (attributesOf)

/-! ## Before the first type -/

theorem CompilationUnit.plain_of_mem (naming : Naming) (u : CompilationUnit) :
    ∀ p ∈ u.packagePlacements naming, p.component.Plain := by
  intro p hp
  unfold packagePlacements at hp
  split at hp
  · obtain ⟨hkind, -, hnil⟩ := package_of_mem_packagePlacements [] _ p hp
    exact ⟨hkind ▸ nofun, hkind ▸ nofun, fun _ a ha => absurd (hnil ▸ ha) List.not_mem_nil⟩
  · split at hp
    · exact absurd hp List.not_mem_nil
    · rw [List.mem_singleton.1 hp]
      refine Scope.plain_packageComponent _ fun a ha => ?_
      rw [← Option.some.inj (Option.mem_toList.1 ha)]

/-- What only has the packages of a file has no edges. -/
theorem Tree.Builds.not_mem_edges {naming : Naming} {u : CompilationUnit} {t : Tree}
    (h : Tree.empty.Builds (u.packagePlacements naming) t) {y : List Symbol} {a : Attribute}
    (hedge : a.kind.IsEdge) : a ∉ attributesOf (t.entry y) := by
  intro ha
  have hplain := u.plain_of_mem naming
  rw [h.tree] at ha
  rcases Tree.mem_attributes_places Tree.grown_empty (fun p hp => (hplain p hp).ne_root) ha with
    ha | ⟨p, hp, -, ha⟩
  · rw [CompilationUnit.attributesOf_empty] at ha
    exact absurd ha List.not_mem_nil
  · exact absurd rfl ((hplain p hp).lacks hedge a ha)

namespace Scope

variable (s : Scope) (app : Application) (phase : Phase) (u : CompilationUnit)

theorem imports_ensurePackage : (s.ensurePackage app).imports = s.imports := by
  unfold ensurePackage
  split
  · rfl
  · rw [(of_clearVisible_eq (clearVisible_openPackage _ app _)).2.2.2.2, enter_eq, put_eq]
    rfl

theorem imports_heading : (s.heading app phase u).imports = u.importComponents := by
  have hpackage : ((u.package.toList.map Event.enterPackage).foldl (step app phase)
      (step app phase (s.fullReset.seed app) (.enterUnit u))).imports = [] := by
    cases u.package with
    | none => rfl
    | some p =>
      have hentered := (places_enterPackages []
        (s := step app phase (s.fullReset.seed app) (.enterUnit u)) p.segments Tree.grown_empty
        rfl).1.imports
      exact (of_clearVisible_eq (clearVisible_openPackage _ app _)).2.2.2.2.trans hentered
  have hclear := congrArg Scope.imports (clearVisible_enterImports
    ((u.package.toList.map Event.enterPackage).foldl (step app phase)
      (step app phase (s.fullReset.seed app) (.enterUnit u))) app phase u.imports)
  rw [hpackage] at hclear
  rw [heading, List.foldl_cons, List.foldl_append]
  exact hclear

/-- Before its first type a file is underway. -/
theorem underway_heading (ht : u.types ≠ []) :
    ((s.heading app phase u).ensurePackage app).Underway app u (u.packagePath app.naming) := by
  obtain ⟨hbuilds, hstands⟩ := s.ensurePackage_stands app phase u ht
  obtain ⟨hvisible, hcontainers⟩ := s.view_ensurePackage_heading app phase u ht
  refine ⟨s.sound_ensurePackage_heading app phase, hstands.hasPackage, hstands.cursor,
    ⟨hvisible, hcontainers⟩, ?_, fun {x j} hj htype => ?_⟩
  · rw [imports_ensurePackage, imports_heading]
    exact u.kind_importComponents
  · have hpackages := u.package_of_mem app.naming
    have hsome := Tree.isSome_entry_iff.2 ⟨j, hj⟩
    rw [hbuilds.tree] at hsome
    rcases Tree.isSome_entry_places Tree.grown_empty
      (fun p hp => (u.plain_of_mem app.naming p hp).ne_root) hsome with hempty | ⟨p, hp, rfl⟩
    · rcases List.eq_nil_or_concat' x with rfl | ⟨outer, sym, rfl⟩
      · rw [← Option.some.inj hj, hbuilds.grown.kind_root] at htype
        cases htype
      · rw [CompilationUnit.entry_empty] at hempty
        cases hempty
    · have hkind : (((s.heading app phase u).ensurePackage app).tree.node j).kind =
          p.component.kind := congrArg Symbol.kind (Tree.symbol_of_follow_concat hj)
      rw [hkind, (hpackages p hp).1] at htype
      cases htype

end Scope

namespace CompilationUnit

/-- The edges that the sites of a file lead to in the program. -/
def edges (app : Application) (u : CompilationUnit) : List PathEdge :=
  (u.sites app.naming).flatMap (app.edgesAt u)

variable {app : Application} {u : CompilationUnit} {y : List Symbol} {a : Attribute}

/-- The structural phase gives a file the edges of its sites. -/
theorem mem_edges_treeOf (happ : app.Hosts u) (hedge : a.kind.IsEdge) :
    a ∈ attributesOf ((app.treeOf .structural u).entry y) ↔ ⟨y, a⟩ ∈ u.edges app := by
  have hwalk : app.treeOf .structural u = ((TypeDecl.eventsOfList u.types).foldl
      (Scope.step app .structural) (({} : Scope).heading app .structural u)).tree := by
    rw [← Scope.walk_eq]
    rfl
  by_cases ht : u.types = []
  · have hbuilds := ({} : Scope).builds_heading app .structural u ht
    rw [hwalk, edges, sites, ht, TypeDecl.eventsOfList]
    exact iff_of_false (hbuilds.not_mem_edges hedge) List.not_mem_nil
  · have hunderway := ({} : Scope).underway_heading app .structural u ht
    have hbuilds := (({} : Scope).ensurePackage_stands app .structural u ht).1
    rw [Scope.foldl_events_ensurePackage _ app .structural u ht] at hwalk
    rw [hwalk, hunderway.mem_edges_steps happ (TypeDecl.isHeading_of_mem u.types)
      (fun _ hsite => hsite) (hwalk ▸ .refl _) hedge]
    exact or_iff_right (hbuilds.not_mem_edges hedge)

/-- The declaration phase gives it none. -/
theorem not_mem_edges_skeleton (naming : Naming) (u : CompilationUnit) (hedge : a.kind.IsEdge) :
    a ∉ attributesOf ((u.skeleton naming).entry y) := by
  have hwalk : u.skeleton naming =
      ((TypeDecl.eventsOfList u.types).foldl (Scope.step { naming } .declaration)
        (({} : Scope).heading { naming } .declaration u)).tree := by
    rw [← Scope.walk_eq]
    rfl
  by_cases ht : u.types = []
  · have hbuilds := ({} : Scope).builds_heading { naming } .declaration u ht
    rw [hwalk, ht, TypeDecl.eventsOfList]
    exact hbuilds.not_mem_edges hedge
  · have hunderway := ({} : Scope).underway_heading { naming } .declaration u ht
    have hbuilds := (({} : Scope).ensurePackage_stands { naming } .declaration u ht).1
    rw [Scope.foldl_events_ensurePackage _ { naming } .declaration u ht] at hwalk
    rw [hwalk, hunderway.mem_edges_declaration (TypeDecl.isHeading_of_mem u.types)
      (fun _ hsite => hsite) hedge]
    exact hbuilds.not_mem_edges hedge

end CompilationUnit

/-! ## The edges of a run -/

/-- Each type name of the files has one meaning: coordinates tell types apart, no named type is
marked as an anonymous class, and a file finds its own types under their names. -/
structure Application.Unambiguous (app : Application) (units : List CompilationUnit) : Prop where
  legible : app.components.Legible app.naming.delimiter
  keepsNames : ∀ u ∈ units, u.KeepsNames app
  seesOwnTypes : ∀ u ∈ units, u.SeesOwnTypes app

section Run

variable {naming : Naming} {libraries : List Library} {units : List CompilationUnit}

theorem symbol_root_declaredApplication (naming : Naming) (libraries : List Library)
    (units : List CompilationUnit) :
    ((declaredApplication naming libraries units).components.node root).symbol =
      (Tree.empty.node root).symbol := by
  rw [declaredApplication_components]
  exact Tree.symbol_root_mergeAll Tree.grown_empty (grown_skeletons naming units)

variable (h : (declaredApplication naming libraries units).Unambiguous units)
include h

theorem Application.Unambiguous.hosts {u : CompilationUnit} (hu : u ∈ units) :
    (declaredApplication naming libraries units).Hosts u where
  grown := (declares_declaredApplication naming libraries units).grown
  symbol_root := symbol_root_declaredApplication naming libraries units
  includes := (declares_declaredApplication naming libraries units).includes u hu
  legible := h.legible
  keepsNames := h.keepsNames u hu
  seesOwnTypes := h.seesOwnTypes u hu

/-- The edges of a run are those that the sites of the files lead to, read in the program of the
declaration phase. -/
theorem mem_edges_analyze {x : List Symbol} {a : Attribute} (hedge : a.kind.IsEdge) :
    a ∈ attributesOf ((analyze naming libraries units).1.components.entry x) ↔
      ⟨x, a⟩ ∈ units.flatMap (·.edges (declaredApplication naming libraries units)) := by
  rw [components_analyze, Tree.mem_attributesOf_mergeAll Tree.grown_empty
    (grown_sources naming libraries units), CompilationUnit.attributesOf_empty, List.mem_flatMap]
  constructor
  · rintro (ha | ⟨source, hsource, ha⟩)
    · exact absurd ha List.not_mem_nil
    · obtain ⟨phase, -, hsource⟩ := List.mem_flatMap.1 hsource
      obtain ⟨u, hu, rfl⟩ := List.mem_map.1 hsource
      cases phase with
      | declaration =>
        rw [Application.treeOf_declaration] at ha
        exact absurd ha (u.not_mem_edges_skeleton _ hedge)
      | structural => exact ⟨u, hu, (CompilationUnit.mem_edges_treeOf (h.hosts hu) hedge).1 ha⟩
  · rintro ⟨u, hu, ha⟩
    exact .inr ⟨_, List.mem_flatMap.2 ⟨.structural, by decide, List.mem_map_of_mem hu⟩,
      (CompilationUnit.mem_edges_treeOf (h.hosts hu) hedge).2 ha⟩

end Run

/-! ## Another order -/

theorem TypeDecl.Reorders.perm_headers {ds ds' : List TypeDecl} (h : TypeDecl.Reorders ds ds') :
    (ds.map (·.header)).Perm (ds'.map (·.header)) := by
  induction h with
  | refl ds => exact .refl _
  | trans _ _ ih ih' => exact ih.trans ih'
  | cons d _ ih => exact ih.cons _
  | swap ds _ => exact .swap _ _ _
  | members h rest _ => exact .refl _

namespace Application.Twins

variable {app app' : Application} (h : app.Twins app')
include h

section File

variable {u u' : CompilationUnit} (hu : u.Reorders u')
include hu

theorem keepsNames (hkeeps : u.KeepsNames app) : u'.KeepsNames app' := by
  intro site hsite hnamed
  rw [h.naming] at hsite
  rw [h.program.entries.attributes]
  exact hkeeps site ((hu.perm_sites app.naming).mem_iff.2 hsite) hnamed

theorem seesOwnTypes (hown : u.SeesOwnTypes app) : u'.SeesOwnTypes app' := by
  have hheader : ∀ d' ∈ u'.types, ∃ d ∈ u.types, d.header = d'.header := fun d' hd' =>
    List.mem_map.1 (hu.types.perm_headers.mem_iff.2 (List.mem_map_of_mem hd'))
  rintro d' hd' ⟨e', he', hne⟩ id' hid' hnamed
  obtain ⟨d, hd, hsame⟩ := hheader d' hd'
  obtain ⟨e, he, hsame'⟩ := hheader e' he'
  rw [h.naming, hu.packagePath, ← hsame] at hid'
  rw [← hsame, ← hsame'] at hne
  rw [← hsame] at hnamed ⊢
  obtain ⟨id, hid⟩ := Tree.isSome_entry_iff.1
    ((h.program.entries.isSome _).symm.trans (Tree.isSome_entry_iff.2 ⟨id', hid'⟩))
  have hfirst := hown d hd ⟨e, he, hne⟩ id hid
    ((h.program.accept_eq ⟨_, hid, hid'⟩ (.isNamedType _)).symm.trans hnamed)
  have hrel := h.firstType_searched u d.header.name
  rw [hfirst] at hrel
  rw [app'.searched_of_reorders hu]
  generalize app'.firstType (u.searched app') d.header.name = found at hrel ⊢
  cases hrel with
  | some hfound =>
    cases hfound with
    | program hpath =>
      obtain ⟨y, hy, hy'⟩ := hpath
      obtain rfl := h.program.grown.follow_inj hid hy
      rw [Option.some.inj (hy'.symm.trans hid')]
      rfl

theorem perm_edges : (u.edges app).Perm (u'.edges app') := by
  have hreads : app'.edgesAt u' = app.edgesAt u := by
    rw [edgesAt, edgesAt, app'.reads_of_reorders hu, h.reads_eq, h.naming]
  rw [CompilationUnit.edges, CompilationUnit.edges, hreads, h.naming]
  exact (hu.perm_sites app.naming).flatMap_right _

end File

variable {units units' : List CompilationUnit}
  (hunits : List.Forall₂ CompilationUnit.Reorders units units')
include hunits

theorem unambiguous (hunique : app.Unambiguous units) : app'.Unambiguous units' := by
  have hunit : ∀ u' ∈ units', ∃ u ∈ units, u.Reorders u' := by
    clear hunique
    induction hunits with
    | nil => exact fun _ hu' => absurd hu' List.not_mem_nil
    | cons hu _ ih =>
      refine List.forall_mem_cons.2 ⟨⟨_, List.mem_cons_self, hu⟩, fun u' hu' => ?_⟩
      obtain ⟨u, hmem, hu⟩ := ih u' hu'
      exact ⟨u, List.mem_cons_of_mem _ hmem, hu⟩
  refine ⟨?_, fun u' hu' => ?_, fun u' hu' => ?_⟩
  · rw [h.naming]
    exact h.program.symm.legible
  · obtain ⟨u, hmem, hu⟩ := hunit u' hu'
    exact h.keepsNames hu (hunique.keepsNames u hmem)
  · obtain ⟨u, hmem, hu⟩ := hunit u' hu'
    exact h.seesOwnTypes hu (hunique.seesOwnTypes u hmem)

theorem perm_allEdges : (units.flatMap (·.edges app)).Perm (units'.flatMap (·.edges app')) := by
  induction hunits with
  | nil => rw [List.flatMap_nil, List.flatMap_nil]
  | cons hu _ ih =>
    rw [List.flatMap_cons, List.flatMap_cons]
    exact (h.perm_edges hu).append ih

end Application.Twins

section Order

variable {naming : Naming} {libraries : List Library} {units units' : List CompilationUnit}
  (hunits : List.Forall₂ CompilationUnit.Reorders units units')
include hunits

theorem twins_declaredApplication
    (hlegible : (declaredApplication naming libraries units).components.Legible
      (declaredApplication naming libraries units).naming.delimiter) :
    (declaredApplication naming libraries units).Twins
      (declaredApplication naming libraries units') where
  naming := by rw [declaredApplication_naming, declaredApplication_naming]
  libraries := by rw [declaredApplication_eq, declaredApplication_eq]
  program :=
    { grown := (declares_declaredApplication naming libraries units).grown
      grown' := (declares_declaredApplication naming libraries units').grown
      symbol_root := (symbol_root_declaredApplication naming libraries units').trans
        (symbol_root_declaredApplication naming libraries units).symm
      entries := sameEntries_declaredApplication naming libraries hunits
      legible := hlegible }

variable (h : (declaredApplication naming libraries units).Unambiguous units)
include h

/-- The edges are the same in every order. -/
theorem mem_edges_of_reorders {x : List Symbol} {a : Attribute} (hedge : a.kind.IsEdge) :
    a ∈ attributesOf ((analyze naming libraries units').1.components.entry x) ↔
      a ∈ attributesOf ((analyze naming libraries units).1.components.entry x) := by
  have htwins := twins_declaredApplication hunits h.legible
  rw [mem_edges_analyze h hedge, mem_edges_analyze (htwins.unambiguous hunits h) hedge]
  exact (htwins.perm_allEdges hunits).mem_iff.symm

theorem sameContent_of_reorders :
    (analyze naming libraries units).1.components.SameContent
      (analyze naming libraries units').1.components := by
  have hsame := sameEntries_declaredApplication naming libraries hunits
  refine ⟨symbol_root_analyze.trans symbol_root_analyze.symm, fun x => ?_, fun x => ?_⟩
  · rw [(analyze_spec naming libraries units).1.alike.isSome_entry,
      (analyze_spec naming libraries units').1.alike.isSome_entry, hsame.isSome]
  · have hmem : ∀ a, a ∈ attributesOf ((analyze naming libraries units').1.components.entry x) ↔
        a ∈ attributesOf ((analyze naming libraries units).1.components.entry x) := by
      intro a
      by_cases hedge : a.kind.IsEdge
      · exact mem_edges_of_reorders hunits h hedge
      · exact ⟨mem_analyze_of_sameEntries hsame.symm hedge, mem_analyze_of_sameEntries hsame hedge⟩
    have hperm : ((attributesOf ((analyze naming libraries units').1.components.entry x)).filter
        fun _ => true).Perm ((attributesOf
          ((analyze naming libraries units).1.components.entry x)).filter fun _ => true) :=
      perm_filter_analyze hsame fun a _ => hmem a
    rwa [List.filter_true, List.filter_true] at hperm

end Order

/-- Whatever the order of members, local types and types in the files, a run has the same paths, and
at each path the same attributes but for edges. When each type name has one meaning, the edges are
the same too: there is one outline, and at every path one collection of attributes. -/
theorem canonicalOutline_analyze_of_reorders (naming : Naming) (libraries : List Library)
    {units units' : List CompilationUnit}
    (hunits : List.Forall₂ CompilationUnit.Reorders units units') :
    (∀ x, ((analyze naming libraries units').1.components.entry x).isSome =
          ((analyze naming libraries units).1.components.entry x).isSome ∧
        ((attributesOf ((analyze naming libraries units').1.components.entry x)).filter
          fun a => ¬ a.kind.IsEdge).Perm
            ((attributesOf ((analyze naming libraries units).1.components.entry x)).filter
              fun a => ¬ a.kind.IsEdge)) ∧
    ((declaredApplication naming libraries units).Unambiguous units →
      (analyze naming libraries units').1.components.canonicalOutline =
          (analyze naming libraries units).1.components.canonicalOutline ∧
        ∀ x, (attributesOf ((analyze naming libraries units').1.components.entry x)).Perm
          (attributesOf ((analyze naming libraries units).1.components.entry x))) := by
  refine ⟨analyze_of_reorders naming libraries hunits, fun h => ?_⟩
  have hcontent := sameContent_of_reorders hunits h
  exact ⟨hcontent.canonicalOutline (grown_analyze naming libraries units)
    (grown_analyze naming libraries units'), hcontent.attributes⟩

/-- A class with the members. -/
def outerUnit (members : List Member) : CompilationUnit where
  sourceName := "Outer.java"
  package := some ⟨["p"], default⟩
  imports := []
  types := [.mk ⟨.classType, "Outer", [], [], none, [], false, default⟩ members]

def derivedMember : Member :=
  .type (.mk ⟨.classType, "Derived", [], [], some "Base", [], false, default⟩ [])

def baseMember : Member :=
  .type (.mk ⟨.classType, "Base", [], [], none, [], false, default⟩ [])

/-- The program between the phases, with the derived class before its base class. -/
def outerApplication : Application :=
  declaredApplication {} [] [outerUnit [derivedMember, baseMember]]

theorem unambiguous_outerApplication :
    outerApplication.Unambiguous [outerUnit [derivedMember, baseMember]] where
  legible := by
    have hdistinct : ∀ i < outerApplication.components.size,
        ∀ j < outerApplication.components.size, i ≠ root → j ≠ root →
          outerApplication.components.coordinate i "." =
            outerApplication.components.coordinate j "." → i = j := by decide +kernel
    refine ⟨?_, fun i hi j hj hiroot hjroot heq => .inl (hdistinct i hi j hj hiroot hjroot heq)⟩
    decide +kernel
  keepsNames := by
    unfold CompilationUnit.KeepsNames
    decide +kernel
  seesOwnTypes := by
    unfold CompilationUnit.SeesOwnTypes
    decide +kernel

/-- The derived class extends the base class, whichever comes first. -/
theorem canonicalOutline_analyze_outerUnit :
    List.Forall₂ CompilationUnit.Reorders [outerUnit [derivedMember, baseMember]]
        [outerUnit [baseMember, derivedMember]] ∧
      outerApplication.Unambiguous [outerUnit [derivedMember, baseMember]] ∧
      (analyze {} [] [outerUnit [baseMember, derivedMember]]).1.components.canonicalOutline =
        (analyze {} [] [outerUnit [derivedMember, baseMember]]).1.components.canonicalOutline ∧
      ⟨.extendsType, "p.Outer$Base"⟩ ∈ attributesOf
        ((analyze {} [] [outerUnit [derivedMember, baseMember]]).1.components.entry
          [packageSymbol "p", ⟨.classType, "Outer", none⟩, ⟨.classType, "Derived", none⟩]) := by
  have hunits : List.Forall₂ CompilationUnit.Reorders [outerUnit [derivedMember, baseMember]]
      [outerUnit [baseMember, derivedMember]] :=
    .cons ⟨rfl, rfl, rfl, .members _ _ (.swap _ (List.disjoint_left.2 (by decide)))⟩ .nil
  refine ⟨hunits, unambiguous_outerApplication, ?_, by decide +kernel⟩
  exact ((canonicalOutline_analyze_of_reorders {} [] hunits).2 unambiguous_outerApplication).1

end SymbolTable
