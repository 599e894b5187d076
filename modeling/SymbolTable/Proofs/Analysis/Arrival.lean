import SymbolTable.Proofs.Analysis.SearchOrder

/-!
# Arriving at a type

When the walk of a file has come to a type, the cursor is at the path that the events before it lead
to, and the file sees all that it will ever see. At a top-level type the types before it are in the
tree and those after it are not. Relating the type to others keeps it so.
-/

namespace SymbolTable

open SymbolTable.Tree (root)
open SymbolTable.Tree.Entry (attributesOf)

/-! ## The events up to a type -/

theorem TypeDecl.eventsOfList_append (ds ds' : List TypeDecl) :
    eventsOfList (ds ++ ds') = eventsOfList ds ++ eventsOfList ds' := by
  induction ds with
  | nil => rfl
  | cons d ds ih => rw [List.cons_append, eventsOfList, eventsOfList, ih, List.append_assoc]

theorem TypeDecl.eventsOfList_split {ds earlier later : List TypeDecl} {d : TypeDecl}
    (h : ds = earlier ++ d :: later) :
    eventsOfList ds =
      eventsOfList earlier ++ .enterType d :: (d.events.tail ++ eventsOfList later) := by
  obtain ⟨header, members⟩ := d
  rw [h, eventsOfList_append, eventsOfList, events]
  rfl

/-- The events of types, up to the start of `d`. -/
def TypeDecl.eventsUpTo (earlier : List TypeDecl) (d : TypeDecl) : List Event :=
  eventsOfList earlier ++ [.enterType d]

namespace CompilationUnit

/-- The events of the package and the imports. -/
def headingEvents (u : CompilationUnit) : List Event :=
  .enterUnit u :: (u.package.toList.map .enterPackage ++ u.imports.map .enterImport)

/-- How many events there are up to the start of the type after the events `before`. -/
def arrivalAt (u : CompilationUnit) (before : List Event) : Nat :=
  u.headingEvents.length + before.length + 1

/-- How many events there are up to the start of the type after `earlier`. -/
def arrival (u : CompilationUnit) (earlier : List TypeDecl) : Nat :=
  u.headingEvents.length + (TypeDecl.eventsOfList earlier).length + 1

section Arrival

variable {u : CompilationUnit} {before after : List Event} {d : TypeDecl}
  (hevents : TypeDecl.eventsOfList u.types = before ++ .enterType d :: after)
include hevents

theorem take_arrivalAt :
    u.events.take (u.arrivalAt before) = u.headingEvents ++ (before ++ [Event.enterType d]) := by
  have hsplit : u.events =
      u.headingEvents ++ (before ++ [Event.enterType d]) ++ (after ++ [.exitUnit u]) := by
    rw [events, hevents, headingEvents]
    simp
  have hlength : u.arrivalAt before =
      (u.headingEvents ++ (before ++ [Event.enterType d])).length := by
    rw [arrivalAt, List.length_append, List.length_append, List.length_singleton, Nat.add_assoc]
  rw [hsplit, hlength, List.take_left]

theorem types_ne_nil : u.types ≠ [] := by
  intro hnil
  rw [hnil, TypeDecl.eventsOfList] at hevents
  exact List.append_ne_nil_of_right_ne_nil before (List.cons_ne_nil _ _) hevents.symm

theorem isHeading_of_mem_before : ∀ e ∈ before ++ [Event.enterType d], e.isHeading = false := by
  intro e he
  refine TypeDecl.isHeading_of_mem u.types e ?_
  rw [hevents, List.append_cons]
  exact List.mem_append_left _ he

end Arrival

end CompilationUnit

namespace Scope

section Events

variable (s : Scope) (app : Application) (phase : Phase) {u : CompilationUnit}

/-- Before its first type a file is sound, and the cursor is at its package. -/
theorem sound_ensurePackage_heading :
    ((s.heading app phase u).ensurePackage app).Sound := by
  have hheading : (s.heading app phase u).Sound :=
    (acts_steps (sound_seed s app) _).sound (sound_seed s app)
  have hpackage : Acts app phase (s.heading app phase u) ((s.heading app phase u).ensurePackage app) :=
    acts_ensurePackage hheading
  exact hpackage.sound hheading

variable {before after : List Event} {d : TypeDecl}
  (hevents : TypeDecl.eventsOfList u.types = before ++ .enterType d :: after)
include hevents

/-- Whatever comes first, a type opens the package of the file. -/
theorem foldl_before_ensurePackage :
    (before ++ [Event.enterType d]).foldl (step app phase) s =
      (before ++ [Event.enterType d]).foldl (step app phase) (s.ensurePackage app) := by
  cases before with
  | nil => rw [List.nil_append, List.foldl_cons, List.foldl_cons, step, step, enterType_ensurePackage]
  | cons e before =>
    have hfirst : ∃ t, e = .enterType t := by
      obtain ⟨⟨h, members⟩, rest, htypes⟩ :=
        List.exists_cons_of_ne_nil (CompilationUnit.types_ne_nil hevents)
      rw [htypes, TypeDecl.eventsOfList, TypeDecl.events, List.cons_append, List.cons_append]
        at hevents
      exact ⟨_, (List.cons.inj hevents).1.symm⟩
    obtain ⟨t, rfl⟩ := hfirst
    rw [List.cons_append, List.foldl_cons, List.foldl_cons, step, step, enterType_ensurePackage]

theorem walkTo_arrivalAt : s.walkTo app phase u (u.arrivalAt before) =
    (before ++ [Event.enterType d]).foldl (step app phase)
      ((s.heading app phase u).ensurePackage app) := by
  rw [walkTo, CompilationUnit.take_arrivalAt hevents, List.foldl_append,
    ← foldl_before_ensurePackage _ app phase hevents]
  rfl

/-- The cursor is at the path that the events spell. -/
theorem at_arrivalAt : (s.walkTo app phase u (u.arrivalAt before)).At
    (before.foldl Event.pathAfter (u.packagePath app.naming) ++ [d.header.symbol]) := by
  have hpath : (before ++ [Event.enterType d]).foldl Event.pathAfter (u.packagePath app.naming) =
      before.foldl Event.pathAfter (u.packagePath app.naming) ++ [d.header.symbol] := by
    rw [List.foldl_append]
    rfl
  rw [s.walkTo_arrivalAt app phase hevents, ← hpath]
  exact at_steps app phase (s.sound_ensurePackage_heading app phase)
    (hasPackage_ensurePackage _ app)
    (s.ensurePackage_stands app phase u (CompilationUnit.types_ne_nil hevents)).2.cursor
    (CompilationUnit.isHeading_of_mem_before hevents)

/-- On arrival the type has just been declared, and related to others. -/
theorem exists_declareType_arrivalAt : ∃ s' : Scope,
    (s'.declareType app d.header).2.tree.Grown ∧
    (s'.declareType app d.header).2.At
      (before.foldl Event.pathAfter (u.packagePath app.naming) ++ [d.header.symbol]) ∧
    s.walkTo app phase u (u.arrivalAt before) =
      (s'.declareType app d.header).2.relateType app phase (s'.declareType app d.header).2.cursor
        d.header := by
  have hheading : ((s.heading app phase u).ensurePackage app).Sound :=
    s.sound_ensurePackage_heading app phase
  have hbefore : ∀ e ∈ before, e.isHeading = false := fun e he =>
    CompilationUnit.isHeading_of_mem_before hevents e (List.mem_append_left _ he)
  have hpackage := hasPackage_ensurePackage (s.heading app phase u) app
  have hview := sameView_steps app phase hbefore _ hpackage
  have hat := at_steps app phase hheading hpackage
    (s.ensurePackage_stands app phase u (CompilationUnit.types_ne_nil hevents)).2.cursor hbefore
  have hsound := (acts_steps hheading before : Acts app phase _ _).sound hheading
  refine ⟨before.foldl (step app phase) ((s.heading app phase u).ensurePackage app), ?_, ?_, ?_⟩
  · exact ((acts_declareType hsound d.header : Acts app phase _ _).sound hsound).grown
  · exact at_declareType app hsound (hview.hasPackage.trans hpackage) hat d.header
  · rw [s.walkTo_arrivalAt app phase hevents, List.foldl_append]
    exact enterType_eq _ app phase d.header

theorem views_arrivalAt : (s.walkTo app phase u (u.arrivalAt before)).Views app u := by
  obtain ⟨hvisible, hcontainers⟩ :=
    s.view_ensurePackage_heading app phase u (CompilationUnit.types_ne_nil hevents)
  rw [s.walkTo_arrivalAt app phase hevents]
  exact Views.of_sameView ⟨hvisible, hcontainers⟩
    (sameView_steps app phase (CompilationUnit.isHeading_of_mem_before hevents) _
      (hasPackage_ensurePackage _ app))

end Events

section Arrival

variable (s : Scope) (app : Application) (phase : Phase) {u : CompilationUnit}
  {earlier later : List TypeDecl} {d : TypeDecl} (hu : u.types = earlier ++ d :: later)
include hu

theorem walkTo_arrival : s.walkTo app phase u (u.arrival earlier) =
    (TypeDecl.eventsUpTo earlier d).foldl (step app phase)
      ((s.heading app phase u).ensurePackage app) :=
  s.walkTo_arrivalAt app phase (TypeDecl.eventsOfList_split hu)

theorem at_arrival : (s.walkTo app phase u (u.arrival earlier)).At
    (u.packagePath app.naming ++ [d.header.symbol]) := by
  have hat := s.at_arrivalAt app phase (TypeDecl.eventsOfList_split hu)
  rwa [TypeDecl.foldl_pathAfterOfList] at hat

theorem exists_declareType_arrival : ∃ s' : Scope,
    (s'.declareType app d.header).2.tree.Grown ∧
    (s'.declareType app d.header).2.At (u.packagePath app.naming ++ [d.header.symbol]) ∧
    s.walkTo app phase u (u.arrival earlier) = (s'.declareType app d.header).2.relateType app phase
      (s'.declareType app d.header).2.cursor d.header := by
  have hexists := s.exists_declareType_arrivalAt app phase (TypeDecl.eventsOfList_split hu)
  rwa [TypeDecl.foldl_pathAfterOfList] at hexists

theorem views_arrival : (s.walkTo app phase u (u.arrival earlier)).Views app u :=
  s.views_arrivalAt app phase (TypeDecl.eventsOfList_split hu)

end Arrival

end Scope

/-! ## The types of a file so far -/

namespace TypeDecl

variable {file : Option Attribute} {outer : List Symbol} {imports : List Component}

/-- Only a type itself is placed where it is declared; what it contains lies deeper. -/
theorem component_of_outer_eq {d : TypeDecl} {p : Placement}
    (hp : p ∈ d.placements file outer imports) (houter : p.outer = outer) :
    p.component = d.header.component file := by
  obtain ⟨h, members⟩ := d
  rw [placements, List.mem_cons, List.mem_append, List.mem_append, List.mem_append] at hp
  rcases hp with rfl | hp
  · rfl
  · have hdeep : outer ++ [(h.component file).symbol] <+: p.outer := by
      rcases hp with ((hp | hp) | hp) | hp
      · obtain ⟨i, -, rfl⟩ := List.mem_map.1 hp
        exact List.prefix_rfl
      · exact (inside_typeParameters p hp).outer
      · exact (Member.insideList members p hp).outer
      · exact (TypeHeader.inside_closing p hp).outer
    have hlength := hdeep.length_le
    rw [houter, List.length_append, List.length_singleton] at hlength
    exact absurd hlength (Nat.not_succ_le_self _)

theorem exists_of_outer_eq {ds : List TypeDecl} {p : Placement}
    (hp : p ∈ placementsOfList file outer imports ds) (houter : p.outer = outer) :
    ∃ d ∈ ds, p.component = d.header.component file := by
  induction ds with
  | nil =>
    rw [placementsOfList] at hp
    exact absurd hp List.not_mem_nil
  | cons d ds ih =>
    rw [placementsOfList, List.mem_append] at hp
    rcases hp with hp | hp
    · exact ⟨d, List.mem_cons_self, component_of_outer_eq hp houter⟩
    · obtain ⟨e, he, hcomponent⟩ := ih hp
      exact ⟨e, List.mem_cons_of_mem d he, hcomponent⟩

theorem placement_mem {ds : List TypeDecl} {d : TypeDecl} (hd : d ∈ ds) :
    ⟨outer, d.header.component file, false⟩ ∈ placementsOfList file outer imports ds := by
  induction ds with
  | nil => exact absurd hd List.not_mem_nil
  | cons e ds ih =>
    rw [placementsOfList, List.mem_append]
    rcases List.mem_cons.1 hd with rfl | hd
    · obtain ⟨h, members⟩ := d
      rw [placements]
      exact .inl List.mem_cons_self
    · exact .inr (ih hd)

end TypeDecl

namespace CompilationUnit

variable (u : CompilationUnit) {naming : Naming} {earlier later : List TypeDecl} {d : TypeDecl}
  {pls : List Placement}

theorem mem_placements_of_arrival (hu : u.types = earlier ++ d :: later)
    (hpls : ∀ p ∈ pls, p ∈ d.placements u.source (u.packagePath naming) (u.listedImports naming))
    {p : Placement} (hp : p ∈ u.packagePlacements naming ++ (TypeDecl.placementsOfList u.source
      (u.packagePath naming) (u.listedImports naming) earlier ++ pls)) :
    p ∈ u.placements naming := by
  rw [placements, hu, TypeDecl.placementsOfList_append, TypeDecl.placementsOfList]
  simp only [List.mem_append] at hp ⊢
  exact hp.imp_right (.imp_right fun hp => .inl (hpls p hp))

/-- A type that stands right below the package is the last or one of the earlier types. -/
theorem type_of_arrival
    (hpls : ∀ p ∈ pls, p ∈ d.placements u.source (u.packagePath naming) (u.listedImports naming))
    {p : Placement} (hp : p ∈ u.packagePlacements naming ++ (TypeDecl.placementsOfList u.source
      (u.packagePath naming) (u.listedImports naming) earlier ++ pls))
    (houter : p.outer = u.packagePath naming)
    (htype : p.component.kind.isTypeDeclaration = true) :
    p.component.symbol = d.header.symbol ∨
      ∃ e ∈ earlier, e.header.symbol = p.component.symbol := by
  simp only [List.mem_append] at hp
  rcases hp with hp | hp | hp
  · rw [(u.package_of_mem naming p hp).1] at htype
    cases htype
  · obtain ⟨e, he, hcomponent⟩ := TypeDecl.exists_of_outer_eq hp houter
    rw [hcomponent, TypeHeader.symbol_component]
    exact .inr ⟨e, he, rfl⟩
  · rw [TypeDecl.component_of_outer_eq (hpls p hp) houter, TypeHeader.symbol_component]
    exact .inl rfl

end CompilationUnit

namespace Scope

theorem alike_walkTo (s : Scope) (app : Application) (phase : Phase) (u : CompilationUnit)
    (n : Nat) : (s.walkTo app .declaration u n).Alike (s.walkTo app phase u n) := by
  apply Lockstep.foldl _ (u.events.take n) (Alike.refl (s.fullReset.seed app))
  intro s s' e h
  exact (lockstep_alike rfl phase).step h e

section Arrival

variable (s : Scope) (app : Application) (phase : Phase) {u : CompilationUnit}
  {earlier later : List TypeDecl} {d : TypeDecl} (hu : u.types = earlier ++ d :: later)
include hu

/-- The placements up to a top-level type are some of the placements of the unit: all of the types
before it and those with which it starts. -/
theorem builds_arrival : ∃ pls,
    Tree.empty.Builds (u.packagePlacements app.naming ++
        (TypeDecl.placementsOfList u.source (u.packagePath app.naming)
          (u.listedImports app.naming) earlier ++ pls))
      (s.walkTo app .declaration u (u.arrival earlier)).tree ∧
    ⟨u.packagePath app.naming, d.header.component u.source, false⟩ ∈ pls ∧
    ∀ p ∈ pls, p ∈ d.placements u.source (u.packagePath app.naming)
      (u.listedImports app.naming) := by
  have ht : u.types ≠ [] := hu ▸ by simp
  have himports : ∀ i ∈ u.listedImports app.naming, i.kind ≠ .root := by
    intro i hi
    obtain ⟨kind, hkind⟩ := u.kind_listedImports app.naming i hi
    rw [hkind]
    nofun
  obtain ⟨hbuilds, hstands⟩ := s.ensurePackage_stands app .declaration u ht
  obtain ⟨hearlier, hcursor⟩ := TypeDecl.runsOfList app u.source _ _ himports earlier _ hstands
  have henter := (places_enterType app (hearlier.stands hcursor hstands) himports d.header).1
  have hall := hbuilds.trans (hearlier.trans henter).toBuilds
  rw [s.walkTo_arrival app .declaration hu, TypeDecl.eventsUpTo, List.foldl_append]
  refine ⟨_, hall, List.mem_cons_self, ?_⟩
  obtain ⟨h, members⟩ := d
  intro p hp
  rw [TypeDecl.placements]
  rcases List.mem_cons.1 hp with rfl | hp
  · exact List.mem_cons_self
  · exact List.mem_cons_of_mem _ (List.mem_append_left _ (List.mem_append_left _ hp))

/-- Below the package of the file are the types up to the one that was just entered. -/
theorem isSome_type_arrival {sym : Symbol} (hsym : sym.kind.isTypeDeclaration = true) :
    ((s.walkTo app phase u (u.arrival earlier)).tree.entry
      (u.packagePath app.naming ++ [sym])).isSome ↔
        sym = d.header.symbol ∨ ∃ e ∈ earlier, e.header.symbol = sym := by
  obtain ⟨pls, hbuilds, hself, hpls⟩ := s.builds_arrival app hu
  rw [(s.alike_walkTo app phase u _).tree.isSome_entry]
  constructor
  · intro hsome
    have hkinds := fun p hp => u.kind_placements app.naming p (u.mem_placements_of_arrival hu hpls hp)
    rw [hbuilds.tree] at hsome
    rcases Tree.isSome_entry_places Tree.grown_empty hkinds hsome with hempty | ⟨p, hp, hpath⟩
    · rw [CompilationUnit.entry_empty] at hempty
      cases hempty
    · obtain ⟨houter, hsymbol⟩ := List.append_inj' hpath.symm rfl
      obtain rfl : p.component.symbol = sym := List.singleton_inj.1 hsymbol
      exact u.type_of_arrival hpls hp houter hsym
  · have hplaced : ∀ e : TypeDecl, (⟨u.packagePath app.naming, e.header.component u.source, false⟩ :
        Placement) ∈ TypeDecl.placementsOfList u.source (u.packagePath app.naming)
          (u.listedImports app.naming) earlier ++ pls →
        ((s.walkTo app .declaration u (u.arrival earlier)).tree.entry
          (u.packagePath app.naming ++ [e.header.symbol])).isSome := by
      intro e he
      obtain ⟨id, hid, -⟩ := hbuilds.placed _ (List.mem_append_right _ he) rfl
      rw [← e.header.symbol_component u.source]
      exact Tree.isSome_entry_iff.2 ⟨id, hid⟩
    rintro (rfl | ⟨e, he, rfl⟩)
    · exact hplaced d (List.mem_append_right _ hself)
    · exact hplaced e (List.mem_append_left _ (TypeDecl.placement_mem he))

end Arrival

end Scope

/-- At every point of a walk over the analyzed program, each node of the file is in the program too:
with its symbol, its attributes and its qualified name. -/
theorem exists_copy_analyze {naming : Naming} {libraries : List Library}
    {units : List CompilationUnit} {app : Application}
    (happ : (analyze naming libraries units).1 = app) {u : CompilationUnit} (hu : u ∈ units)
    (s : Scope) (phase : Phase) (n : Nat) {path : List Symbol} {j : NodeId}
    (hj : (s.walkTo app phase u n).tree.follow root path = some j) :
    ∃ k, app.components.follow root path = some k ∧
      (app.components.node k).symbol = ((s.walkTo app phase u n).tree.node j).symbol ∧
      (∀ a ∈ ((s.walkTo app phase u n).tree.node j).attributes,
        a ∈ (app.components.node k).attributes) ∧
      ∀ nested, app.components.qualifiedName k nested =
        (s.walkTo app phase u n).tree.qualifiedName j nested := by
  subst happ
  have hdeclares := declares_declaredApplication naming libraries units
  have htree : (s.walk (analyze naming libraries units).1 phase u).tree =
      (declaredApplication naming libraries units).treeOf phase u :=
    hdeclares.build_eq (analyze_spec naming libraries units).1 s phase u
  have hw := (s.sound_walkTo (analyze naming libraries units).1 phase u n).grown
  have hgrowth := s.growth_walkTo (analyze naming libraries units).1 phase u n
  have hlt := hw.follow_lt hw.root_lt hj
  rw [htree] at hgrowth
  obtain ⟨k, hk, hsymbol, hattributes, hname⟩ :=
    exists_node_analyze hu phase (hgrowth.follow hw hw.root_lt hj)
  refine ⟨k, hk, hsymbol.trans (hgrowth.symbol hlt), fun a ha => ?_, fun nested => ?_⟩
  · exact hattributes a ((hgrowth.attributes hlt).subset ha)
  · rw [hname, hgrowth.qualifiedName hw (Application.grown_treeOf _ phase u) hlt]

end SymbolTable
