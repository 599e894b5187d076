import SymbolTable.Proofs.Analysis.DeclarationWalk

/-!
# The tree of a unit

The declaration phase builds the placements of the unit, in any application: the tree of a unit
depends on its syntax and on the name of the default package. What holds of a component at a path of
that tree is what holds of the placements at the path.
-/

namespace SymbolTable

open SymbolTable.Tree (root)

namespace Scope

/-! ## Headings of a file -/

section Heading

variable (s : Scope) (app : Application)

theorem clearVisible_openPackage (coordinate : String) :
    (s.openPackage app coordinate).clearVisible = s.clearVisible := by
  unfold openPackage
  split <;> rfl

theorem clearVisible_openImport (i : ImportDecl) :
    (s.openImport app i).clearVisible = s.clearVisible := by
  unfold openImport
  split
  · split
    · rfl
    · unfold addVisible
      split <;> rfl
  · rfl

theorem addImport_fst (c : Component) :
    (s.addImport c).1 = { s with imports := recordImport s.imports c } := by
  unfold addImport recordImport
  split <;> rfl

theorem clearVisible_enterImports (phase : Phase) (is : List ImportDecl) :
    ((is.map Event.enterImport).foldl (step app phase) s).clearVisible =
      { s.clearVisible with
        imports := is.foldl (fun known i => recordImport known (importComponent i)) s.imports } := by
  induction is generalizing s with
  | nil => rfl
  | cons i is ih =>
    have hstep : (step app phase s (.enterImport i)).clearVisible =
        { s.clearVisible with imports := recordImport s.imports (importComponent i) } := by
      rw [step, enterImport_eq, clearVisible_openImport, addImport_fst]
      rfl
    have himports := congrArg Scope.imports hstep
    rw [List.map_cons, List.foldl_cons, ih, hstep]
    simp only [clearVisible] at himports ⊢
    rw [himports]
    rfl

/-- Scopes that differ in nothing but what is visible. -/
theorem of_clearVisible_eq {s s' : Scope} (h : s.clearVisible = s'.clearVisible) :
    s.tree = s'.tree ∧ s.cursor = s'.cursor ∧ s.file = s'.file ∧
      s.hasPackage = s'.hasPackage ∧ s.imports = s'.imports := by
  simp only [clearVisible, Scope.mk.injEq] at h
  exact ⟨h.1, h.2.1, h.2.2.1, h.2.2.2.2.1, h.2.2.2.2.2.1⟩

theorem stands_of_clearVisible {s s' : Scope} {file : Option Attribute} {outer : List Symbol}
    {imports : List Component} (h : s.clearVisible = s'.clearVisible)
    (hs : s'.Stands file outer imports) : s.Stands file outer imports := by
  obtain ⟨htree, hcursor, hfile, hpackage, himports⟩ := of_clearVisible_eq h
  refine ⟨htree ▸ hs.grown, ?_, hfile.trans hs.file, hpackage.trans hs.hasPackage, ?_⟩
  · rw [htree, hcursor]
    exact hs.cursor
  · rw [htree, hcursor, himports]
    exact hs.imports

theorem places_enterPackages (outer : List Symbol) {s : Scope} (names : List String)
    (hs : s.tree.Grown) (hcursor : s.tree.follow root outer = some s.cursor) :
    let entered := names.foldl (fun s name => (s.enter (packageComponent name [])).2) s
    s.Places (packagePlacements outer names) entered ∧
      entered.tree.follow root (outer ++ names.map packageSymbol) = some entered.cursor := by
  induction names generalizing s outer with
  | nil => exact ⟨Places.refl hs, by simpa using hcursor⟩
  | cons name names ih =>
    have hput := places_put hs hcursor (c := packageComponent name []) nofun
    obtain ⟨hrest, hat⟩ := ih (outer ++ [packageSymbol name])
      (s := (s.enter (packageComponent name [])).2) hput.1.grown hput.2
    refine ⟨(hput.1.moveTo _).trans hrest, ?_⟩
    rw [List.map_cons, List.append_cons]
    exact hat

theorem ensurePackage_of_hasPackage (h : s.hasPackage = true) : s.ensurePackage app = s := by
  unfold ensurePackage
  rw [h]
  rfl

theorem hasPackage_ensurePackage : (s.ensurePackage app).hasPackage = true := by
  unfold ensurePackage
  split
  · next h => exact h
  · exact congrArg Scope.hasPackage (clearVisible_openPackage _ app _)

/-- Entering a type enters the package first. -/
theorem enterType_ensurePackage (phase : Phase) (h : TypeHeader) :
    (s.ensurePackage app).enterType app phase h = s.enterType app phase h := by
  have hidem := ensurePackage_of_hasPackage _ app (s.hasPackage_ensurePackage app)
  have hdeclare : (s.ensurePackage app).declareType app h = s.declareType app h := by
    unfold declareType
    rw [hidem]
  rw [enterType_eq, enterType_eq, hdeclare]

end Heading

/-- What the scope of a file is before its first type. -/
def heading (s : Scope) (app : Application) (phase : Phase) (u : CompilationUnit) : Scope :=
  (Event.enterUnit u :: (u.package.toList.map .enterPackage ++ u.imports.map .enterImport)).foldl
    (step app phase) (s.fullReset.seed app)

section Unit

variable (s : Scope) (app : Application) (phase : Phase) (u : CompilationUnit)

theorem walk_eq : s.walk app phase u =
    (TypeDecl.eventsOfList u.types).foldl (step app phase) (s.heading app phase u) := by
  rw [walk, CompilationUnit.events, heading, ← List.foldl_append, ← List.cons_append,
    ← List.cons_append, List.foldl_append]
  rfl

/-- Along package segments only the root is no package. -/
theorem kind_eq_package_iff {t : Tree} {id : NodeId} {segments : List String} (ht : t.Grown)
    (hat : t.follow root (segments.map packageSymbol) = some id) :
    (t.node id).kind = .package ↔ segments.map packageSymbol ≠ [] := by
  rcases List.eq_nil_or_concat segments with hnil | ⟨names, name, hconcat⟩
  · rw [hnil] at hat ⊢
    rw [← Option.some.inj hat, ht.kind_root]
    simp
  · rw [hconcat, List.concat_eq_append, List.map_append] at hat ⊢
    have hlast : (t.node id).kind = .package :=
      congrArg Symbol.kind (Tree.symbol_of_follow_concat hat)
    simp [hlast]

theorem heading_of_package {p : PackageDecl} (hp : u.package = some p) :
    Tree.empty.Builds (u.packagePlacements app.naming) (s.heading app phase u).tree ∧
      (s.heading app phase u).Stands u.source (u.packagePath app.naming)
        (u.listedImports app.naming) := by
  obtain ⟨hplaces, hat⟩ := places_enterPackages []
    (s := { s.fullReset.seed app with file := u.source }) p.segments Tree.grown_empty rfl
  generalize hentered : p.segments.foldl (fun s name => (s.enter (packageComponent name [])).2)
    { s.fullReset.seed app with file := u.source } = entered at hplaces hat
  -- Up to visibility the imports are all that is added after the package.
  have hclear : (s.heading app phase u).clearVisible =
      { entered with hasPackage := true, imports := u.importComponents }.clearVisible := by
    have hpackage := clearVisible_openPackage { entered with hasPackage := true } app
      (app.naming.delimiter.intercalate p.segments)
    have himports := (of_clearVisible_eq hpackage).2.2.2.2
    have hopened : ((some p).toList.map Event.enterPackage).foldl (step app phase)
        (step app phase (s.fullReset.seed app) (.enterUnit u)) =
          { entered with hasPackage := true }.openPackage app
            (app.naming.delimiter.intercalate p.segments) := by
      rw [← hentered]
      rfl
    rw [heading, hp, List.foldl_cons, List.foldl_append, clearVisible_enterImports, hopened,
      hpackage, himports, show entered.imports = [] from hplaces.imports]
    rfl
  have htree := (of_clearVisible_eq hclear).1
  have hpath : u.packagePath app.naming = p.segments.map packageSymbol := by
    rw [CompilationUnit.packagePath, hp]
  refine ⟨?_, stands_of_clearVisible hclear ⟨hplaces.grown, hpath ▸ hat, hplaces.file, rfl, ?_⟩⟩
  · rw [htree, CompilationUnit.packagePlacements, hp]
    exact hplaces.toBuilds
  · rw [CompilationUnit.listedImports, hpath]
    have hkind := kind_eq_package_iff hplaces.grown hat
    simp only [hkind]
    by_cases hnil : p.segments.map packageSymbol = []
    · rw [if_neg (not_not.2 hnil), if_pos hnil]
    · rw [if_pos hnil, if_neg hnil]

theorem heading_of_no_package (hp : u.package = none) :
    (s.heading app phase u).clearVisible =
      { file := u.source, imports := u.importComponents, revisionId := s.revisionId } := by
  rw [heading, hp, List.foldl_cons, List.foldl_append, clearVisible_enterImports]
  rfl

/-- Without a package the first type opens the default package. -/
theorem ensurePackage_heading (hp : u.package = none) (ht : u.types ≠ []) :
    Tree.empty.Builds (u.packagePlacements app.naming)
        ((s.heading app phase u).ensurePackage app).tree ∧
      ((s.heading app phase u).ensurePackage app).Stands u.source (u.packagePath app.naming)
        (u.listedImports app.naming) := by
  have hclear : (s.heading app phase u).clearVisible =
      clearVisible { file := u.source, imports := u.importComponents, revisionId := s.revisionId } :=
    s.heading_of_no_package app phase u hp
  -- From here on only what the heading has left in the scope matters.
  obtain ⟨htree, hcursor, hfile, hpackage, himports⟩ := of_clearVisible_eq hclear
  generalize s.heading app phase u = s₀ at *
  have hempty : s₀.tree = Tree.empty := htree
  have hgrown : s₀.tree.Grown := htree ▸ Tree.grown_empty
  have hroot : s₀.tree.follow root [] = some s₀.cursor := by
    rw [htree, hcursor]
    rfl
  obtain ⟨hput, hat⟩ := places_put hgrown hroot
    (c := packageComponent app.naming.defaultPackage s₀.file.toList) nofun
  have hens : (s₀.ensurePackage app).clearVisible =
      { (s₀.enter (packageComponent app.naming.defaultPackage s₀.file.toList)).2 with
        hasPackage := true }.clearVisible := by
    rw [ensurePackage, hpackage]
    exact clearVisible_openPackage _ app _
  have hplaces : u.packagePlacements app.naming =
      [⟨[], packageComponent app.naming.defaultPackage s₀.file.toList, false⟩] := by
    rw [CompilationUnit.packagePlacements, hp, hfile]
    simp [ht]
  have hpath : u.packagePath app.naming = [packageSymbol app.naming.defaultPackage] := by
    rw [CompilationUnit.packagePath, hp]
  refine ⟨?_, stands_of_clearVisible hens ⟨hput.grown, hpath ▸ hat, ?_, rfl, ?_⟩⟩
  · rw [(of_clearVisible_eq hens).1, hplaces, ← hempty]
    exact hput.toBuilds
  · exact hput.file.trans hfile
  · have hkind : ((s₀.put s₀.cursor (packageComponent app.naming.defaultPackage
        s₀.file.toList)).2.tree.node (s₀.put s₀.cursor (packageComponent
        app.naming.defaultPackage s₀.file.toList)).1).kind = .package :=
      congrArg Symbol.kind (Tree.symbol_of_follow_concat hat)
    rw [CompilationUnit.listedImports, hpath, if_neg (List.cons_ne_nil _ _)]
    exact (if_pos hkind).trans (hput.imports.trans himports)

/-- The scope in which the first type of a unit is entered. -/
theorem ensurePackage_stands (ht : u.types ≠ []) :
    Tree.empty.Builds (u.packagePlacements app.naming)
        ((s.heading app phase u).ensurePackage app).tree ∧
      ((s.heading app phase u).ensurePackage app).Stands u.source (u.packagePath app.naming)
        (u.listedImports app.naming) := by
  cases hp : u.package with
  | none => exact s.ensurePackage_heading app phase u hp ht
  | some p =>
    have hheading := s.heading_of_package app phase u hp
    rw [ensurePackage_of_hasPackage _ app hheading.2.hasPackage]
    exact hheading

/-- A unit without types ends with its heading. -/
theorem builds_heading (ht : u.types = []) :
    Tree.empty.Builds (u.packagePlacements app.naming) (s.heading app phase u).tree := by
  cases hp : u.package with
  | some p => exact (s.heading_of_package app phase u hp).1
  | none =>
    have hempty : (s.heading app phase u).tree = Tree.empty :=
      congrArg Scope.tree (s.heading_of_no_package app phase u hp)
    rw [CompilationUnit.packagePlacements, hp, ht, hempty]
    exact Tree.Builds.refl Tree.grown_empty

theorem foldl_events_ensurePackage (ht : u.types ≠ []) :
    (TypeDecl.eventsOfList u.types).foldl (step app phase) s =
      (TypeDecl.eventsOfList u.types).foldl (step app phase) (s.ensurePackage app) := by
  match u.types, ht with
  | .mk h members :: rest, _ =>
    rw [TypeDecl.eventsOfList, TypeDecl.events, List.cons_append, List.foldl_cons, List.foldl_cons,
      step, step, enterType_ensurePackage]

end Unit

end Scope

namespace CompilationUnit

variable (naming : Naming) (u : CompilationUnit)

/-- A unit records nothing but its imports. -/
theorem exists_of_mem_importComponents :
    ∀ c ∈ u.importComponents, ∃ i ∈ u.imports, c = Scope.importComponent i := by
  have hrecord : ∀ (is : List ImportDecl) (known : List Component),
      ∀ c ∈ is.foldl (fun known i => recordImport known (Scope.importComponent i)) known,
        c ∈ known ∨ ∃ i ∈ is, c = Scope.importComponent i := by
    intro is
    induction is with
    | nil => exact fun _ _ hc => .inl hc
    | cons i is ih =>
      intro known c hc
      rcases ih _ c hc with hc | ⟨j, hj, rfl⟩
      · exact (mem_or_eq_of_mem_recordImport hc).imp_right fun heq => ⟨i, List.mem_cons_self, heq⟩
      · exact .inr ⟨j, List.mem_cons_of_mem i hj, rfl⟩
  intro c hc
  exact (hrecord u.imports [] c hc).resolve_left List.not_mem_nil

theorem kind_importComponents : ∀ i ∈ u.importComponents, ∃ kind, i.kind = .importOf kind := by
  intro c hc
  obtain ⟨i, -, rfl⟩ := u.exists_of_mem_importComponents c hc
  exact ⟨_, rfl⟩

theorem kind_listedImports :
    ∀ i ∈ u.listedImports naming, ∃ kind, i.kind = .importOf kind := by
  unfold listedImports
  split
  · exact nofun
  · exact u.kind_importComponents

/-- The declaration phase builds the placements of a unit. -/
theorem builds_placements (s : Scope) (app : Application) :
    Tree.empty.Builds (u.placements app.naming) (s.build app .declaration u).1 := by
  have hbuild : (s.build app .declaration u).1 = (s.walk app .declaration u).tree := rfl
  have himports : ∀ i ∈ u.listedImports app.naming, i.kind ≠ .root := by
    intro i hi h
    obtain ⟨kind, hkind⟩ := u.kind_listedImports app.naming i hi
    cases hkind.symm.trans h
  rw [hbuild, s.walk_eq, placements]
  by_cases ht : u.types = []
  · rw [ht, TypeDecl.eventsOfList, TypeDecl.placementsOfList, List.append_nil, List.foldl_nil]
    exact s.builds_heading app .declaration u ht
  · obtain ⟨hbuilds, hstands⟩ := s.ensurePackage_stands app .declaration u ht
    have hruns := TypeDecl.runsOfList app u.source _ _ himports u.types _ hstands
    rw [Scope.foldl_events_ensurePackage _ app .declaration u ht]
    exact hbuilds.trans hruns.1.toBuilds

end CompilationUnit

end SymbolTable
