import SymbolTable.Proofs.Analysis.Marking
import SymbolTable.Proofs.Analysis.Session

/-!
# What a file can name

Only the package and the imports of a file make anything visible, and the default package when the
first type of a file without package is entered. Each of them is looked up as one coordinate and
opens the one component that the lookup gives. So a type is visible by its name exactly when some
lookup of a single import gave it or it is a child of what another lookup gave.
-/

namespace SymbolTable

namespace Scope

/-! ## Steps that open nothing -/

/-- Both scopes see the same. -/
structure SameView (s s' : Scope) : Prop where
  hasPackage : s'.hasPackage = s.hasPackage
  visible : s'.visible = s.visible
  containers : s'.containers = s.containers

namespace SameView

theorem refl (s : Scope) : s.SameView s := ⟨rfl, rfl, rfl⟩

theorem symm {s s' : Scope} (h : s.SameView s') : s'.SameView s :=
  ⟨h.hasPackage.symm, h.visible.symm, h.containers.symm⟩

theorem trans {s s' s'' : Scope} (h : s.SameView s') (h' : s'.SameView s'') : s.SameView s'' :=
  ⟨h'.hasPackage.trans h.hasPackage, h'.visible.trans h.visible,
    h'.containers.trans h.containers⟩

theorem foldl {α : Type} {f : Scope → α → Scope} (hf : ∀ (s : Scope) a, s.SameView (f s a))
    (as : List α) (s : Scope) : s.SameView (as.foldl f s) := by
  induction as generalizing s with
  | nil => exact refl s
  | cons a as ih => exact (hf s a).trans (ih _)

end SameView

theorem Marks.sameView {s s' : Scope} (h : s.Marks s') : s.SameView s' := by
  induction h with
  | none => exact .refl s
  | mark _ _ _ _ ih => exact ⟨ih.hasPackage, ih.visible, ih.containers⟩

section Steps

variable (s : Scope) (app : Application) (phase : Phase)

theorem sameView_moveTo (id : NodeId) : s.SameView (s.moveTo id) := ⟨rfl, rfl, rfl⟩

theorem sameView_put (parent : NodeId) (c : Component) : s.SameView (s.put parent c).2 := by
  rw [put_eq]
  exact ⟨rfl, rfl, rfl⟩

theorem sameView_enter (c : Component) : s.SameView (s.enter c).2 :=
  (s.sameView_put s.cursor c).trans (sameView_moveTo _ _)

theorem sameView_ascend : s.SameView s.ascend := by
  unfold ascend
  split
  · exact s.sameView_moveTo _
  · exact .refl s

theorem sameView_ensureDefaultConstructor (owner : NodeId) :
    s.SameView (s.ensureDefaultConstructor owner) := by
  unfold ensureDefaultConstructor
  split
  · exact .refl s
  · exact s.sameView_put _ _

theorem sameView_declareTypeParameters (owner : NodeId) (ps : List TypeParameterDecl) :
    s.SameView (s.declareTypeParameters owner ps) :=
  SameView.foldl (fun s _ => s.sameView_put owner _) ps s

theorem sameView_enterType (h : TypeHeader) (hs : s.hasPackage = true) :
    s.SameView (s.enterType app phase h) := by
  have hdeclare : s.SameView (s.declareType app h).2 := by
    unfold declareType
    rw [s.ensurePackage_of_hasPackage app hs]
    refine SameView.trans ?_ ((sameView_declareTypeParameters _ _ _).trans (sameView_moveTo _ _))
    split
    · exact (s.sameView_put _ _).trans (SameView.foldl (fun s i => s.sameView_put _ i) _ _)
    · exact s.sameView_put _ _
  rw [enterType_eq]
  exact hdeclare.trans (relates_relateType _ app _ phase h).marks.sameView

theorem sameView_enterCallable (kind : ComponentKind) (h : CallableHeader) :
    s.SameView (s.enterCallable app phase kind h) := by
  rw [enterCallable_eq]
  refine SameView.trans ?_ (relates_relateCallable _ app _ phase h).marks.sameView
  exact (s.sameView_put _ _).trans
    ((sameView_declareTypeParameters _ _ _).trans (sameView_moveTo _ _))

end Steps

end Scope

/-- The package and the imports come first in a file. -/
def Event.isHeading : Event → Bool
  | .enterPackage _ | .enterImport _ => true
  | _ => false

namespace Scope

/-- Below its heading a file opens nothing. -/
theorem sameView_step (s : Scope) (app : Application) (phase : Phase) (hs : s.hasPackage = true)
    {e : Event} (he : e.isHeading = false) : s.SameView (step app phase s e) := by
  cases e with
  | enterPackage p => cases he
  | enterImport i => cases he
  | enterUnit u => exact ⟨rfl, rfl, rfl⟩
  | exitUnit u => exact .refl s
  | enterType d => exact s.sameView_enterType app phase _ hs
  | exitTypeBody d =>
    rw [step, exitTypeBody]
    split
    · exact s.sameView_ensureDefaultConstructor _
    · exact s.sameView_ensureDefaultConstructor _
    · exact .refl s
    · exact .refl s
  | enterConstant d =>
    rw [step, enterConstant_eq]
    exact (s.sameView_enter _).trans (marks_relateConstant _ app _ phase _).sameView
  | exitConstant d => exact (s.sameView_ensureDefaultConstructor _).trans (sameView_ascend _)
  | enterConstructor d => exact s.sameView_enterCallable app phase _ _
  | enterMethod d => exact s.sameView_enterCallable app phase _ _
  | enterParameter p => exact s.sameView_put _ _
  | enterField f => exact SameView.foldl (fun s _ => s.sameView_put _ _) _ s
  | exitType d => exact s.sameView_ascend
  | exitConstructor d => exact s.sameView_ascend
  | exitMethod d => exact s.sameView_ascend

theorem sameView_steps (app : Application) (phase : Phase) {events : List Event}
    (hevents : ∀ e ∈ events, e.isHeading = false) (s : Scope) (hs : s.hasPackage = true) :
    s.SameView (events.foldl (step app phase) s) := by
  induction events generalizing s with
  | nil => exact .refl s
  | cons e events ih =>
    have hstep := s.sameView_step app phase hs (hevents e List.mem_cons_self)
    exact hstep.trans (ih (fun e' he' => hevents e' (List.mem_cons_of_mem e he')) _
      (hstep.hasPackage.trans hs))

end Scope

/-! ## The events of types are no heading -/

mutual
theorem TypeDecl.all_events : ∀ d : TypeDecl, d.events.all (!·.isHeading)
  | .mk header members => by
    rw [TypeDecl.events, List.all_cons, List.all_append, Member.all_events members]
    rfl

theorem TypeDecl.all_eventsOfList : ∀ ds : List TypeDecl,
    (TypeDecl.eventsOfList ds).all (!·.isHeading)
  | [] => by
    rw [TypeDecl.eventsOfList]
    rfl
  | d :: rest => by
    rw [TypeDecl.eventsOfList, List.all_append, TypeDecl.all_events d,
      TypeDecl.all_eventsOfList rest]
    rfl

theorem Member.all_event : ∀ m : Member, m.events.all (!·.isHeading)
  | .type d => by
    rw [Member.events]
    exact TypeDecl.all_events d
  | .constructor d => by
    rw [Member.events, List.all_cons, List.all_append, CallableDecl.all_inner d]
    rfl
  | .method d => by
    rw [Member.events, List.all_cons, List.all_append, CallableDecl.all_inner d]
    rfl
  | .field f => by
    rw [Member.events]
    rfl
  | .enumConstant d => by
    rw [Member.events]
    exact ConstantDecl.all_events d

theorem Member.all_events : ∀ ms : List Member, (Member.eventsOfList ms).all (!·.isHeading)
  | [] => by
    rw [Member.eventsOfList]
    rfl
  | m :: rest => by
    rw [Member.eventsOfList, List.all_append, Member.all_event m, Member.all_events rest]
    rfl

theorem CallableDecl.all_inner : ∀ d : CallableDecl, d.inner.all (!·.isHeading)
  | .mk header localTypes => by
    rw [CallableDecl.inner, List.all_append, TypeDecl.all_eventsOfList localTypes, List.all_map,
      Bool.and_true]
    exact List.all_eq_true.2 fun _ _ => rfl

theorem ConstantDecl.all_events : ∀ d : ConstantDecl, d.events.all (!·.isHeading)
  | .mk header none => by
    rw [ConstantDecl.events]
    rfl
  | .mk header (some body) => by
    rw [ConstantDecl.events, List.all_cons, List.all_append, Member.all_events body]
    rfl
end

theorem TypeDecl.isHeading_of_mem (ds : List TypeDecl) :
    ∀ e ∈ TypeDecl.eventsOfList ds, e.isHeading = false := by
  intro e he
  simpa using List.all_eq_true.1 (TypeDecl.all_eventsOfList ds) e he

/-! ## The view of a file -/

namespace CompilationUnit

/-- The coordinates that single imports name. -/
def named (naming : Naming) (u : CompilationUnit) : List String :=
  (u.imports.filter fun i => !i.onDemand).map fun i => naming.coordinateOf i.path

/-- The default package, for a file that has types but no package. -/
def implied (naming : Naming) (u : CompilationUnit) : List String :=
  if u.package = none ∧ u.types ≠ [] then [naming.defaultPackage] else []

/-- The coordinates that a file opens: those of its package and of its imports on demand. -/
def opened (naming : Naming) (u : CompilationUnit) : List String :=
  u.package.toList.map (fun p => naming.delimiter.intercalate p.segments) ++
    (u.imports.filter (·.onDemand)).map (fun i => naming.coordinateOf i.path) ++ u.implied naming

end CompilationUnit

namespace Scope

theorem view_openPackage (s : Scope) (app : Application) (coordinate : String) :
    (s.openPackage app coordinate).visible = s.visible ∧
      (s.openPackage app coordinate).containers =
        s.containers ++ [coordinate].filterMap app.find := by
  unfold openPackage
  cases h : app.find coordinate <;> simp [h, addContainer]

theorem view_openImport (s : Scope) (app : Application) (i : ImportDecl) :
    (s.openImport app i).visible =
        unite s.visible (([i].filter fun i => !i.onDemand).filterMap fun i =>
          app.find (app.naming.coordinateOf i.path)) ∧
      (s.openImport app i).containers =
        s.containers ++ ([i].filter (·.onDemand)).filterMap fun i =>
          app.find (app.naming.coordinateOf i.path) := by
  unfold openImport
  cases hfound : app.find (app.naming.coordinateOf i.path) with
  | none => cases hi : i.onDemand <;> simp [hi, hfound]
  | some r =>
    cases hi : i.onDemand with
    | false =>
      unfold addVisible
      by_cases hr : r ∈ s.visible <;> simp [hi, hfound, hr, addAbsent]
    | true => simp [hi, hfound, addContainer]

theorem view_enterImports (app : Application) (phase : Phase) (is : List ImportDecl) (s : Scope) :
    ((is.map Event.enterImport).foldl (step app phase) s).visible =
        unite s.visible ((is.filter fun i => !i.onDemand).filterMap fun i =>
          app.find (app.naming.coordinateOf i.path)) ∧
      ((is.map Event.enterImport).foldl (step app phase) s).containers =
        s.containers ++ (is.filter (·.onDemand)).filterMap fun i =>
          app.find (app.naming.coordinateOf i.path) := by
  induction is generalizing s with
  | nil => simp
  | cons i is ih =>
    obtain ⟨hvisible, hcontainers⟩ := ih (step app phase s (.enterImport i))
    obtain ⟨hone, hone'⟩ := view_openImport (s.addImport (importComponent i)).1 app i
    rw [List.map_cons, List.foldl_cons, hvisible, hcontainers]
    rw [step, enterImport_eq, hone, hone', addImport_fst, ← unite_append, List.append_assoc,
      ← List.filterMap_append, ← List.filterMap_append, ← List.filter_append,
      ← List.filter_append, List.singleton_append]
    exact ⟨rfl, rfl⟩

theorem view_enterPackage (s : Scope) (app : Application) (p : PackageDecl) :
    (s.enterPackage app p).visible = s.visible ∧
      (s.enterPackage app p).containers =
        s.containers ++ [app.naming.delimiter.intercalate p.segments].filterMap app.find := by
  have henter := SameView.foldl
    (f := fun s segment => (s.enter { kind := .package, value := segment }).2)
    (fun s _ => s.sameView_enter _) p.segments s
  unfold enterPackage
  obtain ⟨hvisible, hcontainers⟩ := view_openPackage
    { p.segments.foldl (fun s segment => (s.enter { kind := .package, value := segment }).2) s with
      hasPackage := true } app (app.naming.delimiter.intercalate p.segments)
  exact ⟨hvisible.trans henter.visible, hcontainers.trans (by rw [henter.containers])⟩

theorem view_ensurePackage (s : Scope) (app : Application) (hs : s.hasPackage = false) :
    (s.ensurePackage app).visible = s.visible ∧
      (s.ensurePackage app).containers =
        s.containers ++ [app.naming.defaultPackage].filterMap app.find := by
  have henter := s.sameView_enter (packageComponent app.naming.defaultPackage s.file.toList)
  have hensure : s.ensurePackage app =
      { (s.enter (packageComponent app.naming.defaultPackage s.file.toList)).2 with
        hasPackage := true }.openPackage app app.naming.defaultPackage := by
    rw [ensurePackage, hs]
    rfl
  obtain ⟨hvisible, hcontainers⟩ := view_openPackage
    { (s.enter (packageComponent app.naming.defaultPackage s.file.toList)).2 with
      hasPackage := true } app app.naming.defaultPackage
  rw [hensure]
  exact ⟨hvisible.trans henter.visible, hcontainers.trans (by rw [henter.containers])⟩

end Scope

/-- The containers that every file starts with: the implicit packages and the roots. -/
def Application.alwaysOpen (app : Application) : List ComponentRef :=
  (({} : Scope).seed app).containers

namespace Scope

section Walk

variable (s : Scope) (app : Application) (phase : Phase) (u : CompilationUnit)

theorem view_heading :
    (s.heading app phase u).visible = unite [] ((u.named app.naming).filterMap app.find) ∧
      (s.heading app phase u).containers = app.alwaysOpen ++
        (u.package.toList.map (fun p => app.naming.delimiter.intercalate p.segments) ++
          (u.imports.filter (·.onDemand)).map fun i => app.naming.coordinateOf i.path).filterMap
            app.find := by
  have hpackage :
      ((u.package.toList.map Event.enterPackage).foldl (step app phase)
          (step app phase (s.fullReset.seed app) (.enterUnit u))).visible = [] ∧
        ((u.package.toList.map Event.enterPackage).foldl (step app phase)
          (step app phase (s.fullReset.seed app) (.enterUnit u))).containers = app.alwaysOpen ++
            (u.package.toList.map fun p =>
              app.naming.delimiter.intercalate p.segments).filterMap app.find := by
    cases u.package with
    | none => exact ⟨rfl, (List.append_nil _).symm⟩
    | some p => exact view_enterPackage _ app p
  rw [heading, List.foldl_cons, List.foldl_append]
  obtain ⟨hvisible, hcontainers⟩ := view_enterImports app phase u.imports
    ((u.package.toList.map Event.enterPackage).foldl (step app phase)
      (step app phase (s.fullReset.seed app) (.enterUnit u)))
  rw [hvisible, hcontainers, hpackage.1, hpackage.2, List.filterMap_append, List.append_assoc,
    CompilationUnit.named]
  simp only [List.filterMap_map]
  exact ⟨rfl, rfl⟩

/-- What is visible when the first type of a file is entered, and what is open. -/
theorem view_ensurePackage_heading (ht : u.types ≠ []) :
    ((s.heading app phase u).ensurePackage app).visible =
        unite [] ((u.named app.naming).filterMap app.find) ∧
      ((s.heading app phase u).ensurePackage app).containers =
        app.alwaysOpen ++ (u.opened app.naming).filterMap app.find := by
  obtain ⟨hvisible, hcontainers⟩ := s.view_heading app phase u
  rw [CompilationUnit.opened, List.filterMap_append, ← List.append_assoc, ← hcontainers]
  cases hp : u.package with
  | some p =>
    have hpackage := (s.heading_of_package app phase u hp).2.hasPackage
    have himplied : u.implied app.naming = [] := by
      rw [CompilationUnit.implied, hp]
      exact if_neg fun h => nomatch h.1
    rw [ensurePackage_of_hasPackage _ app hpackage, himplied]
    exact ⟨hvisible, (List.append_nil _).symm⟩
  | none =>
    have hpackage : (s.heading app phase u).hasPackage = false :=
      congrArg Scope.hasPackage (s.heading_of_no_package app phase u hp)
    obtain ⟨hvisible', hcontainers'⟩ := view_ensurePackage _ app hpackage
    rw [CompilationUnit.implied, hp, if_pos ⟨rfl, ht⟩]
    exact ⟨hvisible'.trans hvisible, hcontainers'⟩

/-- What is visible in a file, and what is open. -/
theorem view_walk :
    (s.walk app phase u).visible = unite [] ((u.named app.naming).filterMap app.find) ∧
      (s.walk app phase u).containers =
        app.alwaysOpen ++ (u.opened app.naming).filterMap app.find := by
  rw [s.walk_eq]
  by_cases ht : u.types = []
  · obtain ⟨hvisible, hcontainers⟩ := s.view_heading app phase u
    rw [CompilationUnit.opened, List.filterMap_append, ← List.append_assoc, ← hcontainers, ht,
      TypeDecl.eventsOfList, List.foldl_nil, CompilationUnit.implied, if_neg fun h => h.2 ht,
      List.filterMap_nil, List.append_nil]
    exact ⟨hvisible, rfl⟩
  · rw [foldl_events_ensurePackage _ app phase u ht]
    have hview := sameView_steps app phase (TypeDecl.isHeading_of_mem u.types)
      ((s.heading app phase u).ensurePackage app) (hasPackage_ensurePackage _ app)
    rw [hview.visible, hview.containers]
    exact s.view_ensurePackage_heading app phase u ht

end Walk

theorem isSome_findVisible (s : Scope) (app : Application) (name : String)
    (accept : Component → Bool) :
    (s.findVisible app name accept).isSome ↔
      (∃ r ∈ s.visible, (app.get r).value = name ∧ accept (app.get r)) ∨
        ∃ c ∈ s.containers, ∃ r ∈ app.children c,
          (app.get r).value = name ∧ accept (app.get r) := by
  unfold findVisible
  cases hfound : s.visible.find? fun r => (app.get r).value = name && accept (app.get r) with
  | some r =>
    have hr := List.find?_some hfound
    rw [Bool.and_eq_true, decide_eq_true_eq] at hr
    simp only [hfound, Option.isSome_some, true_iff]
    exact .inl ⟨r, List.mem_of_find?_eq_some hfound, hr⟩
  | none =>
    have hnone : ¬ ∃ r ∈ s.visible, (app.get r).value = name ∧ accept (app.get r) := by
      simpa using hfound
    rw [or_iff_right hnone]
    simp [hfound, List.findSome?_isSome_iff]

end Scope

/-- The reference is to a type declaration of the name. -/
def Application.IsType (app : Application) (r : ComponentRef) (name : String) : Prop :=
  (app.get r).value = name ∧ (app.get r).kind.isTypeDeclaration

/-- After the walk of a file a type is visible by its name just when a single import gives it or it
lies directly below an implicit package, a root, or the one component that lookup gives for the
package of the file or an import on demand. All types below such a component are visible, and
opening it does not make it visible: only single imports do. -/
theorem Scope.exposed_walk (s : Scope) (app : Application) (phase : Phase) (u : CompilationUnit) :
    (∀ r, r ∈ (s.walk app phase u).visible ↔
      ∃ coordinate ∈ u.named app.naming, app.find coordinate = some r) ∧
    (∀ name, ((s.walk app phase u).findVisible app name (·.kind.isTypeDeclaration)).isSome ↔
      (∃ coordinate ∈ u.named app.naming, ∃ r, app.find coordinate = some r ∧ app.IsType r name) ∨
        ∃ c, (c ∈ app.alwaysOpen ∨ ∃ coordinate ∈ u.opened app.naming,
          app.find coordinate = some c) ∧ ∃ r ∈ app.children c, app.IsType r name) ∧
    ∀ coordinate ∈ u.opened app.naming, ∀ c, app.find coordinate = some c →
      ∀ r ∈ app.children c, ∀ name, app.IsType r name →
        ((s.walk app phase u).findVisible app name (·.kind.isTypeDeclaration)).isSome := by
  obtain ⟨hvisible, hcontainers⟩ := s.view_walk app phase u
  have hnamed : ∀ r, r ∈ (s.walk app phase u).visible ↔
      ∃ coordinate ∈ u.named app.naming, app.find coordinate = some r := by
    intro r
    rw [hvisible, mem_unite, List.mem_filterMap, or_iff_right List.not_mem_nil]
  have hfound : ∀ name,
      ((s.walk app phase u).findVisible app name (·.kind.isTypeDeclaration)).isSome ↔
        (∃ coordinate ∈ u.named app.naming, ∃ r, app.find coordinate = some r ∧
          app.IsType r name) ∨
          ∃ c, (c ∈ app.alwaysOpen ∨ ∃ coordinate ∈ u.opened app.naming,
            app.find coordinate = some c) ∧ ∃ r ∈ app.children c, app.IsType r name := by
    intro name
    rw [isSome_findVisible, hcontainers]
    simp only [hnamed, List.mem_append, List.mem_filterMap]
    refine or_congr ?_ Iff.rfl
    constructor
    · rintro ⟨r, ⟨coordinate, hmem, hr⟩, htype⟩
      exact ⟨coordinate, hmem, r, hr, htype⟩
    · rintro ⟨coordinate, hmem, r, hr, htype⟩
      exact ⟨r, ⟨coordinate, hmem, hr⟩, htype⟩
  refine ⟨hnamed, hfound, fun coordinate hmem c hc r hr name htype => ?_⟩
  exact (hfound name).2 (.inr ⟨c, .inr ⟨coordinate, hmem, hc⟩, r, hr, htype⟩)

/-- A library with the class `L` in package `a`. -/
def sharedPackageLibrary : Library where
  groupId := "g"
  artifactId := "l"
  version := "1"
  revisionId := none
  components := (analyze {} [] [classUnit "a" "L" [] none]).1.components

/-- A file of package `b` that imports package `a` on demand. -/
def importingUnit : CompilationUnit := classUnit "b" "B" [⟨"a", false, true, default⟩] none

def sharedPackageApplication : Application :=
  declaredApplication {} [sharedPackageLibrary] [baseUnit, importingUnit]

/-- The program has a package `a` too, which hides the one of the library: `L` stays unknown to a
file that imports all of `a`. -/
theorem shared_package_hidden :
    "a" ∈ importingUnit.opened {} ∧
      sharedPackageApplication.coordinate ⟨.library 0, 1⟩ = "a" ∧
      (sharedPackageApplication.get ⟨.library 0, 1⟩).kind = .package ∧
      ⟨.library 0, 2⟩ ∈ sharedPackageApplication.children ⟨.library 0, 1⟩ ∧
      sharedPackageApplication.IsType ⟨.library 0, 2⟩ "L" ∧
      (({} : Scope).walk sharedPackageApplication .structural importingUnit).findVisible
        sharedPackageApplication "L" (·.kind.isTypeDeclaration) = none := by
  unfold Application.IsType
  decide +kernel

end SymbolTable
