import SymbolTable.Proofs.Analysis.Selection
import SymbolTable.Proofs.Tree.Search

/-!
# Names written fully qualified

A coordinate is looked up in the program and then in each library: what is found is the first
component of all that has it, of whatever kind. A dotted name that cannot be followed member by
member is read as a coordinate, so it leads to a type just when the first component with that
coordinate is one. A type that comes after another component of its coordinate is not found.
-/

namespace SymbolTable

namespace Tree.Upright

variable {t : Tree} (h : t.Upright)
include h

theorem mem_preorder_root_iff {id : NodeId} : id ∈ t.preorder root ↔ t.Below root id :=
  mem_preorderWithin_iff (Chain.root.shallow h.linked h.parent_root)

end Tree.Upright

namespace Application

variable (app : Application)

/-- The trees in the order in which a coordinate is looked up. -/
def origins : List Origin := .program :: app.libraries.zipIdx.map fun (_, i) => .library i

/-- All components that hang below a root, in the order in which a coordinate is looked up. -/
def refs : List ComponentRef :=
  app.origins.flatMap fun origin => ((app.tree origin).preorder Tree.root).map (ComponentRef.mk origin)

/-- The first component that has the coordinate. -/
def firstWith (coordinate : String) : Option ComponentRef :=
  app.refs.find? fun r => app.coordinate r = coordinate

variable {app}

theorem find_eq_findSome? (coordinate : String) :
    app.find coordinate = app.origins.findSome? fun origin =>
      ((app.tree origin).locate coordinate app.naming.delimiter).map (ComponentRef.mk origin) := by
  have hlibraries : app.findInLibraries coordinate =
      (app.libraries.zipIdx.map fun (_, i) => Origin.library i).findSome? fun origin =>
        ((app.tree origin).locate coordinate app.naming.delimiter).map (ComponentRef.mk origin) := by
    rw [findInLibraries, List.findSome?_map]
    refine findSome?_congr fun entry hentry => ?_
    obtain ⟨l, i⟩ := entry
    have hl : app.libraries[i]? = some l := List.mem_zipIdx_iff_getElem?.1 hentry
    simp only [Function.comp_apply, tree, hl, Option.map_some, Option.getD_some]
  rw [find, origins, List.findSome?_cons, ← hlibraries]
  cases hprogram : app.findInProgram coordinate with
  | none =>
    have hnone : (app.tree .program).locate coordinate app.naming.delimiter = none := hprogram
    rw [hnone]
    rfl
  | some id =>
    have hsome : (app.tree .program).locate coordinate app.naming.delimiter = some id := hprogram
    rw [hsome]
    rfl

theorem mem_origins {origin : Origin} {id : NodeId} (h : (app.tree origin).Below Tree.root id) :
    origin ∈ app.origins := by
  cases origin with
  | program => exact List.mem_cons_self
  | library i =>
    cases hl : app.libraries[i]? with
    | some l =>
      exact List.mem_cons_of_mem _ (List.mem_map.2 ⟨(l, i), List.mem_zipIdx_iff_getElem?.2 hl, rfl⟩)
    | none =>
      have hempty : app.tree (.library i) = .empty := by
        rw [tree, hl]
        rfl
      obtain ⟨c, hc, -⟩ := Tree.below_iff.1 h
      rw [hempty] at hc
      cases hc

section Upright

variable (h : ∀ origin, (app.tree origin).Upright)
include h

/-- Lookup finds the first component that has the coordinate. -/
theorem find_eq_firstWith {coordinate : String} (hne : coordinate ≠ "") :
    app.find coordinate = app.firstWith coordinate := by
  rw [find_eq_findSome?, firstWith, refs, List.find?_flatMap]
  refine findSome?_congr fun origin _ => ?_
  rw [(h origin).locate_eq, if_neg hne, List.find?_map]
  rfl

theorem mem_refs_iff {r : ComponentRef} :
    r ∈ app.refs ↔ (app.tree r.origin).Below Tree.root r.id := by
  rw [refs, List.mem_flatMap]
  constructor
  · rintro ⟨origin, -, hr⟩
    obtain ⟨id, hid, rfl⟩ := List.mem_map.1 hr
    exact (h origin).mem_preorder_root_iff.1 hid
  · intro hr
    exact ⟨r.origin, mem_origins hr,
      List.mem_map.2 ⟨r.id, (h r.origin).mem_preorder_root_iff.2 hr, rfl⟩⟩

/-- Where some component has the coordinate, one is the first. -/
theorem exists_firstWith {r : ComponentRef} (hr : (app.tree r.origin).Below Tree.root r.id) :
    ∃ first, app.firstWith (app.coordinate r) = some first := by
  have hsome : (app.firstWith (app.coordinate r)).isSome = true :=
    List.find?_isSome.2 ⟨r, (mem_refs_iff h).2 hr, decide_eq_true rfl⟩
  exact Option.isSome_iff_exists.1 hsome

end Upright

end Application

/-! ## Dotted names -/

theorem eq_nil_of_mem_pieces {cut : Char → Bool} {s piece : List Char} (hs : ∀ c ∈ s, cut c = true)
    (hpiece : piece ∈ Text.pieces cut s) : piece = [] := by
  induction s with
  | nil => exact List.mem_singleton.1 hpiece
  | cons c s ih =>
    rw [Text.pieces, if_pos (hs c List.mem_cons_self)] at hpiece
    rcases List.mem_cons.1 hpiece with rfl | hpiece
    · rfl
    · exact ih (fun d hd => hs d (List.mem_cons_of_mem c hd)) hpiece

/-- A name with a segment spells a coordinate, whatever the delimiter. -/
theorem Naming.coordinateOf_ne_empty (naming : Naming) {name : String}
    (h : TypeText.segments name ≠ []) : naming.coordinateOf name ≠ "" := by
  intro hempty
  have hflat : name.toList.flatMap (fun d => if d = '.' then naming.delimiter.toList else [d]) = [] :=
    String.ofList_eq_empty_iff.1 hempty
  have hdots : ∀ c ∈ name.toList, decide (c = '.') = true := by
    intro c hc
    have hnil := List.flatMap_eq_nil_iff.1 hflat c hc
    by_contra hne
    rw [if_neg (by simpa using hne)] at hnil
    cases hnil
  refine h ?_
  rw [TypeText.segments, List.map_eq_nil_iff, List.filter_eq_nil_iff]
  intro piece hpiece
  simp [eq_nil_of_mem_pieces hdots hpiece]

namespace Scope

variable {s : Scope} {app : Application} {place : NodeId} {text first : String} {rest : List String}

theorem resolveQualified_eq (h : ∀ origin, (app.tree origin).Upright) {name : String}
    (hname : TypeText.segments name ≠ []) :
    resolveQualified app name =
      (app.firstWith (app.naming.coordinateOf name)).filter
        fun r => (app.get r).kind.isTypeDeclaration := by
  rw [resolveQualified, Application.find_eq_firstWith h (app.naming.coordinateOf_ne_empty hname)]

/-- Resolution of a dotted name: member by member, and then as a coordinate. -/
theorem resolveType_of_dots (s : Scope) (app : Application) (place : NodeId)
    (hsegments : TypeText.segments (TypeText.erase text) = first :: rest) (hrest : rest ≠ []) :
    s.resolveType app place text =
      ((s.resolveChain app place first rest).or
        ((resolveQualified app (TypeText.erase text)).map .known)).map (s.describe app) := by
  have hempty : ¬ rest.isEmpty = true := fun h => hrest (List.isEmpty_iff.1 h)
  rw [resolveType_eq]
  simp only [selectType, hsegments, if_neg hempty]
  cases s.resolveChain app place first rest with
  | none => rw [Option.none_or]
  | some found => rw [Option.some_or]

/-- A dotted name that breaks off as a chain of members leads to the first component that has it as
its coordinate if that is a type declaration, and otherwise to nothing. So where some component has
the coordinate, a type declaration for one, the name leads to nothing just when the chain breaks off
and the first component with the coordinate is no type declaration. -/
theorem resolveType_dotted (hconsistent : ∀ origin, (app.tree origin).isConsistent = true)
    (hkind : ∀ origin, ∀ id < (app.tree origin).size,
      ((app.tree origin).node id).kind = .root → id = Tree.root)
    (hsegments : TypeText.segments (TypeText.erase text) = first :: rest) (hrest : rest ≠ []) :
    s.resolveType app place text =
        ((s.resolveChain app place first rest).or
          (((app.firstWith (app.naming.coordinateOf (TypeText.erase text))).filter
            fun r => (app.get r).kind.isTypeDeclaration).map .known)).map (s.describe app) ∧
      ∀ r : ComponentRef, (app.tree r.origin).Below Tree.root r.id →
        app.coordinate r = app.naming.coordinateOf (TypeText.erase text) →
          (s.resolveType app place text = none ↔
            s.resolveChain app place first rest = none ∧
              ∃ other, app.firstWith (app.coordinate r) = some other ∧
                (app.get other).kind.isTypeDeclaration = false) := by
  have hupright : ∀ origin, (app.tree origin).Upright := fun origin =>
    Tree.upright_of_isConsistent (hconsistent origin) (hkind origin)
  have hname : TypeText.segments (TypeText.erase text) ≠ [] := by
    rw [hsegments]
    exact List.cons_ne_nil first rest
  have hresolve := s.resolveType_of_dots app place hsegments hrest
  rw [resolveQualified_eq hupright hname] at hresolve
  refine ⟨hresolve, fun r hr hcoordinate => ?_⟩
  obtain ⟨other, hother⟩ := Application.exists_firstWith hupright hr
  rw [hresolve, Option.map_eq_none_iff, Option.or_eq_none_iff, Option.map_eq_none_iff, ← hcoordinate,
    hother]
  simp [Option.filter_some]

end Scope

/-! ## A type hidden behind a field -/

/-- A class with a field and a member class of one name. -/
def hidingUnit : CompilationUnit where
  sourceName := "T.java"
  package := some ⟨["p"], default⟩
  imports := []
  types := [.mk ⟨.classType, "T", ["public"], [], none, [], false, default⟩
    [.field ⟨["In"], [], "int", false, default⟩,
      .type (.mk ⟨.classType, "In", ["public", "static"], [], none, [], false, default⟩ [])]]

/-- A class that extends the member class by its full name. -/
def qualifyingUnit : CompilationUnit := classUnit "q" "U" [] (some "p.T.In")

def hidingApplication : Application := declaredApplication {} [] [hidingUnit, qualifyingUnit]

def qualifyingScope : Scope := ({} : Scope).walk hidingApplication .structural qualifyingUnit

theorem resolveType_dotted_hiding :
    (∀ origin, (hidingApplication.tree origin).isConsistent = true) ∧
    (∀ origin, ∀ id < (hidingApplication.tree origin).size,
      ((hidingApplication.tree origin).node id).kind = .root → id = Tree.root) ∧
    TypeText.segments (TypeText.erase "p.T.In") = ["p", "T", "In"] ∧
    (qualifyingScope.resolveType hidingApplication 2 "p.T.In" = none ↔
      qualifyingScope.resolveChain hidingApplication 2 "p" ["T", "In"] = none ∧
        ∃ other, hidingApplication.firstWith (hidingApplication.coordinate (.program 4)) =
          some other ∧ (hidingApplication.get other).kind.isTypeDeclaration = false) := by
  have hlibrary : ∀ i, hidingApplication.tree (.library i) = .empty := by
    have hnone : hidingApplication.libraries = [] := by decide +kernel
    intro i
    rw [Application.tree, hnone]
    rfl
  have hconsistent : ∀ origin, (hidingApplication.tree origin).isConsistent = true := by
    rintro (_ | i)
    · decide +kernel
    · rw [hlibrary]
      decide
  have hkind : ∀ origin, ∀ id < (hidingApplication.tree origin).size,
      ((hidingApplication.tree origin).node id).kind = .root → id = Tree.root := by
    rintro (_ | i)
    · decide +kernel
    · rw [hlibrary]
      decide
  have hsegments : TypeText.segments (TypeText.erase "p.T.In") = ["p", "T", "In"] := by decide +kernel
  have hbelow : hidingApplication.components.Below Tree.root 4 :=
    .step (.step (.child (show 1 ∈ _ by decide +kernel)) (show 2 ∈ _ by decide +kernel))
      (by decide +kernel)
  have hcoordinate : hidingApplication.coordinate (.program 4) =
      hidingApplication.naming.coordinateOf (TypeText.erase "p.T.In") := by decide +kernel
  exact ⟨hconsistent, hkind, hsegments,
    (Scope.resolveType_dotted hconsistent hkind hsegments (List.cons_ne_nil _ _)).2 _ hbelow
      hcoordinate⟩

/-- The field has the coordinate of the member class and comes first, so the full name of the class
leads to nothing, and no edge is drawn. -/
theorem memberType_hidden :
    (hidingApplication.get (.program 4)).kind = .classType ∧
      ¬ (hidingApplication.get (.program 4)).IsAnonymous ∧
      hidingApplication.coordinate (.program 4) =
        hidingApplication.naming.coordinateOf (TypeText.erase "p.T.In") ∧
      2 ≤ (TypeText.segments (TypeText.erase "p.T.In")).length ∧
      qualifyingScope.resolveType hidingApplication 2 "p.T.In" = none ∧
      hidingApplication.firstWith "p.T.In" = some (.program 3) ∧
      (hidingApplication.get (.program 3)).kind = .field ∧
      (analyze {} [] [hidingUnit, qualifyingUnit]).1.components.identityPath 8 =
        [packageSymbol "q", ⟨.classType, "U", none⟩] ∧
      ((analyze {} [] [hidingUnit, qualifyingUnit]).1.components.node 8).attributesOfKind
        .extendsType = [] := by
  decide +kernel

end SymbolTable
