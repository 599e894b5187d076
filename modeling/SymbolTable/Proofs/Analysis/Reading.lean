import SymbolTable.Proofs.Analysis.Legibility
import SymbolTable.Proofs.Analysis.Sites

/-!
# Reading a name in the program

What a type name means at a path, read off the program alone: the members around the path from the
inside out, then what the file sees, then the members of what was found. Programs with the same
entries and legible coordinates read every name alike.
-/

namespace SymbolTable

namespace Application

section Reading

variable (app : Application)

/-- The member of a component that a test takes. -/
def memberOf (r : ComponentRef) (accept : Component → Bool) : Option ComponentRef :=
  (app.children r).find? fun c => accept (app.get c)

/-- What is named at a path: a member of the component there, or the component itself. -/
def around (name : String) (x : List Symbol) : Option ComponentRef :=
  (app.components.follow Tree.root x).bind fun id =>
    (app.memberOf (.program id) (Scope.acceptsMember name)).or
      (if (app.components.node id).isNamedType name then some (.program id) else none)

/-- What is named from the inside out, up to the package of the file, and then in sight of the file.
The path below the package is given from its end. -/
def outwards (u : CompilationUnit) (name : String) : List Symbol → Option ComponentRef
  | [] => app.firstType (u.searched app) name
  | s :: outer =>
    (app.around name (u.packagePath app.naming ++ (s :: outer).reverse)).or
      (outwards u name outer)

/-- What a type text names at a path. -/
def meant (u : CompilationUnit) (x : List Symbol) (text : String) : Option ComponentRef :=
  let name := TypeText.erase text
  match TypeText.segments name with
  | [] => none
  | first :: rest =>
    ((app.outwards u first (x.drop (u.packagePath app.naming).length).reverse).bind fun start =>
      rest.foldlM (fun r segment => app.memberOf r (·.isNamedType segment)) start).or
      (if rest.isEmpty then none else Scope.resolveQualified app name)

/-- The qualified name and the kind of what a type text names at a path. -/
def reads (u : CompilationUnit) (x : List Symbol) (text : String) :
    Option (String × ComponentKind) :=
  (app.meant u x text).map fun r => (app.qualifiedName r, (app.get r).kind)

/-- A file that differs in the order of its declarations sees the same. -/
theorem searched_of_reorders {u u' : CompilationUnit} (h : u.Reorders u') :
    u'.searched app = u.searched app := by
  have hnamed : u'.named app.naming = u.named app.naming := by
    rw [CompilationUnit.named, CompilationUnit.named, h.imports]
  have hempty : u'.types ≠ [] ↔ u.types ≠ [] := by
    rw [ne_eq, ne_eq, ← List.isEmpty_iff, ← List.isEmpty_iff, h.types.isEmpty_eq]
  have hopened : u'.opened app.naming = u.opened app.naming := by
    rw [CompilationUnit.opened, CompilationUnit.opened, CompilationUnit.implied,
      CompilationUnit.implied, h.imports, h.package]
    simp only [hempty]
  rw [CompilationUnit.searched, CompilationUnit.searched, hnamed, hopened]

/-- So it is read alike. -/
theorem reads_of_reorders {u u' : CompilationUnit} (h : u.Reorders u') :
    app.reads u' = app.reads u := by
  have hpackage := h.packagePath app.naming
  have houtwards : ∀ name outer, app.outwards u' name outer = app.outwards u name outer := by
    intro name outer
    induction outer with
    | nil => rw [outwards, outwards, app.searched_of_reorders h]
    | cons s outer ih => rw [outwards, outwards, ih, hpackage]
  funext x text
  unfold reads meant
  simp only [houtwards, hpackage]

/-- Neither a type nor a component that types can be looked up in. -/
def Inert (r : ComponentRef) : Prop :=
  ¬ (app.get r).kind.NamesType ∧ ∀ c ∈ app.children r, ¬ (app.get c).kind.NamesType

variable {app}

theorem inert_program {id : NodeId} (h : app.components.Inert id) : app.Inert (.program id) :=
  ⟨h.1, List.forall_mem_map.2 h.2⟩

theorem Inert.memberOf {r : ComponentRef} (h : app.Inert r) {accept : Component → Bool}
    (haccept : TypeProbe accept) : app.memberOf r accept = none := by
  rw [Application.memberOf, List.find?_eq_none]
  exact fun c hc hfits => h.2 c hc (haccept.namesType _ hfits)

end Reading

/-! ## Twins -/

/-- The programs have the same entries and legible coordinates, and the same libraries. -/
structure Twins (app app' : Application) : Prop where
  naming : app'.naming = app.naming
  libraries : app'.libraries = app.libraries
  program : app.components.Twins app.naming.delimiter app'.components

/-- One component in both, or two in which nothing can be looked up. -/
def LikeRef (app app' : Application) (r r' : ComponentRef) : Prop :=
  SameRef app app' r r' ∨ app.Inert r ∧ app'.Inert r'

namespace Twins

variable {app app' : Application} (h : app.Twins app') {r r' : ComponentRef}
include h

theorem tree_library (index : Nat) : app'.tree (.library index) = app.tree (.library index) := by
  simp only [tree, h.libraries]

theorem accept_eq (hr : SameRef app app' r r') {accept : Component → Bool}
    (haccept : TypeProbe accept) : accept (app'.get r') = accept (app.get r) := by
  cases hr with
  | program hid => exact h.program.accept_eq hid haccept
  | library index id => rw [get, get, h.tree_library]

theorem describe_eq (hr : SameRef app app' r r') :
    (app'.qualifiedName r', (app'.get r').kind) = (app.qualifiedName r, (app.get r).kind) := by
  unfold Application.qualifiedName
  rw [h.naming]
  cases hr with
  | program hid =>
    exact Prod.ext (h.program.qualifiedName hid _) (congrArg Symbol.kind (h.program.symbol hid))
  | library index id => rw [get, get, h.tree_library]

theorem memberOf (hr : LikeRef app app' r r') {accept : Component → Bool}
    (haccept : TypeProbe accept) :
    Option.Rel (SameRef app app') (app.memberOf r accept) (app'.memberOf r' accept) := by
  rcases hr with hr | ⟨hinert, hinert'⟩
  · cases hr with
    | program hid =>
      unfold Application.memberOf children
      rw [List.find?_map, List.find?_map]
      exact rel_map (h.program.member hid haccept) .program
    | library index id =>
      have hmember : app'.memberOf ⟨.library index, id⟩ accept =
          app.memberOf ⟨.library index, id⟩ accept := by
        simp only [Application.memberOf, children, get, h.tree_library, List.find?_map,
          Function.comp_def]
      rw [hmember]
      cases hfound : app.memberOf ⟨.library index, id⟩ accept with
      | none => exact .none
      | some c =>
        obtain ⟨j, -, rfl⟩ := List.mem_map.1 (List.mem_of_find?_eq_some hfound)
        exact .some (.library index j)
  · rw [hinert.memberOf haccept, hinert'.memberOf haccept]
    exact .none

theorem findInProgram (text : String) :
    Option.Rel (LikeRef app app') ((app.findInProgram text).map .program)
      ((app'.findInProgram text).map .program) := by
  unfold Application.findInProgram
  rw [h.naming]
  exact rel_map (h.program.locate text) fun hid =>
    hid.imp .program fun hinert => ⟨inert_program hinert.1, inert_program hinert.2⟩

theorem findInLibraries (text : String) :
    Option.Rel (LikeRef app app') (app.findInLibraries text) (app'.findInLibraries text) := by
  have heq : app'.findInLibraries text = app.findInLibraries text := by
    simp only [Application.findInLibraries, h.libraries, h.naming]
  rw [heq]
  cases hfound : app.findInLibraries text with
  | none => exact .none
  | some r =>
    obtain ⟨⟨l, i⟩, -, hl⟩ := List.exists_of_findSome?_eq_some hfound
    obtain ⟨id, -, rfl⟩ := Option.map_eq_some_iff.1 hl
    exact .some (.inl (.library i id))

theorem find (text : String) : Option.Rel (LikeRef app app') (app.find text) (app'.find text) := by
  unfold Application.find
  have hprogram := h.findInProgram text
  cases hx : app.findInProgram text with
  | none =>
    cases hx' : app'.findInProgram text with
    | none => exact h.findInLibraries text
    | some id => rw [hx, hx'] at hprogram; cases hprogram
  | some id =>
    cases hx' : app'.findInProgram text with
    | none => rw [hx, hx'] at hprogram; cases hprogram
    | some id' => rwa [hx, hx'] at hprogram

theorem alwaysOpen : List.Forall₂ (LikeRef app app') app.alwaysOpen app'.alwaysOpen := by
  have hroot : LikeRef app app' Application.root Application.root := .inl (.program ⟨[], rfl, rfl⟩)
  have hlibraries : List.Forall₂ (LikeRef app app')
      ((List.range app.libraries.length).map Application.libraryRoot)
      ((List.range app'.libraries.length).map Application.libraryRoot) := by
    rw [h.libraries, List.forall₂_map_left_iff, List.forall₂_map_right_iff]
    exact List.forall₂_same.2 fun index _ => .inl (.library index Tree.root)
  refine List.rel_append (List.rel_append (List.rel_append .nil ?_) (.cons hroot .nil)) hlibraries
  -- The implicit packages are looked for one by one, in the libraries before the program.
  apply rel_filterMap
  intro name
  simp only [h.naming]
  rcases rel_cases (h.findInLibraries (app.naming.coordinateOf name)) with
    ⟨hx, hx'⟩ | ⟨a, b, hx, hx', hab⟩
  · rw [hx, hx']
    exact h.findInProgram _
  · rw [hx, hx']
    exact .some hab

/-- The first type of a name in sight is the same. -/
theorem firstType_searched (u : CompilationUnit) (name : String) :
    Option.Rel (SameRef app app') (app.firstType (u.searched app) name)
      (app'.firstType (u.searched app') name) := by
  have haccept := TypeProbe.typeDeclaration name
  have hnamed : List.Forall₂ (LikeRef app app') ((u.named app.naming).filterMap app.find)
      ((u.named app.naming).filterMap app'.find) := rel_filterMap h.find _
  have hopened : List.Forall₂ (LikeRef app app')
      (app.alwaysOpen ++ (u.opened app.naming).filterMap app.find)
      (app'.alwaysOpen ++ (u.opened app.naming).filterMap app'.find) :=
    List.rel_append h.alwaysOpen (rel_filterMap h.find _)
  have hfits : ∀ {r r'}, LikeRef app app' r r' →
      Option.Rel (SameRef app app')
        (Option.guard (fun r => (app.get r).value = name && (app.get r).kind.isTypeDeclaration) r)
        (Option.guard (fun r => (app'.get r).value = name && (app'.get r).kind.isTypeDeclaration)
          r') := by
    rintro r r' (hr | ⟨hinert, hinert'⟩)
    · have heq := h.accept_eq hr haccept
      simp only [Option.guard, heq]
      split
      · exact .some hr
      · exact .none
    · have hno : ∀ {app : Application} {r : ComponentRef}, app.Inert r →
          ((app.get r).value = name && (app.get r).kind.isTypeDeclaration) = false := fun hinert =>
        Bool.eq_false_iff.2 fun hfits => hinert.1 (haccept.namesType _ hfits)
      simp only [Option.guard, hno hinert, hno hinert']
      exact .none
  unfold firstType CompilationUnit.searched
  rw [h.naming, List.find?_append, List.find?_append, List.find?_flatMap, List.find?_flatMap,
    List.find?_eq_findSome?_guard, List.find?_eq_findSome?_guard]
  have hfirst := rel_findSome? hnamed hfits
  have hsecond := rel_findSome? hopened fun hr => h.memberOf hr haccept
  rcases rel_cases hfirst with ⟨hx, hx'⟩ | ⟨a, b, hx, hx', hab⟩
  · rw [hx, hx']
    exact hsecond
  · rw [hx, hx']
    exact .some hab

theorem around (name : String) (x : List Symbol) :
    Option.Rel (SameRef app app') (app.around name x) (app'.around name x) := by
  unfold Application.around
  cases hx : app.components.follow Tree.root x with
  | none =>
    have hx' : app'.components.follow Tree.root x = none := by
      rw [← Option.not_isSome_iff_eq_none, ← Tree.isSome_entry, h.program.entries.isSome,
        Tree.isSome_entry, hx]
      nofun
    rw [hx']
    exact .none
  | some id =>
    obtain ⟨id', hx'⟩ := Tree.isSome_entry_iff.1 ((h.program.entries.isSome x).trans
      (Tree.isSome_entry_iff.2 ⟨id, hx⟩))
    have hid : app.components.SamePath app'.components id id' := ⟨x, hx, hx'⟩
    rw [hx', Option.bind_some, Option.bind_some]
    refine rel_or (h.memberOf (.inl (.program hid)) (.acceptsMember name)) ?_
    rw [h.program.accept_eq hid (.isNamedType name)]
    split
    · exact .some (.program hid)
    · exact .none

theorem outwards (u : CompilationUnit) (name : String) (outer : List Symbol) :
    Option.Rel (SameRef app app') (app.outwards u name outer) (app'.outwards u name outer) := by
  induction outer with
  | nil => exact h.firstType_searched u name
  | cons s outer ih =>
    rw [Application.outwards, Application.outwards, h.naming]
    exact rel_or (h.around name _) ih

theorem resolveQualified (name : String) :
    Option.Rel (SameRef app app') (Scope.resolveQualified app name)
      (Scope.resolveQualified app' name) := by
  unfold Scope.resolveQualified
  rw [h.naming]
  rcases rel_cases (h.find (app.naming.coordinateOf name)) with ⟨hx, hx'⟩ | ⟨a, b, hx, hx', hab⟩
  · rw [hx, hx']
    exact .none
  · rw [hx, hx', Option.filter_some, Option.filter_some]
    rcases hab with hab | ⟨hinert, hinert'⟩
    · rw [show (app'.get b).kind = (app.get a).kind from congrArg Prod.snd (h.describe_eq hab)]
      split
      · exact .some hab
      · exact .none
    · rw [if_neg fun htype => hinert.1 (.inl htype), if_neg fun htype => hinert'.1 (.inl htype)]
      exact .none

theorem meant (u : CompilationUnit) (x : List Symbol) (text : String) :
    Option.Rel (SameRef app app') (app.meant u x text) (app'.meant u x text) := by
  have hmembers : ∀ (rest : List String) {r r' : ComponentRef}, SameRef app app' r r' →
      Option.Rel (SameRef app app')
        (rest.foldlM (fun r segment => app.memberOf r (·.isNamedType segment)) r)
        (rest.foldlM (fun r segment => app'.memberOf r (·.isNamedType segment)) r') := by
    intro rest
    induction rest with
    | nil => exact fun hr => .some hr
    | cons segment rest ih => exact fun hr => rel_bind (h.memberOf (.inl hr) (.isNamedType segment)) ih
  unfold Application.meant
  rw [h.naming]
  simp only
  split
  · exact .none
  · next first rest _ =>
    refine rel_or (rel_bind (h.outwards u first _) (hmembers rest)) ?_
    split
    · exact .none
    · exact h.resolveQualified _

theorem reads_eq (u : CompilationUnit) : app'.reads u = app.reads u := by
  funext x text
  unfold reads
  rcases rel_cases (h.meant u x text) with ⟨hx, hx'⟩ | ⟨a, b, hx, hx', hab⟩
  · rw [hx, hx']
    rfl
  · rw [hx, hx', Option.map_some, Option.map_some, h.describe_eq hab]

end Twins

end Application

end SymbolTable
