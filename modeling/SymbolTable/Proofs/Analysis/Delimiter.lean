import SymbolTable.Proofs.Analysis.Acts
import SymbolTable.Proofs.Analysis.Bare
import SymbolTable.Proofs.Analysis.Selection
import SymbolTable.Proofs.Tree.Segments

/-!
# The delimiter of coordinates

Packages, imports, the program's copy of a scope and fully qualified names are all looked up by
coordinates, which are put together in different places: from the segments of a package, from a
dotted name, or from the values on a path. Each of them is a list of segments joined by the
delimiter, so a delimiter that has no character in common with any of the segments leaves no trace
in what is found. The names of the implicit packages are segments as well.
-/

namespace SymbolTable

open SymbolTable.Tree (root)

/-! ## Erased type texts -/

namespace TypeText

theorem outsideArguments_subset (depth : Nat) (text : List Char) :
    outsideArguments depth text ⊆ text := by
  induction text generalizing depth with
  | nil => exact List.Subset.refl _
  | cons c text ih =>
    have hrest : ∀ depth, outsideArguments depth text ⊆ c :: text := fun depth =>
      List.Subset.trans (ih depth) (List.subset_cons_self c text)
    rw [outsideArguments]
    split_ifs
    · exact hrest _
    · exact hrest _
    · exact List.cons_subset_cons c (ih depth)
    · exact hrest _

theorem replaceFrom_nil_subset (pattern : List Char) (skip : Nat) (text : List Char) :
    Text.replaceFrom pattern [] skip text ⊆ text := by
  induction text generalizing skip with
  | nil => cases skip <;> exact List.Subset.refl _
  | cons c text ih =>
    have hrest : ∀ skip, Text.replaceFrom pattern [] skip text ⊆ c :: text := fun skip =>
      List.Subset.trans (ih skip) (List.subset_cons_self c text)
    cases skip with
    | zero =>
      rw [Text.replaceFrom]
      split_ifs
      · exact hrest _
      · exact List.cons_subset_cons c (ih 0)
    | succ skip => exact hrest skip

/-- Erasure only leaves characters out. -/
theorem erase_subset (text : String) : (erase text).toList ⊆ text.toList := by
  have hbare : Text.replace "...".toList [] (Text.replace "[]".toList []
      (outsideArguments 0 text.toList)) ⊆ text.toList :=
    List.Subset.trans (replaceFrom_nil_subset _ _ _)
      (List.Subset.trans (replaceFrom_nil_subset _ _ _) (outsideArguments_subset _ _))
  unfold erase
  rw [String.toList_ofList]
  rcases List.eq_nil_or_concat' (Text.words (Text.replace "...".toList []
    (Text.replace "[]".toList [] (outsideArguments 0 text.toList)))) with hnil | ⟨front, last, hlast⟩
  · simp only [hnil]
    exact List.nil_subset _
  · simp only [hlast, List.getLastD_concat]
    have hmem : last ∈ Text.words (Text.replace "...".toList []
        (Text.replace "[]".toList [] (outsideArguments 0 text.toList))) := by
      rw [hlast]
      exact List.mem_append_right _ List.mem_cons_self
    exact List.Subset.trans (mem_of_mem_pieces (List.mem_of_mem_filter hmem)) hbare

end TypeText

/-! ## Lookups -/

def Naming.withDelimiter (naming : Naming) (delimiter : String) : Naming :=
  { naming with delimiter }

namespace Application

def withDelimiter (app : Application) (delimiter : String) : Application :=
  { app with naming := app.naming.withDelimiter delimiter }

/-- The delimiter is absent from all that the application holds and from the names that files look
up without naming them. -/
structure Spells (app : Application) (delimiter : String) : Prop where
  ne_empty : delimiter ≠ ""
  components : app.components.Avoids delimiter
  libraries : ∀ l ∈ app.libraries, l.components.Avoids delimiter
  defaultPackage : Absent delimiter app.naming.defaultPackage
  implicitPackages : ∀ name ∈ Scope.implicitPackages, Absent delimiter name

/-- What an implicit package leads to. -/
def implicitPackage (app : Application) (name : String) : Option ComponentRef :=
  match app.findInLibraries (app.naming.coordinateOf name) with
  | some r => some r
  | none => (app.findInProgram (app.naming.coordinateOf name)).map .program

/-- The first library component with the segments as the values on its path. -/
def librarySegments (app : Application) (segments : List String) : Option ComponentRef :=
  app.libraries.zipIdx.findSome? fun (l, i) =>
    (l.components.locateSegments segments).map fun id => ⟨.library i, id⟩

section Find

variable {app : Application} {delimiter : String} (h : app.Spells delimiter) {segments : List String}
  (hsegments : ∀ segment ∈ segments, Absent delimiter segment)
include h hsegments

theorem findInProgram_segments :
    (app.withDelimiter delimiter).findInProgram (delimiter.intercalate segments) =
      app.components.locateSegments segments :=
  Tree.locate_intercalate h.ne_empty h.components hsegments

theorem findInLibraries_segments :
    (app.withDelimiter delimiter).findInLibraries (delimiter.intercalate segments) =
      app.librarySegments segments := by
  refine findSome?_congr fun ⟨l, i⟩ hmem => ?_
  have hl : l ∈ app.libraries := List.mem_of_getElem? (List.mem_zipIdx_iff_getElem?.1 hmem)
  exact congrArg (Option.map _) (Tree.locate_intercalate h.ne_empty (h.libraries l hl) hsegments)

end Find

end Application

/-- The tree of the scope is grown and avoids the delimiter. -/
structure Scope.Clear (s : Scope) (delimiter : String) : Prop where
  grown : s.tree.Grown
  avoids : s.tree.Avoids delimiter

theorem Scope.Marks.clear_iff {s s' : Scope} (h : s.Marks s') {delimiter : String} :
    s'.Clear delimiter ↔ s.Clear delimiter := by
  have hshape := h.alike.tree.sameShape
  have hshape' := h.alike.symm.tree.sameShape
  constructor
  · exact fun hs => ⟨hs.grown.of_sameShape hshape', hs.avoids.of_sameShape hshape'⟩
  · exact fun hs => ⟨hs.grown.of_sameShape hshape, hs.avoids.of_sameShape hshape⟩

section Two

variable {app : Application} {d d' : String} (h : app.Spells d) (h' : app.Spells d')
include h h'

theorem Application.find_withDelimiter {segments : List String}
    (hd : ∀ segment ∈ segments, Absent d segment) (hd' : ∀ segment ∈ segments, Absent d' segment) :
    (app.withDelimiter d').find (d'.intercalate segments) =
      (app.withDelimiter d).find (d.intercalate segments) := by
  unfold Application.find
  rw [Application.findInProgram_segments h hd, Application.findInProgram_segments h' hd',
    Application.findInLibraries_segments h hd, Application.findInLibraries_segments h' hd']

theorem Application.find_coordinateOf {name : String} (hd : Absent d name) (hd' : Absent d' name) :
    (app.withDelimiter d').find ((app.withDelimiter d').naming.coordinateOf name) =
      (app.withDelimiter d).find ((app.withDelimiter d).naming.coordinateOf name) := by
  rw [Naming.coordinateOf_eq, Naming.coordinateOf_eq]
  exact Application.find_withDelimiter h h' (fun _ => absent_of_mem_dotParts hd)
    fun _ => absent_of_mem_dotParts hd'

namespace Scope

variable (s : Scope)

omit h h' in
theorem seed_eq (app : Application) :
    s.seed app =
      { s with
        containers := s.containers ++ implicitPackages.filterMap app.implicitPackage ++
          [Application.root] ++ (List.range app.libraries.length).map Application.libraryRoot } := rfl

theorem seed_withDelimiter : s.seed (app.withDelimiter d') = s.seed (app.withDelimiter d) := by
  have hpackages : implicitPackages.filterMap (app.withDelimiter d').implicitPackage =
      implicitPackages.filterMap (app.withDelimiter d).implicitPackage := by
    refine List.filterMap_congr fun name hname => ?_
    have hd : ∀ part ∈ dotParts name, Absent d part := fun _ =>
      absent_of_mem_dotParts (h.implicitPackages name hname)
    have hd' : ∀ part ∈ dotParts name, Absent d' part := fun _ =>
      absent_of_mem_dotParts (h'.implicitPackages name hname)
    simp only [Application.implicitPackage, Naming.coordinateOf_eq]
    rw [show (app.withDelimiter d).naming.delimiter = d from rfl,
      show (app.withDelimiter d').naming.delimiter = d' from rfl,
      Application.findInLibraries_segments h hd, Application.findInLibraries_segments h' hd',
      Application.findInProgram_segments h hd, Application.findInProgram_segments h' hd']
  rw [seed_eq, seed_eq, hpackages]
  rfl

/-! ## Resolution -/

section Resolve

variable {s} (hs : s.Clear (d ++ d'))
include hs

theorem programScope_withDelimiter (id : NodeId) :
    s.programScope (app.withDelimiter d') id = s.programScope (app.withDelimiter d) id := by
  have habsent := fun value hvalue =>
    absent_append.1 (hs.grown.absent_pathValues hs.avoids id value hvalue)
  have hd := fun value hvalue => (habsent value hvalue).1
  have hd' := fun value hvalue => (habsent value hvalue).2
  calc s.programScope (app.withDelimiter d') id
      = (app.components.locateSegments (s.tree.pathValues id)).map ComponentRef.program :=
        congrArg (Option.map _) (Application.findInProgram_segments h' hd')
    _ = s.programScope (app.withDelimiter d) id :=
        congrArg (Option.map _) (Application.findInProgram_segments h hd).symm

theorem programMember_withDelimiter (id : NodeId) (accept : Component → Bool) :
    s.programMember (app.withDelimiter d') id accept =
      s.programMember (app.withDelimiter d) id accept := by
  unfold programMember
  rw [programScope_withDelimiter h h' hs]
  rfl

theorem resolveEnclosing_withDelimiter (name : String) (fuel : Nat) (id : NodeId) :
    s.resolveEnclosing (app.withDelimiter d') name fuel id =
      s.resolveEnclosing (app.withDelimiter d) name fuel id := by
  induction fuel generalizing id with
  | zero => rfl
  | succ fuel ih => simp only [resolveEnclosing, programMember_withDelimiter h h' hs, ih]

theorem resolveSimple_withDelimiter (place : NodeId) (name : String) :
    s.resolveSimple (app.withDelimiter d') place name =
      s.resolveSimple (app.withDelimiter d) place name := by
  unfold resolveSimple
  rw [resolveEnclosing_withDelimiter h h' hs]
  rfl

theorem memberType_withDelimiter (scope : Resolved) (name : String) :
    s.memberType (app.withDelimiter d') scope name =
      s.memberType (app.withDelimiter d) scope name := by
  cases scope with
  | inFile id => simp only [memberType, programMember_withDelimiter h h' hs]
  | known r => rfl

theorem resolveType_withDelimiter (place : NodeId) {text : String} (htext : Absent (d ++ d') text) :
    s.resolveType (app.withDelimiter d') place text =
      s.resolveType (app.withDelimiter d) place text := by
  have hchain : ∀ first rest, s.resolveChain (app.withDelimiter d') place first rest =
      s.resolveChain (app.withDelimiter d) place first rest := by
    intro first rest
    simp only [resolveChain, resolveSimple_withDelimiter h h' hs, memberType_withDelimiter h h' hs]
  obtain ⟨hd, hd'⟩ := absent_append.1 (htext.of_subset (TypeText.erase_subset text))
  have hqualified : resolveQualified (app.withDelimiter d') (TypeText.erase text) =
      resolveQualified (app.withDelimiter d) (TypeText.erase text) := by
    unfold resolveQualified
    rw [Application.find_coordinateOf h h' hd hd']
    rfl
  have hdescribe : s.describe (app.withDelimiter d') = s.describe (app.withDelimiter d) := by
    funext found
    cases found <;> rfl
  rw [resolveType_eq, resolveType_eq, hdescribe]
  simp only [selectType, hchain, hqualified]

theorem relate_withDelimiter (id : NodeId) (kind : AttributeKind) {text : String}
    (htext : Absent (d ++ d') text) :
    s.relate (app.withDelimiter d') id kind text = s.relate (app.withDelimiter d) id kind text := by
  unfold relate
  rw [resolveType_withDelimiter h h' hs _ htext]

end Resolve

end Scope

end Two

end SymbolTable
