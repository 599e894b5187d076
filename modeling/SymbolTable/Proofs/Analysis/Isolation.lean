import SymbolTable.Proofs.Analysis.Lockstep

/-!
# Nothing is handed on from file to file

A scope is used for one file after the other. A walk starts by forgetting all but the revision, and
no step asks for the revision, so that two walks over one unit go in lockstep whatever their scopes
were used for before: `lockstep_withRevision`. What they leave is the same, each in its own
revision.
-/

namespace SymbolTable

namespace Scope

/-- The same scope in another revision. -/
def withRevision (s : Scope) (revisionId : Option String) : Scope := { s with revisionId }

variable (s : Scope) (revisionId : Option String) (app : Application)

@[simp] theorem tree_withRevision : (s.withRevision revisionId).tree = s.tree := rfl

@[simp] theorem cursor_withRevision : (s.withRevision revisionId).cursor = s.cursor := rfl

@[simp] theorem imports_withRevision : (s.withRevision revisionId).imports = s.imports := rfl

@[simp] theorem visible_withRevision : (s.withRevision revisionId).visible = s.visible := rfl

@[simp] theorem mark_withRevision (id : NodeId) (kind : AttributeKind) (value : String) :
    (s.withRevision revisionId).mark id kind value =
      (s.mark id kind value).withRevision revisionId := rfl

/-! ## Resolution -/

theorem fileMember_withRevision (id : NodeId) (accept : Component → Bool) :
    (s.withRevision revisionId).fileMember id accept = s.fileMember id accept := rfl

theorem programMember_withRevision (id : NodeId) (accept : Component → Bool) :
    (s.withRevision revisionId).programMember app id accept = s.programMember app id accept := rfl

theorem findVisible_withRevision (name : String) (accept : Component → Bool) :
    (s.withRevision revisionId).findVisible app name accept = s.findVisible app name accept := rfl

theorem describe_withRevision (found : Resolved) :
    (s.withRevision revisionId).describe app found = s.describe app found := by
  cases found <;> rfl

theorem memberType_withRevision (scope : Resolved) (name : String) :
    (s.withRevision revisionId).memberType app scope name = s.memberType app scope name := by
  cases scope <;> rfl

theorem resolveEnclosing_withRevision (name : String) (fuel : Nat) (place : NodeId) :
    (s.withRevision revisionId).resolveEnclosing app name fuel place =
      s.resolveEnclosing app name fuel place := by
  induction fuel generalizing place with
  | zero => rfl
  | succ fuel ih =>
    simp only [resolveEnclosing, tree_withRevision, fileMember_withRevision,
      programMember_withRevision, ih]

theorem resolveSimple_withRevision (place : NodeId) (name : String) :
    (s.withRevision revisionId).resolveSimple app place name = s.resolveSimple app place name := by
  simp only [resolveSimple, tree_withRevision, resolveEnclosing_withRevision,
    findVisible_withRevision]

theorem resolveType_withRevision (place : NodeId) (text : String) :
    (s.withRevision revisionId).resolveType app place text = s.resolveType app place text := by
  simp only [resolveType, resolveChain, resolveSimple_withRevision, memberType_withRevision,
    describe_withRevision]

/-! ## Relating -/

theorem relate_withRevision (id : NodeId) (kind : AttributeKind) (text : String) :
    (s.withRevision revisionId).relate app id kind text =
      (s.relate app id kind text).withRevision revisionId := by
  unfold relate
  rw [cursor_withRevision, resolveType_withRevision]
  split <;> rfl

/-- A fold stays in its revision if its steps do. -/
theorem foldl_withRevision {α : Type} {f : Scope → α → Scope}
    (hf : ∀ (s : Scope) a, f (s.withRevision revisionId) a = (f s a).withRevision revisionId)
    (as : List α) :
    as.foldl f (s.withRevision revisionId) = (as.foldl f s).withRevision revisionId := by
  induction as generalizing s with
  | nil => rfl
  | cons a as ih => rw [List.foldl_cons, List.foldl_cons, hf, ih]

theorem relateAll_withRevision (id : NodeId) (kind : AttributeKind) (texts : List String) :
    (s.withRevision revisionId).relateAll app id kind texts =
      (s.relateAll app id kind texts).withRevision revisionId := by
  unfold relateAll
  apply foldl_withRevision
  intro s text
  exact s.relate_withRevision revisionId app id kind text

theorem relateBounds_withRevision (id : NodeId) (bounds : List String) :
    (s.withRevision revisionId).relateBounds app id bounds =
      (s.relateBounds app id bounds).withRevision revisionId := by
  cases bounds with
  | nil => rfl
  | cons first rest =>
    rw [relateBounds, relateBounds, relate_withRevision, relateAll_withRevision]

theorem attachBounds_withRevision (owner : NodeId) (parameters : List TypeParameterDecl) :
    (s.withRevision revisionId).attachBounds app owner parameters =
      (s.attachBounds app owner parameters).withRevision revisionId := by
  unfold attachBounds
  apply foldl_withRevision
  intro s p
  rw [tree_withRevision]
  cases s.tree.findChild owner { kind := .typeParameter, value := p.name } with
  | none => rfl
  | some id => exact s.relateBounds_withRevision revisionId app id p.bounds

theorem attachInstantiated_withRevision (id : NodeId) (name : String) :
    (s.withRevision revisionId).attachInstantiated app id name =
      (s.attachInstantiated app id name).withRevision revisionId := by
  unfold attachInstantiated
  rw [tree_withRevision, resolveType_withRevision]
  split <;> rfl

theorem attachSuperclass_withRevision (id : NodeId) (superclass : Option String) :
    (s.withRevision revisionId).attachSuperclass app id superclass =
      (s.attachSuperclass app id superclass).withRevision revisionId := by
  unfold attachSuperclass qualified
  rw [tree_withRevision]
  split
  · exact s.relate_withRevision revisionId app id .extendsType _
  · split <;> rfl

theorem attachRelationships_withRevision (id : NodeId) (h : TypeHeader) :
    (s.withRevision revisionId).attachRelationships app id h =
      (s.attachRelationships app id h).withRevision revisionId := by
  unfold attachRelationships qualified
  rw [tree_withRevision]
  split
  · split
    · exact s.attachInstantiated_withRevision revisionId app id h.name
    · rw [attachSuperclass_withRevision, relateAll_withRevision]
  · exact s.relateAll_withRevision revisionId app id .implementsType h.interfaces
  · rw [mark_withRevision, ← apply_ite (withRevision · revisionId)]
    exact relateAll_withRevision _ revisionId app id .implementsType h.interfaces
  · rfl

theorem relateType_withRevision (phase : Phase) (id : NodeId) (h : TypeHeader) :
    (s.withRevision revisionId).relateType app phase id h =
      (s.relateType app phase id h).withRevision revisionId := by
  unfold relateType
  split
  · rw [attachRelationships_withRevision, attachBounds_withRevision]
  · rfl

theorem relateCallable_withRevision (phase : Phase) (id : NodeId) (h : CallableHeader) :
    (s.withRevision revisionId).relateCallable app phase id h =
      (s.relateCallable app phase id h).withRevision revisionId := by
  unfold relateCallable
  split
  · exact s.attachBounds_withRevision revisionId app id h.typeParameters
  · rfl

theorem relateConstant_withRevision (phase : Phase) (id owner : NodeId) :
    (s.withRevision revisionId).relateConstant app phase id owner =
      (s.relateConstant app phase id owner).withRevision revisionId := by
  unfold relateConstant
  split <;> rfl

/-! ## Walks -/

theorem put_withRevision (parent : NodeId) (c : Component) :
    ((s.withRevision revisionId).put parent c).2 =
      (s.put parent c).2.withRevision revisionId := by
  rw [put_eq, put_eq]
  rfl

theorem openPackage_withRevision (coordinate : String) :
    (s.withRevision revisionId).openPackage app coordinate =
      (s.openPackage app coordinate).withRevision revisionId := by
  unfold openPackage
  split <;> rfl

theorem addImport_withRevision (c : Component) :
    ((s.withRevision revisionId).addImport c).1 =
      (s.addImport c).1.withRevision revisionId := by
  unfold addImport
  rw [imports_withRevision]
  split <;> rfl

theorem addVisible_withRevision (r : ComponentRef) :
    ((s.withRevision revisionId).addVisible r).1 =
      (s.addVisible r).1.withRevision revisionId := by
  unfold addVisible
  rw [visible_withRevision]
  split <;> rfl

theorem openImport_withRevision (i : ImportDecl) :
    (s.withRevision revisionId).openImport app i =
      (s.openImport app i).withRevision revisionId := by
  unfold openImport
  split
  · split
    · rfl
    · exact s.addVisible_withRevision revisionId _
  · rfl

/-- Two walks in one application and phase keep scopes that differ in the revision alone. -/
theorem lockstep_withRevision (phase : Phase) :
    Lockstep app app phase phase fun s s' => s' = s.withRevision revisionId where
  naming := rfl
  shape := by rintro s _ rfl; exact Tree.SameShape.refl s.tree
  cursor := by rintro s _ rfl; rfl
  file := by rintro s _ rfl; rfl
  hasPackage := by rintro s _ rfl; rfl
  imports := by rintro s _ rfl; rfl
  setFile := by rintro s _ file rfl; rfl
  moveTo := by rintro s _ id rfl; rfl
  put := by rintro s _ parent c rfl; exact s.put_withRevision revisionId parent c
  openOwn := by
    rintro s _ coordinate rfl
    exact openPackage_withRevision { s with hasPackage := true } revisionId app coordinate
  addImport := by rintro s _ c rfl; exact s.addImport_withRevision revisionId c
  openImport := by rintro s _ i rfl; exact s.openImport_withRevision revisionId app i
  relateType := by rintro s _ id h rfl; exact s.relateType_withRevision revisionId app phase id h
  relateCallable := by
    rintro s _ id h rfl
    exact s.relateCallable_withRevision revisionId app phase id h
  relateConstant := by
    rintro s _ id owner _ rfl
    exact s.relateConstant_withRevision revisionId app phase id owner

/-- A fresh scope forgets all but the revision. -/
theorem walk_eq_withRevision (phase : Phase) (u : CompilationUnit) :
    s.walk app phase u = (({} : Scope).walk app phase u).withRevision s.revisionId := by
  apply (lockstep_withRevision s.revisionId app phase).walk
  rfl

end Scope

/-- Whatever two scopes were used for, a unit gets the same tree from both, and the scopes it leaves
differ in nothing but the revision, which each of them keeps. What is visible to the unit stays
visible, but the tree is a new one, with the cursor at its root, and no file is current. -/
theorem build_of_any_scope (s s' : Scope) (app : Application) (phase : Phase)
    (u : CompilationUnit) :
    (s'.build app phase u).1 = (s.build app phase u).1 ∧
      (s'.build app phase u).2 =
        { (s.build app phase u).2 with revisionId := s'.revisionId } ∧
      (s.build app phase u).2.revisionId = s.revisionId ∧
      (s.build app phase u).2.tree = .empty ∧
      (s.build app phase u).2.cursor = Tree.root ∧
      (s.build app phase u).2.file = none := by
  have hwalk := s.walk_eq_withRevision app phase u
  have hwalk' := s'.walk_eq_withRevision app phase u
  refine ⟨?_, ?_, ?_, rfl, rfl, rfl⟩
  · rw [Scope.build, Scope.build, hwalk, hwalk']
    rfl
  · rw [Scope.build, Scope.build, hwalk, hwalk']
    rfl
  · rw [Scope.build, hwalk]
    rfl

end SymbolTable
