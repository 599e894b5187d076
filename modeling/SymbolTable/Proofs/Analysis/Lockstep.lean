import SymbolTable.Proofs.Analysis.Declared
import SymbolTable.Proofs.Tree.Growth

/-!
# Two walks in lockstep

Each step of a walk declares components and may then relate them to types. Declaring reads nothing
but the shape of the tree and a few plain fields, so two walks over one unit stay together under any
relation that sees those and that the remaining operations keep. `Lockstep` lists what such a
relation has to satisfy; `Lockstep.walk` is the run.
-/

namespace SymbolTable

namespace Scope

/-! ## Declaring and relating -/

/-- Declares a type with its type parameters and moves to it. -/
def declareType (s : Scope) (app : Application) (h : TypeHeader) : NodeId × Scope :=
  let s := s.ensurePackage app
  let put := s.putHere (s.typeComponent h)
  let listed :=
    if (s.tree.node s.cursor).kind = .package then
      put.2.imports.foldl (fun s i => (s.put put.1 i).2) put.2
    else put.2
  (put.1, (listed.declareTypeParameters put.1 h.typeParameters).moveTo put.1)

def relateType (s : Scope) (app : Application) (phase : Phase) (id : NodeId) (h : TypeHeader) :
    Scope :=
  if phase.attachesRelationships then
    (s.attachRelationships app id h).attachBounds app id h.typeParameters
  else s

def declareCallable (s : Scope) (kind : ComponentKind) (h : CallableHeader) : NodeId × Scope :=
  let put := s.putHere (callableComponent kind h)
  (put.1, (put.2.declareTypeParameters put.1 h.typeParameters).moveTo put.1)

def relateCallable (s : Scope) (app : Application) (phase : Phase) (id : NodeId)
    (h : CallableHeader) : Scope :=
  if phase.attachesRelationships then s.attachBounds app id h.typeParameters else s

def relateConstant (s : Scope) (app : Application) (phase : Phase) (id owner : NodeId) : Scope :=
  if phase.attachesRelationships then s.mark id .declaredType (s.qualified app owner) else s

theorem enterType_eq (s : Scope) (app : Application) (phase : Phase) (h : TypeHeader) :
    s.enterType app phase h =
      (s.declareType app h).2.relateType app phase (s.declareType app h).1 h := by
  unfold enterType relateType declareType
  rfl

theorem enterCallable_eq (s : Scope) (app : Application) (phase : Phase) (kind : ComponentKind)
    (h : CallableHeader) :
    s.enterCallable app phase kind h =
      (s.declareCallable kind h).2.relateCallable app phase (s.declareCallable kind h).1 h := rfl

theorem enterConstant_eq (s : Scope) (app : Application) (phase : Phase) (h : ConstantHeader) :
    s.enterConstant app phase h =
      (s.enter (constantComponent h)).2.relateConstant app phase
        (s.enter (constantComponent h)).1 s.cursor := rfl

def importComponent (i : ImportDecl) : Component :=
  { kind := .importOf (.classify i.isStatic i.onDemand), value := i.path }

/-- Makes visible what an import names. -/
def openImport (s : Scope) (app : Application) (i : ImportDecl) : Scope :=
  match app.find (app.naming.coordinateOf i.path) with
  | some r => if i.onDemand then s.addContainer r else (s.addVisible r).1
  | none => s

theorem enterImport_eq (s : Scope) (app : Application) (i : ImportDecl) :
    s.enterImport app i = (s.addImport (importComponent i)).1.openImport app i := by
  unfold enterImport openImport
  simp only [ImportKind.isOnDemand_classify]
  rfl

theorem enter_eq (s : Scope) (c : Component) :
    s.enter c = ((s.put s.cursor c).1, (s.put s.cursor c).2.moveTo (s.put s.cursor c).1) := rfl

theorem put_eq (s : Scope) (parent : NodeId) (c : Component) :
    s.put parent c =
      ((s.tree.put parent c).1, { s with tree := (s.tree.put parent c).2 }) := by
  unfold put Tree.put
  cases s.tree.findChild parent c <;> rfl

end Scope

/-! ## Lockstep -/

structure Lockstep (app app' : Application) (phase phase' : Phase)
    (R : Scope → Scope → Prop) : Prop where
  naming : app'.naming = app.naming
  shape : ∀ {s s'}, R s s' → s.tree.SameShape s'.tree
  cursor : ∀ {s s'}, R s s' → s'.cursor = s.cursor
  file : ∀ {s s'}, R s s' → s'.file = s.file
  hasPackage : ∀ {s s'}, R s s' → s'.hasPackage = s.hasPackage
  imports : ∀ {s s'}, R s s' → s'.imports = s.imports
  setFile : ∀ {s s'} f, R s s' → R { s with file := f } { s' with file := f }
  moveTo : ∀ {s s'} id, R s s' → R (s.moveTo id) (s'.moveTo id)
  put : ∀ {s s'} parent c, R s s' → R (s.put parent c).2 (s'.put parent c).2
  openOwn : ∀ {s s'} coordinate, R s s' →
    R ({ s with hasPackage := true }.openPackage app coordinate)
      ({ s' with hasPackage := true }.openPackage app' coordinate)
  addImport : ∀ {s s'} c, R s s' → R (s.addImport c).1 (s'.addImport c).1
  openImport : ∀ {s s'} i, R s s' → R (s.openImport app i) (s'.openImport app' i)
  relateType : ∀ {s s'} id h, R s s' →
    R (s.relateType app phase id h) (s'.relateType app' phase' id h)
  relateCallable : ∀ {s s'} id h, R s s' →
    R (s.relateCallable app phase id h) (s'.relateCallable app' phase' id h)
  relateConstant : ∀ {s s'} id owner, (s.tree.node id).kind = .enumConstant → R s s' →
    R (s.relateConstant app phase id owner) (s'.relateConstant app' phase' id owner)

namespace Lockstep

variable {app app' : Application} {phase phase' : Phase} {R : Scope → Scope → Prop}
  (l : Lockstep app app' phase phase' R) {s s' : Scope}
include l

theorem put_fst (h : R s s') (parent : NodeId) (c : Component) :
    (s'.put parent c).1 = (s.put parent c).1 := by
  have hfind : s'.tree.findChild parent c = s.tree.findChild parent c := by
    simp only [Tree.findChild, Component.sameSymbol, (l.shape h).children, (l.shape h).symbol]
  unfold Scope.put
  rw [hfind]
  split
  · rfl
  · exact (l.shape h).size

theorem putHere (h : R s s') (c : Component) : R (s.putHere c).2 (s'.putHere c).2 := by
  unfold Scope.putHere
  rw [l.cursor h]
  exact l.put _ c h

theorem enter (h : R s s') (c : Component) : R (s.enter c).2 (s'.enter c).2 := by
  rw [Scope.enter_eq, Scope.enter_eq, l.cursor h, l.put_fst h]
  exact l.moveTo _ (l.put _ c h)

omit l in
theorem foldl {α : Type} {f f' : Scope → α → Scope}
    (hf : ∀ {s s'} a, R s s' → R (f s a) (f' s' a)) (as : List α) (h : R s s') :
    R (as.foldl f s) (as.foldl f' s') := by
  induction as generalizing s s' with
  | nil => exact h
  | cons a as ih => exact ih (hf a h)

theorem ensurePackage (h : R s s') : R (s.ensurePackage app) (s'.ensurePackage app') := by
  unfold Scope.ensurePackage
  rw [l.hasPackage h, l.naming, l.file h]
  split
  · exact h
  · exact l.openOwn _ (l.enter h _)

theorem declareTypeParameters (h : R s s') (owner : NodeId) (ps : List TypeParameterDecl) :
    R (s.declareTypeParameters owner ps) (s'.declareTypeParameters owner ps) := by
  apply foldl _ ps h
  intro s s' p h
  exact l.put _ _ h

theorem ensureDefaultConstructor (h : R s s') (owner : NodeId) :
    R (s.ensureDefaultConstructor owner) (s'.ensureDefaultConstructor owner) := by
  unfold Scope.ensureDefaultConstructor
  simp only [(l.shape h).children, (l.shape h).kind, (l.shape h).value]
  split
  · exact h
  · exact l.put _ _ h

theorem ascend (h : R s s') : R s.ascend s'.ascend := by
  unfold Scope.ascend
  rw [l.cursor h, (l.shape h).parent]
  split
  · exact l.moveTo _ h
  · exact h

theorem declareType (h : R s s') (header : TypeHeader) :
    (s'.declareType app' header).1 = (s.declareType app header).1 ∧
      R (s.declareType app header).2 (s'.declareType app' header).2 := by
  have hs := l.ensurePackage h
  have htype : (s'.ensurePackage app').typeComponent header =
      (s.ensurePackage app).typeComponent header := by
    unfold Scope.typeComponent
    rw [l.file hs]
  have hid : ((s'.ensurePackage app').putHere ((s'.ensurePackage app').typeComponent header)).1 =
      ((s.ensurePackage app).putHere ((s.ensurePackage app).typeComponent header)).1 := by
    unfold Scope.putHere
    rw [htype, l.cursor hs, l.put_fst hs]
  refine ⟨hid, ?_⟩
  unfold Scope.declareType
  simp only
  rw [hid, htype, l.cursor hs, (l.shape hs).kind, l.imports (l.putHere hs _)]
  refine l.moveTo _ (l.declareTypeParameters ?_ _ _)
  split
  · apply foldl _ _ (l.putHere hs _)
    intro s s' i h
    exact l.put _ _ h
  · exact l.putHere hs _

theorem declareCallable (h : R s s') (kind : ComponentKind) (header : CallableHeader) :
    (s'.declareCallable kind header).1 = (s.declareCallable kind header).1 ∧
      R (s.declareCallable kind header).2 (s'.declareCallable kind header).2 := by
  have hid : (s'.putHere (Scope.callableComponent kind header)).1 =
      (s.putHere (Scope.callableComponent kind header)).1 := by
    unfold Scope.putHere
    rw [l.cursor h, l.put_fst h]
  refine ⟨hid, ?_⟩
  unfold Scope.declareCallable
  simp only
  rw [hid]
  exact l.moveTo _ (l.declareTypeParameters (l.putHere h _) _ _)

theorem enterPackage (h : R s s') (p : PackageDecl) :
    R (s.enterPackage app p) (s'.enterPackage app' p) := by
  unfold Scope.enterPackage
  rw [l.naming]
  apply l.openOwn
  apply foldl _ _ h
  intro s s' segment h
  exact l.enter h _

theorem enterType (h : R s s') (header : TypeHeader) :
    R (s.enterType app phase header) (s'.enterType app' phase' header) := by
  obtain ⟨hid, hs⟩ := l.declareType h header
  rw [Scope.enterType_eq, Scope.enterType_eq, hid]
  exact l.relateType _ _ hs

theorem enterCallable (h : R s s') (kind : ComponentKind) (header : CallableHeader) :
    R (s.enterCallable app phase kind header) (s'.enterCallable app' phase' kind header) := by
  obtain ⟨hid, hs⟩ := l.declareCallable h kind header
  rw [Scope.enterCallable_eq, Scope.enterCallable_eq, hid]
  exact l.relateCallable _ _ hs

theorem enterConstant (h : R s s') (header : ConstantHeader) :
    R (s.enterConstant app phase header) (s'.enterConstant app' phase' header) := by
  have hid : (s'.enter (Scope.constantComponent header)).1 =
      (s.enter (Scope.constantComponent header)).1 := by
    rw [Scope.enter_eq, Scope.enter_eq, l.cursor h, l.put_fst h]
  rw [Scope.enterConstant_eq, Scope.enterConstant_eq, hid, l.cursor h]
  refine l.relateConstant _ _ ?_ (l.enter h _)
  rw [← Scope.kind_constantComponent header, Scope.enter_eq, Scope.put_eq]
  exact s.tree.kind_put s.cursor _

theorem step (h : R s s') (e : Event) :
    R (Scope.step app phase s e) (Scope.step app' phase' s' e) := by
  cases e with
  | enterUnit u => exact l.setFile _ h
  | exitUnit u => exact h
  | enterPackage p => exact l.enterPackage h p
  | enterImport i =>
    simp only [Scope.step, Scope.enterImport_eq]
    exact l.openImport i (l.addImport _ h)
  | enterType d => exact l.enterType h _
  | exitTypeBody d =>
    simp only [Scope.step, Scope.exitTypeBody]
    rw [l.cursor h]
    split <;> first | exact l.ensureDefaultConstructor h _ | exact h
  | enterConstant d => exact l.enterConstant h _
  | exitConstant d =>
    simp only [Scope.step, Scope.exitConstant]
    rw [l.cursor h]
    exact l.ascend (l.ensureDefaultConstructor h _)
  | enterConstructor d => exact l.enterCallable h _ _
  | enterMethod d => exact l.enterCallable h _ _
  | enterParameter p => exact l.putHere h _
  | enterField f =>
    apply foldl _ f.names h
    intro s s' name h
    exact l.putHere h _
  | exitType d => exact l.ascend h
  | exitConstructor d => exact l.ascend h
  | exitMethod d => exact l.ascend h

/-- Scopes that are related after seeding are related after the walk. -/
theorem walk (u : CompilationUnit) (h : R (s.fullReset.seed app) (s'.fullReset.seed app')) :
    R (s.walk app phase u) (s'.walk app' phase' u) := by
  apply foldl _ u.events h
  intro s s' e h
  exact l.step h e

end Lockstep

end SymbolTable
