import SymbolTable.Proofs.Analysis.CursorPath
import SymbolTable.Proofs.Tree.Assembly
import SymbolTable.Proofs.Tree.Union

/-!
# Audited walks

`Tree.attach` refuses to link a component twice, and `Scope.descend` to send the cursor to a
component that hangs nowhere. A walk links what it has just created and goes where it has just
linked, so it does without the checks. An audited walk takes the same steps with both checks in
place and writes down what it builds. `run_walk` shows that it never stops; what it has written down
is the subject of `Passes` and `Opens`.
-/

namespace SymbolTable

open SymbolTable.Scope (constantComponent callableComponent parameterComponent fieldComponent)

theorem Tree.Extends.mem_children {t t' : Tree} (h : t.Extends t') {above id : NodeId}
    (hid : id ∈ t.children above) : id ∈ t'.children above :=
  (h.children (lt_size_of_mem_children hid)).subset hid

/-- Why an audited walk stops. -/
inductive AuditError where
  | attach (error : Tree.AttachError)
  | cursor (error : CursorError)
  deriving DecidableEq, Repr

/-- A scope with the components built so far, in order. A component that is found instead of created
has been built once more. -/
structure Audit where
  scope : Scope
  built : List NodeId
  deriving DecidableEq, Repr

abbrev Audited := StateT Audit (Except AuditError)

/-- What a type lists: its type parameters and, if it is directly in a package, the imports of the
file. -/
def Scope.listing (s : Scope) (h : TypeHeader) : List Component :=
  (if (s.tree.node s.cursor).kind = .package then s.imports else []) ++
    h.typeParameters.map typeParameterComponent

namespace Audited

def scope : Audited Scope := return (← get).scope

/-- Changes the scope where there is nothing to check. -/
def change (f : Scope → Scope) : Audited Unit := modify fun a => { a with scope := f a.scope }

def check {ε α : Type} (error : ε → AuditError) : Except ε α → Audited α
  | .ok a => pure a
  | .error e => throw (error e)

/-- Goes on with the tree in which `id` has been built. -/
def record (id : NodeId) (tree : Tree) : Audited NodeId := do
  modify fun a => ⟨{ a.scope with tree }, a.built ++ [id]⟩
  return id

/-- Puts `c` below `parent`; a new component is created first and then attached. -/
def put (parent : NodeId) (c : Component) : Audited NodeId := do
  let tree := (← scope).tree
  match tree.findChild parent c with
  | some existing =>
    record existing (tree.modify existing fun node => node.uniteAttributes c.attributes)
  | none =>
    let attached ← check .attach ((tree.create c).attach parent tree.size)
    record tree.size attached

def puts (parent : NodeId) (cs : List Component) : Audited Unit :=
  cs.forM fun c => do let _ ← put parent c

def putHere (c : Component) : Audited NodeId := do put (← scope).cursor c

def descend (id : NodeId) : Audited Unit := do
  let moved ← check .cursor ((← scope).descend id)
  change fun _ => moved

/-- Puts `c` below the cursor, fills it with what it lists, and descends to it. -/
def enter (c : Component) (listed : List Component) : Audited NodeId := do
  let id ← putHere c
  puts id listed
  descend id
  return id

def openPackage (app : Application) (coordinate : String) : Audited Unit :=
  change fun s => { s with hasPackage := true }.openPackage app coordinate

def ensurePackage (app : Application) : Audited Unit := do
  let s ← scope
  if s.hasPackage then return
  let _ ← enter (packageComponent app.naming.defaultPackage s.file.toList) []
  openPackage app app.naming.defaultPackage

def ensureDefaultConstructor : Audited Unit := do
  let s ← scope
  if s.tree.hasConstructor s.cursor then return
  let _ ← putHere (defaultConstructor (s.tree.node s.cursor).value)

def enterPackage (app : Application) (p : PackageDecl) : Audited Unit := do
  p.segments.forM fun segment => do let _ ← enter (packageComponent segment []) []
  openPackage app (app.naming.delimiter.intercalate p.segments)

def declareType (app : Application) (phase : Phase) (h : TypeHeader) : Audited Unit := do
  let s ← scope
  let id ← enter (s.typeComponent h) (s.listing h)
  change fun s => s.relateType app phase id h

def enterType (app : Application) (phase : Phase) (h : TypeHeader) : Audited Unit := do
  ensurePackage app
  declareType app phase h

def exitTypeBody (h : TypeHeader) : Audited Unit :=
  match h.kind with
  | .classType | .enumType => ensureDefaultConstructor
  | .interfaceType | .annotationType => return

def enterConstant (app : Application) (phase : Phase) (h : ConstantHeader) : Audited Unit := do
  let owner := (← scope).cursor
  let id ← enter (constantComponent h) []
  change fun s => s.relateConstant app phase id owner

def exitConstant : Audited Unit := do
  ensureDefaultConstructor
  change .ascend

def enterCallable (app : Application) (phase : Phase) (kind : ComponentKind) (h : CallableHeader) :
    Audited Unit := do
  let id ← enter (callableComponent kind h) (h.typeParameters.map typeParameterComponent)
  change fun s => s.relateCallable app phase id h

def step (app : Application) (phase : Phase) : Event → Audited Unit
  | .enterUnit u => change fun s => { s with file := some ⟨.sourceName, u.fileName⟩ }
  | .exitUnit _ => return
  | .enterPackage p => enterPackage app p
  | .enterImport i => change fun s => s.enterImport app i
  | .enterType d => enterType app phase d.header
  | .exitTypeBody d => exitTypeBody d.header
  | .exitType _ => change .ascend
  | .enterConstant d => enterConstant app phase d.header
  | .exitConstant _ => exitConstant
  | .enterConstructor d => enterCallable app phase .constructor d.header
  | .exitConstructor _ => change .ascend
  | .enterMethod d => enterCallable app phase .method d.header
  | .exitMethod _ => change .ascend
  | .enterParameter p => do let _ ← putHere (parameterComponent p)
  | .enterField f => f.names.forM fun name => do let _ ← putHere (fieldComponent f name)

def walk (app : Application) (phase : Phase) (events : List Event) : Audited Unit :=
  events.forM (step app phase)

/-! ## Passing the checks -/

/-- From `s` the steps `m` pass all checks with the outcome `x` and end in `s'`, and all that they
build lies below `top`. -/
structure Passes {α : Type} (m : Audited α) (top : NodeId) (s : Scope) (x : α) (s' : Scope) :
    Prop where
  sound : s'.Sound
  growth : s.tree.Extends s'.tree
  run : ∃ ids, (∀ built, m.run ⟨s, built⟩ = .ok (x, ⟨s', built ++ ids⟩)) ∧
    ∀ id ∈ ids, s'.tree.Below top id

/-- From `s` the steps `m` pass all checks. The first component that they build is `id`, a child of
`home`, and the others lie below it. -/
structure Opens {α : Type} (m : Audited α) (home id : NodeId) (s : Scope) (x : α) (s' : Scope) :
    Prop where
  sound : s'.Sound
  growth : s.tree.Extends s'.tree
  child : id ∈ s'.tree.children home
  run : ∃ ids, (∀ built, m.run ⟨s, built⟩ = .ok (x, ⟨s', built ++ id :: ids⟩)) ∧
    ∀ inner ∈ ids, s'.tree.Below id inner

theorem run_bind_ok {α β : Type} {m : Audited α} {f : α → Audited β} {a a' a'' : Audit} {x : α}
    {y : β} (h : m.run a = .ok (x, a')) (h' : (f x).run a' = .ok (y, a'')) :
    (m >>= f).run a = .ok (y, a'') := by
  rw [StateT.run_bind, h]
  exact h'

namespace Passes

variable {α β : Type} {m : Audited α} {f : α → Audited β} {top : NodeId} {s s₁ s₂ : Scope} {x : α}
  {y : β}

theorem of_run (hs : s₁.Sound) (hgrowth : s.tree.Extends s₁.tree)
    (hrun : ∀ built, m.run ⟨s, built⟩ = .ok (x, ⟨s₁, built⟩)) : Passes m top s x s₁ := by
  refine ⟨hs, hgrowth, [], fun built => ?_, fun _ hid => absurd hid List.not_mem_nil⟩
  rw [List.append_nil]
  exact hrun built

theorem pure (hs : s.Sound) (x : α) : Passes (Pure.pure x) top s x s :=
  of_run hs (.refl _) fun _ => rfl

theorem scope (hs : s.Sound) : Passes Audited.scope top s s s := of_run hs (.refl _) fun _ => rfl

theorem change {g : Scope → Scope} (hg : (g s).Sound) (hgrowth : s.tree.Extends (g s).tree) :
    Passes (Audited.change g) top s () (g s) :=
  of_run hg hgrowth fun _ => rfl

theorem bind (h : Passes m top s x s₁) (h' : Passes (f x) top s₁ y s₂) :
    Passes (m >>= f) top s y s₂ := by
  obtain ⟨ids, hrun, hids⟩ := h.run
  obtain ⟨ids', hrun', hids'⟩ := h'.run
  refine ⟨h'.sound, h.growth.trans h'.growth, ids ++ ids', fun built => ?_, fun id hid => ?_⟩
  · rw [← List.append_assoc]
    exact run_bind_ok (hrun built) (hrun' _)
  · rcases List.mem_append.1 hid with hid | hid
    · exact h'.growth.below (hids id hid)
    · exact hids' id hid

/-- What lies below a component below `top` lies below `top`. -/
theorem of_below {mid : NodeId} (h : Passes m mid s x s₁) (hmid : s.tree.Below top mid) :
    Passes m top s x s₁ := by
  obtain ⟨ids, hrun, hids⟩ := h.run
  exact ⟨h.sound, h.growth, ids, hrun, fun id hid =>
    (h.growth.below hmid).trans (hids id hid)⟩

end Passes

namespace Opens

variable {α β : Type} {m : Audited α} {f : α → Audited β} {home id : NodeId} {s s₁ s₂ : Scope} {x : α}
  {y : β}

theorem passes (h : Opens m home id s x s₁) : Passes m home s x s₁ := by
  obtain ⟨ids, hrun, hids⟩ := h.run
  refine ⟨h.sound, h.growth, id :: ids, hrun, fun inner hinner => ?_⟩
  rcases List.mem_cons.1 hinner with rfl | hinner
  · exact .child h.child
  · exact (Tree.Below.child h.child).trans (hids inner hinner)

theorem bind (h : Opens m home id s x s₁) (h' : Passes (f x) id s₁ y s₂) :
    Opens (m >>= f) home id s y s₂ := by
  obtain ⟨ids, hrun, hids⟩ := h.run
  obtain ⟨ids', hrun', hids'⟩ := h'.run
  refine ⟨h'.sound, h.growth.trans h'.growth, h'.growth.mem_children h.child, ids ++ ids',
    fun built => ?_, fun inner hinner => ?_⟩
  · rw [← List.cons_append, ← List.append_assoc]
    exact run_bind_ok (hrun built) (hrun' _)
  · rcases List.mem_append.1 hinner with hinner | hinner
    · exact h'.growth.below (hids inner hinner)
    · exact hids' inner hinner

/-- Before there may be steps that do nothing. -/
theorem of_run {m : Audited α} (hm : ∀ built, m.run ⟨s, built⟩ = .ok (x, ⟨s, built⟩))
    (h : Opens (f x) home id s y s₁) : Opens (m >>= f) home id s y s₁ := by
  obtain ⟨ids, hrun, hids⟩ := h.run
  exact ⟨h.sound, h.growth, h.child, ids, fun built => run_bind_ok (hm built) (hrun built), hids⟩

end Opens

/-! ## The checks -/

/-- What was just created is linked nowhere. -/
theorem attach_create {t : Tree} (ht : t.Grown) (parent : NodeId) (c : Component) :
    (t.create c).attach parent t.size = .ok (t.add parent c) := by
  have hfree : (t.create c).parent t.size = none := by
    rw [Tree.parent, Tree.node_create, if_pos rfl]
    rfl
  exact if_pos ⟨Nat.ne_of_gt ht.root_lt, hfree⟩

theorem run_put {s : Scope} (hs : s.tree.Grown) (parent : NodeId) (c : Component)
    (built : List NodeId) :
    (put parent c).run ⟨s, built⟩ =
      .ok ((s.put parent c).1, ⟨(s.put parent c).2, built ++ [(s.put parent c).1]⟩) := by
  have hput : (put parent c).run ⟨s, built⟩ =
      (match s.tree.findChild parent c with
        | some existing =>
          record existing (s.tree.modify existing fun node => node.uniteAttributes c.attributes)
        | none => do
          let attached ← check .attach ((s.tree.create c).attach parent s.tree.size)
          record s.tree.size attached).run ⟨s, built⟩ := rfl
  rw [hput, Scope.put, attach_create hs]
  cases s.tree.findChild parent c <;> rfl

section Steps

variable {s : Scope} (hs : s.Sound)
include hs

theorem opens_put {parent : NodeId} (hp : parent < s.tree.size) {c : Component}
    (hc : c.kind ≠ .root) :
    Opens (put parent c) parent (s.put parent c).1 s (s.put parent c).1 (s.put parent c).2 := by
  refine ⟨hs.put hp hc, ?_, ?_, [], run_put hs.grown parent c, fun _ h => absurd h List.not_mem_nil⟩
  · rw [Scope.put_eq]
    exact Tree.extends_put _ c hp
  · rw [Scope.put_eq]
    exact Tree.mem_children_of_childWith (hs.grown.childWith_put hp)

theorem opens_putHere {c : Component} (hc : c.kind ≠ .root) :
    Opens (putHere c) s.cursor (s.putHere c).1 s (s.putHere c).1 (s.putHere c).2 := by
  obtain ⟨hsound, hgrowth, hchild, hrun⟩ := opens_put hs hs.cursor_lt hc
  exact ⟨hsound, hgrowth, hchild, hrun⟩

omit hs in
theorem passes_puts {parent : NodeId} (cs : List Component) (hcs : ∀ c ∈ cs, c.kind ≠ .root)
    {s : Scope} (hs : s.Sound) (hp : parent < s.tree.size) :
    Passes (puts parent cs) parent s () (cs.foldl (fun s c => (s.put parent c).2) s) := by
  induction cs generalizing s with
  | nil => exact .pure hs ()
  | cons c cs ih =>
    obtain ⟨hc, hcs⟩ := List.forall_mem_cons.1 hcs
    have hput := opens_put hs hp hc
    exact (hput.passes.bind (.pure hput.sound ())).bind (ih hcs hput.sound (hput.growth.lt hp))

theorem run_descend {id above : NodeId} (hid : id ∈ s.tree.children above) (built : List NodeId) :
    (descend id).run ⟨s, built⟩ = .ok ((), ⟨s.moveTo id, built⟩) := by
  have hok : s.descend id = .ok (s.moveTo id) :=
    if_pos (.inr (Option.isSome_iff_exists.2 ⟨above, hs.grown.parent_child hid⟩))
  have hrun : (descend id).run ⟨s, built⟩ =
      (check .cursor (s.descend id) >>= fun moved => change fun _ => moved).run ⟨s, built⟩ := rfl
  rw [hrun, hok]
  rfl

theorem passes_descend {id above : NodeId} (hid : id ∈ s.tree.children above) (top : NodeId) :
    Passes (descend id) top s () (s.moveTo id) :=
  .of_run (hs.moveTo (hs.grown.child_lt hid)) (.refl _) (run_descend hs hid)

end Steps

end Audited

/-! ## Entering -/

namespace Scope

variable (s : Scope) (app : Application) (phase : Phase)

/-- Puts `c` below the cursor, fills it with what it lists, and moves to it. -/
def entered (c : Component) (listed : List Component) : Scope :=
  (listed.foldl (fun s' d => (s'.put (s.putHere c).1 d).2) (s.putHere c).2).moveTo (s.putHere c).1

theorem ensurePackage_eq_entered (hpackage : s.hasPackage = false) :
    s.ensurePackage app =
      { s.entered (packageComponent app.naming.defaultPackage s.file.toList) [] with
        hasPackage := true }.openPackage app app.naming.defaultPackage := by
  rw [ensurePackage, hpackage]
  rfl

theorem cursor_ensurePackage (hpackage : s.hasPackage = false) :
    (s.ensurePackage app).cursor =
      (s.putHere (packageComponent app.naming.defaultPackage s.file.toList)).1 := by
  rw [s.ensurePackage_eq_entered app hpackage]
  exact (of_clearVisible_eq (clearVisible_openPackage _ app _)).2.1

theorem enterType_eq_entered (hpackage : s.hasPackage = true) (h : TypeHeader) :
    s.enterType app phase h =
      (s.entered (s.typeComponent h) (s.listing h)).relateType app phase
        (s.putHere (s.typeComponent h)).1 h := by
  have himports : (s.putHere (s.typeComponent h)).2.imports = s.imports := by rw [putHere, put_eq]
  have hlisted : (if (s.tree.node s.cursor).kind = .package then
        (s.putHere (s.typeComponent h)).2.imports.foldl
          (fun s' i => (s'.put (s.putHere (s.typeComponent h)).1 i).2)
          (s.putHere (s.typeComponent h)).2
      else (s.putHere (s.typeComponent h)).2) =
      (if (s.tree.node s.cursor).kind = .package then s.imports else []).foldl
        (fun s' i => (s'.put (s.putHere (s.typeComponent h)).1 i).2)
        (s.putHere (s.typeComponent h)).2 := by
    rw [himports]
    split <;> rfl
  have hdeclare : (s.declareType app h).2 = s.entered (s.typeComponent h) (s.listing h) := by
    rw [declareType, s.ensurePackage_of_hasPackage app hpackage]
    simp only
    rw [hlisted, entered, listing, List.foldl_append, List.foldl_map]
    rfl
  rw [enterType_eq, hdeclare, declareType, s.ensurePackage_of_hasPackage app hpackage]

theorem enterCallable_eq_entered (kind : ComponentKind) (h : CallableHeader) :
    s.enterCallable app phase kind h =
      (s.entered (callableComponent kind h)
        (h.typeParameters.map typeParameterComponent)).relateCallable app phase
          (s.putHere (callableComponent kind h)).1 h := by
  rw [entered, List.foldl_map]
  rfl

end Scope

namespace Audited

theorem packageComponent_ne_root (name : String) (attributes : List Attribute) :
    (packageComponent name attributes).kind ≠ .root := by
  intro h
  cases h

section Enter

variable (app : Application) (phase : Phase) {s : Scope} (hs : s.Sound)
include hs

theorem opens_enter {c : Component} (hc : c.kind ≠ .root) (listed : List Component)
    (hlisted : ∀ d ∈ listed, d.kind ≠ .root) :
    Opens (enter c listed) s.cursor (s.putHere c).1 s (s.putHere c).1 (s.entered c listed) := by
  have hput := opens_putHere hs hc
  have hputs := passes_puts listed hlisted hput.sound (hput.sound.grown.child_lt hput.child)
  have hdescend := passes_descend hputs.sound (hputs.growth.mem_children hput.child) (s.putHere c).1
  exact hput.bind (hputs.bind (hdescend.bind (.pure hdescend.sound _)))

theorem passes_openPackage (coordinate : String) {top : NodeId} :
    Passes (openPackage app coordinate) top s ()
      ({ s with hasPackage := true }.openPackage app coordinate) := by
  have hacts : Scope.Acts app .declaration s
      ({ s with hasPackage := true }.openPackage app coordinate) :=
    Scope.acts_openPackage hs true coordinate
  exact .change (hacts.sound hs) (hacts.growth hs)

theorem passes_change_of_marks {top : NodeId} {g : Scope → Scope} (hmarks : s.Marks (g s)) :
    Passes (change g) top s () (g s) :=
  .change (hmarks.sound hs) hmarks.growth

omit hs in
theorem run_ensurePackage_eq (built : List NodeId) :
    (ensurePackage app).run ⟨s, built⟩ = (if s.hasPackage then pure () else do
      let _ ← enter (packageComponent app.naming.defaultPackage s.file.toList) []
      openPackage app app.naming.defaultPackage : Audited Unit).run ⟨s, built⟩ := rfl

omit hs in
theorem run_ensurePackage_of_hasPackage (hpackage : s.hasPackage = true) (built : List NodeId) :
    (ensurePackage app).run ⟨s, built⟩ = .ok ((), ⟨s, built⟩) := by
  rw [run_ensurePackage_eq, if_pos hpackage]
  rfl

theorem run_enter_nil {c : Component} (hc : c.kind ≠ .root) (built : List NodeId) :
    (enter c []).run ⟨s, built⟩ =
      .ok ((s.putHere c).1, ⟨s.entered c [], built ++ [(s.putHere c).1]⟩) := by
  have hput := opens_putHere hs hc
  have hdescend := run_descend hput.sound hput.child (built ++ [(s.putHere c).1])
  exact run_bind_ok (run_put hs.grown s.cursor c built)
    (run_bind_ok (x := ()) rfl (run_bind_ok hdescend rfl))

/-- The default package is built where the cursor is, and nothing else. -/
theorem run_ensurePackage (hpackage : s.hasPackage = false) (built : List NodeId) :
    (ensurePackage app).run ⟨s, built⟩ =
      .ok ((), ⟨s.ensurePackage app, built ++ [(s.ensurePackage app).cursor]⟩) := by
  rw [run_ensurePackage_eq, hpackage, if_neg Bool.false_ne_true,
    s.cursor_ensurePackage app hpackage, s.ensurePackage_eq_entered app hpackage]
  have hroot := packageComponent_ne_root app.naming.defaultPackage s.file.toList
  exact run_bind_ok (run_enter_nil hs hroot built) rfl

theorem opens_ensurePackage (hpackage : s.hasPackage = false) :
    Opens (ensurePackage app) s.cursor (s.ensurePackage app).cursor s () (s.ensurePackage app) := by
  have hroot := packageComponent_ne_root app.naming.defaultPackage s.file.toList
  have henter := opens_enter hs hroot [] (List.forall_mem_nil _)
  have hopens := henter.bind (f := fun _ => openPackage app app.naming.defaultPackage)
    (passes_openPackage app henter.sound app.naming.defaultPackage)
  rw [← s.ensurePackage_eq_entered app hpackage, ← s.cursor_ensurePackage app hpackage] at hopens
  exact ⟨hopens.sound, hopens.growth, hopens.child, [], run_ensurePackage app hs hpackage,
    List.forall_mem_nil _⟩

theorem opens_declareType (hpackage : s.hasPackage = true) (h : TypeHeader) :
    Opens (declareType app phase h) s.cursor (s.putHere (s.typeComponent h)).1 s ()
      (s.enterType app phase h) := by
  have hlisting : ∀ d ∈ s.listing h, d.kind ≠ .root := by
    intro d hd
    rcases List.mem_append.1 hd with hd | hd
    · split at hd
      · exact (hs.imports d hd).ne_root
      · exact absurd hd List.not_mem_nil
    · exact Scope.kind_typeParameterComponent d hd
  have henter := opens_enter hs (Scope.plain_typeComponent hs.file h).ne_root _ hlisting
  have hmarks := (Scope.relates_relateType (s.entered (s.typeComponent h) (s.listing h)) app
    (s.putHere (s.typeComponent h)).1 phase h).marks
  rw [s.enterType_eq_entered app phase hpackage]
  exact .of_run (m := scope) (fun _ => rfl)
    (henter.bind (passes_change_of_marks henter.sound hmarks))

theorem opens_enterType (hpackage : s.hasPackage = true) (h : TypeHeader) :
    Opens (enterType app phase h) s.cursor (s.putHere (s.typeComponent h)).1 s ()
      (s.enterType app phase h) :=
  .of_run (run_ensurePackage_of_hasPackage app hpackage) (opens_declareType app phase hs hpackage h)

theorem passes_enterType (h : TypeHeader) :
    Passes (enterType app phase h) s.cursor s () (s.enterType app phase h) := by
  cases hpackage : s.hasPackage with
  | true => exact (opens_enterType app phase hs hpackage h).passes
  | false =>
    -- The type is built below the default package, and that where the cursor was.
    have hopens := opens_ensurePackage app hs hpackage
    have hdeclare := opens_declareType app phase hopens.sound (s.hasPackage_ensurePackage app) h
    rw [s.enterType_ensurePackage app phase h] at hdeclare
    exact hopens.passes.bind (hdeclare.passes.of_below (.child hopens.child))

theorem opens_enterCallable (kind : ComponentKind) (hroot : kind ≠ .root) (h : CallableHeader) :
    Opens (enterCallable app phase kind h) s.cursor (s.putHere (callableComponent kind h)).1 s ()
      (s.enterCallable app phase kind h) := by
  have hkind : (callableComponent kind h).kind ≠ .root := by
    rw [show (callableComponent kind h).kind = kind from
      congrArg Symbol.kind (Scope.symbol_callableComponent kind h)]
    exact hroot
  have henter := opens_enter hs hkind (h.typeParameters.map typeParameterComponent)
    Scope.kind_typeParameterComponent
  have hmarks := (Scope.relates_relateCallable (s.entered (callableComponent kind h)
    (h.typeParameters.map typeParameterComponent)) app (s.putHere (callableComponent kind h)).1
    phase h).marks
  rw [s.enterCallable_eq_entered app phase kind h]
  exact henter.bind (passes_change_of_marks henter.sound hmarks)

theorem opens_enterConstant (h : ConstantHeader) :
    Opens (enterConstant app phase h) s.cursor (s.putHere (constantComponent h)).1 s ()
      (s.enterConstant app phase h) := by
  have hroot : (constantComponent h).kind ≠ .root := by
    rw [Scope.kind_constantComponent]
    decide
  have henter := opens_enter hs hroot [] (List.forall_mem_nil _)
  have hmarks := Scope.marks_relateConstant (s.entered (constantComponent h) []) app
    (s.putHere (constantComponent h)).1 phase s.cursor
  exact .of_run (m := scope) (fun _ => rfl)
    (henter.bind (passes_change_of_marks henter.sound hmarks))

end Enter

/-! ## Leaving -/

section Leave

variable {s : Scope} (hs : s.Sound)
include hs

theorem passes_ascend {top : NodeId} : Passes (change .ascend) top s () s.ascend := by
  have hacts : Scope.Acts (default : Application) .declaration s s.ascend := Scope.acts_ascend hs
  exact .change (hacts.sound hs) (hacts.growth hs)

theorem passes_ensureDefaultConstructor :
    Passes ensureDefaultConstructor s.cursor s () (s.ensureDefaultConstructor s.cursor) := by
  have hscope : s.ensureDefaultConstructor s.cursor = if s.tree.hasConstructor s.cursor then s else
      (s.putHere (defaultConstructor (s.tree.node s.cursor).value)).2 := rfl
  refine Passes.bind (.scope hs) ?_
  rw [hscope]
  split
  · exact .pure hs ()
  · have hput := opens_putHere hs
      (Scope.plain_defaultConstructor (s.tree.node s.cursor).value).ne_root
    exact hput.passes.bind (.pure hput.sound ())

theorem passes_exitTypeBody (h : TypeHeader) :
    Passes (exitTypeBody h) s.cursor s () (s.exitTypeBody h) := by
  unfold exitTypeBody Scope.exitTypeBody
  cases h.kind with
  | classType => exact passes_ensureDefaultConstructor hs
  | enumType => exact passes_ensureDefaultConstructor hs
  | interfaceType => exact .pure hs ()
  | annotationType => exact .pure hs ()

theorem passes_exitConstant : Passes exitConstant s.cursor s () s.exitConstant := by
  have hconstructor := passes_ensureDefaultConstructor hs
  exact hconstructor.bind (passes_ascend hconstructor.sound)

end Leave

/-! ## Events -/

theorem passes_packages (names : List String) {s : Scope} (hs : s.Sound) :
    Passes (names.forM fun name => do let _ ← enter (packageComponent name []) []) s.cursor s ()
      (names.foldl (fun s name => (s.enter (packageComponent name [])).2) s) := by
  induction names generalizing s with
  | nil => exact .pure hs ()
  | cons name names ih =>
    have henter := opens_enter hs (packageComponent_ne_root name []) [] (List.forall_mem_nil _)
    exact (henter.passes.bind (.pure henter.sound ())).bind
      ((ih henter.sound).of_below (.child henter.child))

theorem passes_fields (f : FieldDecl) (names : List String) {s : Scope} (hs : s.Sound) :
    Passes (names.forM fun name => do let _ ← putHere (fieldComponent f name)) s.cursor s ()
      (names.foldl (fun s name => (s.putHere (fieldComponent f name)).2) s) := by
  induction names generalizing s with
  | nil => exact .pure hs ()
  | cons name names ih =>
    have hput := opens_putHere hs (Scope.plain_fieldComponent f name).ne_root
    have hcursor : (s.putHere (fieldComponent f name)).2.cursor = s.cursor := s.cursor_put s.cursor _
    have hrest := ih hput.sound
    rw [hcursor] at hrest
    exact (hput.passes.bind (.pure hput.sound ())).bind hrest

section Walk

variable (app : Application) (phase : Phase) {s : Scope} (hs : s.Sound)
include hs

/-- An event passes the checks, and what it builds lies below where the cursor was. -/
theorem passes_step (e : Event) :
    Passes (step app phase e) s.cursor s () (Scope.step app phase s e) := by
  have hacts : Scope.Acts app phase s (Scope.step app phase s e) := Scope.acts_step hs e
  cases e with
  | enterUnit u =>
    exact .change (g := fun s => { s with file := some ⟨.sourceName, u.fileName⟩ }) (hacts.sound hs)
      (hacts.growth hs)
  | exitUnit u => exact .pure hs ()
  | enterPackage p =>
    have hpackages := passes_packages p.segments hs
    exact hpackages.bind (passes_openPackage app hpackages.sound _)
  | enterImport i =>
    exact .change (g := fun s => s.enterImport app i) (hacts.sound hs) (hacts.growth hs)
  | enterType d => exact passes_enterType app phase hs d.header
  | exitTypeBody d => exact passes_exitTypeBody hs d.header
  | exitType d => exact passes_ascend hs
  | enterConstant d => exact (opens_enterConstant app phase hs d.header).passes
  | exitConstant d => exact passes_exitConstant hs
  | enterConstructor d =>
    exact (opens_enterCallable app phase hs .constructor (by decide) d.header).passes
  | exitConstructor d => exact passes_ascend hs
  | enterMethod d => exact (opens_enterCallable app phase hs .method (by decide) d.header).passes
  | exitMethod d => exact passes_ascend hs
  | enterParameter p =>
    have hput := opens_putHere hs (Scope.plain_parameterComponent p).ne_root
    exact hput.passes.bind (.pure hput.sound ())
  | enterField f => exact passes_fields f f.names hs

/-- An audited walk does not stop, and it is the walk. -/
theorem run_walk (events : List Event) : ∃ ids, ∀ built, (walk app phase events).run ⟨s, built⟩ =
    .ok ((), ⟨events.foldl (Scope.step app phase) s, built ++ ids⟩) := by
  induction events generalizing s with
  | nil => exact ⟨[], fun built => by rw [List.append_nil]; rfl⟩
  | cons e events ih =>
    have hstep := passes_step app phase hs e
    obtain ⟨ids, hrun, -⟩ := hstep.run
    obtain ⟨ids', hrun'⟩ := ih hstep.sound
    refine ⟨ids ++ ids', fun built => ?_⟩
    rw [← List.append_assoc]
    exact run_bind_ok (hrun built) (hrun' _)

end Walk

end Audited

end SymbolTable
