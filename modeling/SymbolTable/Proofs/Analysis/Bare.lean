import SymbolTable.Proofs.Analysis.Session
import SymbolTable.Proofs.Tree.Union

/-!
# What a file declares, whatever is known

Relating a component adds edges to types, and to an enum constant its type. Without these attributes
a component is bare. Every operation of a walk commutes with baring the tree, and none of those that
read the application changes the bare tree. So a unit has one bare tree, in both phases and whatever
the application and the scope held before.
-/

namespace SymbolTable

/-! ## Bare components -/

instance : DecidablePred AttributeKind.IsEdge := fun _ => inferInstanceAs (Decidable (_ ∨ _))

namespace Component

/-- The attribute may come from relating the component to others: an edge, or the type of an enum
constant. -/
def Related (c : Component) (a : Attribute) : Prop :=
  a.kind.IsEdge ∨ c.kind = .enumConstant ∧ a.kind = .declaredType

instance (c : Component) : DecidablePred c.Related := fun _ => inferInstanceAs (Decidable (_ ∨ _))

/-- The component without what comes from relating it. -/
def bare (c : Component) : Component :=
  { c with attributes := c.attributes.filter fun a => ¬ c.Related a }

@[simp] theorem symbol_bare (c : Component) : c.bare.symbol = c.symbol := rfl

variable {c d : Component}

theorem mem_bare {a : Attribute} : a ∈ c.bare.attributes ↔ a ∈ c.attributes ∧ ¬ c.Related a := by
  simp [bare]

theorem mem_or_related_of_bare (h : d.bare = c.bare) {a : Attribute} (ha : a ∈ d.attributes) :
    a ∈ c.attributes ∨ c.Related a := by
  have hkind : d.kind = c.kind := (congrArg Component.kind h :)
  by_cases hrelated : c.Related a
  · exact .inr hrelated
  · have hbare : a ∈ d.bare.attributes := by
      refine mem_bare.2 ⟨ha, ?_⟩
      rw [Related, hkind]
      exact hrelated
    rw [h] at hbare
    exact .inl (mem_bare.1 hbare).1

theorem bare_uniteAttributes (h : d.kind = c.kind) :
    (c.uniteAttributes d.attributes).bare = c.bare.uniteAttributes d.bare.attributes := by
  have hrelated : ∀ a, d.Related a ↔ c.Related a := fun a => by rw [Related, Related, h]
  have hsame : d.bare.attributes = d.attributes.filter fun a => ¬ c.Related a := by
    simp only [bare, hrelated]
  rw [uniteAttributes_eq, uniteAttributes_eq, hsame]
  exact congrArg (fun as => { c with attributes := as }) (filter_unite _ _ _)

theorem bare_addAttributeIfAbsent {a : Attribute} (h : c.Related a) :
    (c.addAttributeIfAbsent a).bare = c.bare := by
  have hnone : [a].filter (fun a => ¬ c.Related a) = [] := by simp [h]
  have hfilter : (addAbsent c.attributes a).filter (fun a => ¬ c.Related a) =
      c.attributes.filter fun a => ¬ c.Related a := by
    show (unite c.attributes [a]).filter _ = _
    rw [filter_unite, hnone, unite_nil]
  rw [addAttributeIfAbsent_eq]
  exact congrArg (fun as => { c with attributes := as }) hfilter

end Component

/-! ## Bare trees -/

namespace Tree

def bare (t : Tree) : Tree := ⟨t.nodes.map Component.bare⟩

@[simp] theorem size_bare (t : Tree) : t.bare.size = t.size := by simp [bare, size]

@[simp] theorem node_bare (t : Tree) (id : NodeId) : t.bare.node id = (t.node id).bare := by
  unfold node bare
  rw [Array.getElem?_map]
  cases t.nodes[id]? <;> rfl

@[simp] theorem parent_bare (t : Tree) (id : NodeId) : t.bare.parent id = t.parent id := by
  rw [parent, node_bare]
  rfl

@[simp] theorem children_bare (t : Tree) (id : NodeId) : t.bare.children id = t.children id := by
  rw [children, node_bare]
  rfl

theorem bare_eq_iff {t t' : Tree} :
    t'.bare = t.bare ↔ t'.size = t.size ∧ ∀ id, (t'.node id).bare = (t.node id).bare := by
  constructor
  · intro h
    refine ⟨by rw [← size_bare, h, size_bare], fun id => ?_⟩
    rw [← node_bare, h, node_bare]
  · rintro ⟨hsize, hnode⟩
    refine ext_node (by simpa using hsize) fun id _ => ?_
    rw [node_bare, node_bare, hnode]

/-- Trees with one bare tree differ in nothing but attributes. -/
theorem sameShape_of_bare {t t' : Tree} (h : t'.bare = t.bare) : t.SameShape t' := by
  obtain ⟨hsize, hnode⟩ := bare_eq_iff.1 h
  refine ⟨hsize, fun id => ?_, fun id => ?_, fun id => ?_⟩
  · rw [← Component.symbol_bare, hnode, Component.symbol_bare]
  · rw [← parent_bare, h, parent_bare]
  · rw [← children_bare, h, children_bare]

theorem bare_modify (t : Tree) (id : NodeId) {f g : Component → Component}
    (h : (f (t.node id)).bare = g (t.node id).bare) :
    (t.modify id f).bare = t.bare.modify id g := by
  refine ext_node (by simp) fun i _ => ?_
  by_cases hid : id < t.size
  · rw [node_bare, node_modify _ _ _ _ hid, node_modify _ _ _ _ (by simpa using hid), node_bare]
    split
    · next hi => rw [hi, h]
    · rfl
  · have hle : t.size ≤ id := Nat.le_of_not_lt hid
    rw [node_bare, modify_of_size_le hle, modify_of_size_le (by simpa using hle), node_bare]

/-- A change that only adds what bare components lack. -/
theorem bare_modify_eq_self (t : Tree) (id : NodeId) {f : Component → Component}
    (h : (f (t.node id)).bare = (t.node id).bare) : (t.modify id f).bare = t.bare := by
  refine bare_eq_iff.2 ⟨by simp, fun i => ?_⟩
  by_cases hid : id < t.size
  · rw [node_modify _ _ _ _ hid]
    split
    · next hi => rw [hi, h]
    · rfl
  · rw [modify_of_size_le (Nat.le_of_not_lt hid)]

theorem bare_create (t : Tree) (c : Component) : (t.create c).bare = t.bare.create c.bare := by
  refine ext_node (by simp) fun i _ => ?_
  rw [node_bare, node_create, node_create, size_bare, node_bare]
  split <;> rfl

theorem bare_add (t : Tree) (parent : NodeId) (c : Component) :
    (t.add parent c).bare = t.bare.add parent c.bare := by
  have hchild : ((t.create c).modify t.size fun c => { c with parent := some parent }).bare =
      (t.bare.create c.bare).modify t.size fun c => { c with parent := some parent } := by
    rw [← bare_create]
    exact bare_modify _ _ rfl
  rw [add, add, link, link, size_bare, ← hchild]
  exact bare_modify _ _ rfl

theorem findChild_bare (t : Tree) (parent : NodeId) (c : Component) :
    t.bare.findChild parent c.bare = t.findChild parent c := by
  unfold findChild
  rw [children_bare]
  apply List.find?_congr
  intro id _
  rw [node_bare]
  rfl

/-- A component is put into a bare tree as it is put into the tree. -/
theorem bare_put (t : Tree) (parent : NodeId) (c : Component) :
    (t.put parent c).2.bare = (t.bare.put parent c.bare).2 := by
  unfold put
  rw [findChild_bare]
  split
  · next existing hfind =>
    unfold findChild at hfind
    have hsame := List.find?_some hfind
    have hkind := congrArg Symbol.kind (Component.sameSymbol_iff.1 hsame)
    exact bare_modify t existing (Component.bare_uniteAttributes hkind.symm)
  · exact bare_add t parent c

end Tree

/-! ## Bare scopes -/

namespace Scope

/-- The scope with its bare tree, and with nothing visible. -/
def bare (s : Scope) : Scope := { s.clearVisible with tree := s.tree.bare, revisionId := none }

theorem bare_of_clearVisible {s s' : Scope} (h : s.clearVisible = s'.clearVisible) :
    s.bare = s'.bare := (congrArg bare h :)

theorem bare_put (s : Scope) (parent : NodeId) (c : Component) :
    (s.put parent c).2.bare = (s.bare.put parent c.bare).2 := by
  rw [put_eq, put_eq, bare, s.tree.bare_put parent c]
  rfl

theorem bare_mark (s : Scope) (id : NodeId) {kind : AttributeKind} (value : String)
    (h : (s.tree.node id).Related ⟨kind, value⟩) : (s.mark id kind value).bare = s.bare := by
  have htree : (s.mark id kind value).tree.bare = s.tree.bare :=
    s.tree.bare_modify_eq_self id (Component.bare_addAttributeIfAbsent h)
  exact congrArg (fun t => { s.clearVisible with tree := t, revisionId := none }) htree

theorem Relates.bare_eq {app : Application} {s s' : Scope} (h : s.Relates app s') :
    s'.bare = s.bare := by
  induction h with
  | none => rfl
  | edge _ id hk _ ih => exact (bare_mark _ id _ (.inl hk)).trans ih

theorem bare_relateConstant (s : Scope) (app : Application) (phase : Phase) (id owner : NodeId)
    (h : (s.tree.node id).kind = .enumConstant) :
    (s.relateConstant app phase id owner).bare = s.bare := by
  unfold relateConstant
  split
  · exact s.bare_mark id _ (.inr ⟨h, rfl⟩)
  · rfl

/-- Two walks keep one bare scope, each in its own application and phase. -/
theorem lockstep_bare {app app' : Application} (hnaming : app'.naming = app.naming)
    (phase phase' : Phase) : Lockstep app app' phase phase' (fun s s' => s'.bare = s.bare) where
  naming := hnaming
  shape h := Tree.sameShape_of_bare (congrArg Scope.tree h)
  cursor h := (congrArg Scope.cursor h :)
  file h := (congrArg Scope.file h :)
  hasPackage h := (congrArg Scope.hasPackage h :)
  imports h := (congrArg Scope.imports h :)
  setFile f h := congrArg (fun s : Scope => { s with file := f }) h
  moveTo id h := congrArg (fun s : Scope => s.moveTo id) h
  put parent c h := by rw [bare_put, bare_put, h]
  openOwn coordinate h := by
    rw [bare_of_clearVisible (clearVisible_openPackage _ app' coordinate),
      bare_of_clearVisible (clearVisible_openPackage _ app coordinate)]
    exact congrArg (fun s : Scope => { s with hasPackage := true }) h
  addImport c h := by
    rw [addImport_fst, addImport_fst]
    exact congrArg (fun s : Scope => { s with imports := recordImport s.imports c }) h
  openImport i h := by
    rw [bare_of_clearVisible (clearVisible_openImport _ app' i),
      bare_of_clearVisible (clearVisible_openImport _ app i), h]
  relateType id header h := by
    rw [(relates_relateType _ app' id phase' header).bare_eq,
      (relates_relateType _ app id phase header).bare_eq, h]
  relateCallable id header h := by
    rw [(relates_relateCallable _ app' id phase' header).bare_eq,
      (relates_relateCallable _ app id phase header).bare_eq, h]
  relateConstant {s s'} id owner hkind h := by
    have hshape := Tree.sameShape_of_bare (congrArg Scope.tree h)
    rw [s'.bare_relateConstant app' phase' id owner ((hshape.kind id).trans hkind),
      s.bare_relateConstant app phase id owner hkind, h]

end Scope

/-! ## Units -/

namespace CompilationUnit

variable (u : CompilationUnit)

/-- Apart from what relating adds, a unit has the tree of its declaration phase. -/
theorem bare_build (s : Scope) (app : Application) (phase : Phase) :
    (s.build app phase u).1.bare = (u.skeleton app.naming).bare := by
  have hnaming : app.naming = ({ naming := app.naming } : Application).naming := rfl
  have hseed : (s.fullReset.seed app).bare =
      (({} : Scope).fullReset.seed { naming := app.naming }).bare := rfl
  exact congrArg Scope.tree ((Scope.lockstep_bare hnaming .declaration phase).walk u hseed)

/-- What a unit places depends on no name but that of the default package. -/
theorem placements_congr {naming naming' : Naming}
    (h : naming'.defaultPackage = naming.defaultPackage) :
    u.placements naming' = u.placements naming := by
  have hpackages : u.packagePlacements naming' = u.packagePlacements naming := by
    unfold packagePlacements
    rw [h]
  have hpath : u.packagePath naming' = u.packagePath naming := by
    unfold packagePath
    rw [h]
  have himports : u.listedImports naming' = u.listedImports naming := by
    unfold listedImports
    rw [hpath]
  unfold placements
  rw [hpackages, hpath, himports]

theorem skeleton_congr {naming naming' : Naming}
    (h : naming'.defaultPackage = naming.defaultPackage) :
    u.skeleton naming' = u.skeleton naming := by
  rw [skeleton_eq, skeleton_eq, u.placements_congr h]

end CompilationUnit

/-- Two applications that agree on the default package give a unit trees that differ in nothing but
what relating adds, and in the declaration phase they give it the same tree. -/
theorem build_of_defaultPackage {app app' : Application}
    (hdefault : app'.naming.defaultPackage = app.naming.defaultPackage) (s s' : Scope)
    (phase phase' : Phase) (u : CompilationUnit) :
    (s'.build app' phase' u).1.bare = (s.build app phase u).1.bare ∧
      (phase = .declaration → phase' = .declaration →
        (s'.build app' phase' u).1 = (s.build app phase u).1) := by
  constructor
  · rw [u.bare_build, u.bare_build, u.skeleton_congr hdefault]
  · rintro rfl rfl
    rw [u.build_declaration, u.build_declaration, u.skeleton_congr hdefault]

/-- A program that has the class `A` in the package `p`. -/
def superclassApplication : Application :=
  { naming := { delimiter := "/" }, components := Tree.packageWith ["A"] }

def subclassUnit : CompilationUnit := classUnit "p" "B" [] (some "A")

/-- Only where the superclass is known does the class get an edge to it, and only the bare trees are
equal. -/
theorem build_of_defaultPackage_superclass :
    superclassApplication.naming.defaultPackage =
      ({ naming := default } : Application).naming.defaultPackage ∧
    (({} : Scope).build superclassApplication .structural subclassUnit).1 ≠
      (({} : Scope).build { naming := default } .structural subclassUnit).1 ∧
    (({} : Scope).build superclassApplication .structural subclassUnit).1.bare =
      (({} : Scope).build { naming := default } .structural subclassUnit).1.bare :=
  ⟨rfl, by decide +kernel,
    (@build_of_defaultPackage { naming := default } superclassApplication rfl {} {} .structural
      .structural subclassUnit).1⟩

end SymbolTable
