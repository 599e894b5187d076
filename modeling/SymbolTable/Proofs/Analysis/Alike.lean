import SymbolTable.Proofs.Analysis.Marking

/-!
# What relating leaves alone

Relating a component to a type adds attributes and nothing else, and never the mark of anonymous
classes. So the tree that the structural phase builds is alike the tree of the declaration phase:
the same nodes with the same marks, whatever the application knows.
-/

namespace SymbolTable

/-- The components differ in nothing but attributes, and agree on whether they are anonymous. -/
structure Component.Alike (c c' : Component) : Prop where
  symbol : c'.symbol = c.symbol
  parent : c'.parent = c.parent
  children : c'.children = c.children
  marked : anonymousMark ∈ c'.attributes ↔ anonymousMark ∈ c.attributes

namespace Component.Alike

variable {c c' : Component}

theorem refl (c : Component) : c.Alike c := ⟨rfl, rfl, rfl, Iff.rfl⟩

theorem uniteAttributes (h : c.Alike c') (added : List Attribute) :
    (c.uniteAttributes added).Alike (c'.uniteAttributes added) := by
  rw [uniteAttributes_eq, uniteAttributes_eq]
  refine ⟨h.symbol, h.parent, h.children, ?_⟩
  simp only [mem_unite, h.marked]

theorem addAttributeIfAbsent (c : Component) {a : Attribute} (ha : a.kind ≠ .localClass) :
    c.Alike (c.addAttributeIfAbsent a) := by
  have hne : anonymousMark ≠ a := fun h => ha (h ▸ rfl)
  rw [addAttributeIfAbsent_eq]
  refine ⟨rfl, rfl, rfl, ?_⟩
  simp [mem_addAbsent, hne]

end Component.Alike

namespace Tree

structure Alike (t t' : Tree) : Prop where
  size : t'.size = t.size
  node : ∀ id, (t.node id).Alike (t'.node id)

namespace Alike

variable {t t' t'' : Tree}

theorem refl (t : Tree) : t.Alike t := ⟨rfl, fun _ => Component.Alike.refl _⟩

theorem symm (h : t.Alike t') : t'.Alike t :=
  ⟨h.size.symm, fun id => ⟨(h.node id).symbol.symm, (h.node id).parent.symm,
    (h.node id).children.symm, (h.node id).marked.symm⟩⟩

theorem trans (h : t.Alike t') (h' : t'.Alike t'') : t.Alike t'' :=
  ⟨h'.size.trans h.size, fun id => ⟨(h'.node id).symbol.trans (h.node id).symbol,
    (h'.node id).parent.trans (h.node id).parent,
    (h'.node id).children.trans (h.node id).children,
    (h'.node id).marked.trans (h.node id).marked⟩⟩

theorem sameShape (h : t.Alike t') : t.SameShape t' :=
  ⟨h.size, fun id => (h.node id).symbol, fun id => (h.node id).parent,
    fun id => (h.node id).children⟩

theorem modify (h : t.Alike t') (id : NodeId) {f f' : Component → Component}
    (hf : ∀ {c c' : Component}, c.Alike c' → (f c).Alike (f' c')) :
    (t.modify id f).Alike (t'.modify id f') := by
  by_cases hid : id < t.size
  · have hid' : id < t'.size := h.size ▸ hid
    refine ⟨by rw [size_modify, size_modify, h.size], fun i => ?_⟩
    rw [node_modify t id i f hid, node_modify t' id i f' hid']
    split
    · exact hf (h.node i)
    · exact h.node i
  · have hid' : t'.size ≤ id := h.size ▸ Nat.le_of_not_lt hid
    rw [modify_of_size_le (Nat.le_of_not_lt hid), modify_of_size_le hid']
    exact h

theorem create (h : t.Alike t') (c : Component) : (t.create c).Alike (t'.create c) := by
  refine ⟨by rw [size_create, size_create, h.size], fun i => ?_⟩
  rw [node_create, node_create, h.size]
  split
  · exact Component.Alike.refl _
  · exact h.node i

theorem add (h : t.Alike t') (parent : NodeId) (c : Component) :
    (t.add parent c).Alike (t'.add parent c) := by
  rw [Tree.add, Tree.add, link, link, h.size]
  refine ((h.create c).modify _ ?_).modify _ ?_
  · exact fun hc => ⟨hc.symbol, rfl, hc.children, hc.marked⟩
  · exact fun hc => ⟨hc.symbol, hc.parent, by rw [hc.children], hc.marked⟩

theorem put (h : t.Alike t') (parent : NodeId) (c : Component) :
    (t.put parent c).2.Alike (t'.put parent c).2 := by
  have hfind : t'.findChild parent c = t.findChild parent c := by
    simp only [findChild, Component.sameSymbol, h.sameShape.children, h.sameShape.symbol]
  unfold Tree.put
  rw [hfind]
  split
  · exact h.modify _ fun hc => hc.uniteAttributes _
  · exact h.add parent c

end Alike

end Tree

namespace Scope

/-- The scopes differ in nothing but attributes and what is visible. -/
structure Alike (s s' : Scope) : Prop where
  tree : s.tree.Alike s'.tree
  cursor : s'.cursor = s.cursor
  file : s'.file = s.file
  hasPackage : s'.hasPackage = s.hasPackage
  imports : s'.imports = s.imports

namespace Alike

theorem refl (s : Scope) : s.Alike s := ⟨Tree.Alike.refl _, rfl, rfl, rfl, rfl⟩

theorem symm {s s' : Scope} (h : s.Alike s') : s'.Alike s :=
  ⟨h.tree.symm, h.cursor.symm, h.file.symm, h.hasPackage.symm, h.imports.symm⟩

theorem trans {s s' s'' : Scope} (h : s.Alike s') (h' : s'.Alike s'') : s.Alike s'' :=
  ⟨h.tree.trans h'.tree, h'.cursor.trans h.cursor, h'.file.trans h.file,
    h'.hasPackage.trans h.hasPackage, h'.imports.trans h.imports⟩

end Alike

/-! ## Opening -/

theorem alike_openPackage (s : Scope) (app : Application) (coordinate : String) :
    s.Alike (s.openPackage app coordinate) := by
  unfold openPackage
  split
  · exact ⟨Tree.Alike.refl _, rfl, rfl, rfl, rfl⟩
  · exact Alike.refl s

theorem alike_addVisible (s : Scope) (r : ComponentRef) : s.Alike (s.addVisible r).1 := by
  unfold addVisible
  split
  · exact Alike.refl s
  · exact ⟨Tree.Alike.refl _, rfl, rfl, rfl, rfl⟩

theorem alike_openImport (s : Scope) (app : Application) (i : ImportDecl) :
    s.Alike (s.openImport app i) := by
  unfold openImport
  split
  · split
    · exact ⟨Tree.Alike.refl _, rfl, rfl, rfl, rfl⟩
    · exact s.alike_addVisible _
  · exact Alike.refl s

/-! ## Relating -/

theorem alike_mark (s : Scope) (id : NodeId) {kind : AttributeKind} (value : String)
    (hk : kind ≠ .localClass) : s.Alike (s.mark id kind value) := by
  refine ⟨⟨by simp [mark], fun i => ?_⟩, rfl, rfl, rfl, rfl⟩
  by_cases hid : id < s.tree.size
  · simp only [mark]
    rw [Tree.node_modify _ _ _ _ hid]
    split
    · exact Component.Alike.addAttributeIfAbsent _ hk
    · exact Component.Alike.refl _
  · simp only [mark]
    rw [Tree.modify_of_size_le (Nat.le_of_not_lt hid)]
    exact Component.Alike.refl _

theorem Marks.alike {s s' : Scope} (h : s.Marks s') : s.Alike s' := by
  induction h with
  | none => exact Alike.refl s
  | mark _ id value hk ih => exact ih.trans (alike_mark _ id value hk)

/-! ## The walk -/

theorem lockstep_alike {app app' : Application} (hnaming : app'.naming = app.naming)
    (phase : Phase) : Lockstep app app' .declaration phase Alike where
  naming := hnaming
  shape h := h.tree.sameShape
  cursor h := h.cursor
  file h := h.file
  hasPackage h := h.hasPackage
  imports h := h.imports
  setFile _ h := ⟨h.tree, h.cursor, rfl, h.hasPackage, h.imports⟩
  moveTo _ h := ⟨h.tree, rfl, h.file, h.hasPackage, h.imports⟩
  put parent c h := by
    rw [put_eq, put_eq]
    exact ⟨h.tree.put parent c, h.cursor, h.file, h.hasPackage, h.imports⟩
  openOwn coordinate h := by
    refine (alike_openPackage _ app _).symm.trans (Alike.trans ?_ (alike_openPackage _ app' _))
    exact ⟨h.tree, h.cursor, h.file, rfl, h.imports⟩
  addImport c h := by
    unfold addImport
    rw [h.imports]
    split
    · exact h
    · exact ⟨h.tree, h.cursor, h.file, h.hasPackage, rfl⟩
  openImport i h :=
    (alike_openImport _ app i).symm.trans (h.trans (alike_openImport _ app' i))
  relateType id h hs := hs.trans (relates_relateType _ app' id phase h).marks.alike
  relateCallable id h hs := hs.trans (relates_relateCallable _ app' id phase h).marks.alike
  relateConstant id owner _ hs := hs.trans (marks_relateConstant _ app' id phase owner).alike

/-- In either phase a unit gets the tree of its declaration phase, up to attributes. -/
theorem alike_build {app app' : Application} (hnaming : app'.naming = app.naming)
    (phase : Phase) (s s' : Scope) (u : CompilationUnit) :
    (s.build app .declaration u).1.Alike (s'.build app' phase u).1 := by
  have hseed : (s.fullReset.seed app).Alike (s'.fullReset.seed app') :=
    ⟨Tree.Alike.refl _, rfl, rfl, rfl, rfl⟩
  exact ((lockstep_alike hnaming phase).walk u hseed).tree

end Scope

end SymbolTable
