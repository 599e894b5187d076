import SymbolTable.Proofs.Tree.Unite
import SymbolTable.Tree.Consistency

/-!
# Growing a tree

Trees grow by putting a component below a node: into the child of the same symbol, or as a new last
child. A new node gets the next free id, so ids ascend along child links, and with that every walk
over a grown tree ends.

* `Linked` is what a file of nodes is checked for: links agree on both ends;
* `Grown` is the shape that every tree built this way has;
* `Extends` says what growing keeps: ids, symbols, parents, and the beginnings of both lists of a
  node.
-/

namespace SymbolTable

namespace Tree

/-- Puts `c` below `parent`: into the child of the same symbol, whose attributes are united with
those of `c`, or as a new child. Gives the id of that child. -/
def put (t : Tree) (parent : NodeId) (c : Component) : NodeId × Tree :=
  match t.findChild parent c with
  | some existing => (existing, t.modify existing fun node => node.uniteAttributes c.attributes)
  | none => (t.size, t.add parent c)

theorem put_of_findChild {t : Tree} {parent e : NodeId} {c : Component}
    (h : t.findChild parent c = some e) :
    t.put parent c = (e, t.modify e fun node => node.uniteAttributes c.attributes) := by
  rw [put, h]

theorem put_of_findChild_eq_none {t : Tree} {parent : NodeId} {c : Component}
    (h : t.findChild parent c = none) : t.put parent c = (t.size, t.add parent c) := by
  rw [put, h]

/-! ## Reading nodes -/

theorem ext_node {t t' : Tree} (hsize : t.size = t'.size)
    (hnode : ∀ i < t.size, t.node i = t'.node i) : t = t' := by
  obtain ⟨nodes⟩ := t
  obtain ⟨nodes'⟩ := t'
  congr 1
  apply Array.ext hsize
  intro i hi hi'
  simpa [node, hi, hi'] using hnode i hi

theorem node_of_size_le {t : Tree} {i : NodeId} (h : t.size ≤ i) :
    t.node i = Component.missing := by
  unfold node size at *
  rw [Array.getElem?_eq_none h]
  rfl

theorem children_of_size_le {t : Tree} {i : NodeId} (h : t.size ≤ i) : t.children i = [] := by
  rw [children, node_of_size_le h]
  rfl

theorem lt_size_of_mem_children {t : Tree} {id c : NodeId} (h : c ∈ t.children id) :
    id < t.size := by
  refine Nat.lt_of_not_le fun hid => ?_
  rw [children_of_size_le hid] at h
  simp at h

theorem node_add (t : Tree) (parent : NodeId) (c : Component) (i : NodeId)
    (hp : parent < t.size) :
    (t.add parent c).node i =
      if i = t.size then { c.detached with parent := some parent }
      else if i = parent then { t.node parent with children := t.children parent ++ [t.size] }
      else t.node i := by
  have hsize : t.size < (t.create c).size := by simp
  have hparent : parent < ((t.create c).modify t.size
      fun c => { c with parent := some parent }).size := by
    simpa using Nat.lt_succ_of_lt hp
  have hne : parent ≠ t.size := Nat.ne_of_lt hp
  rw [add, link, node_modify _ _ _ _ hparent, node_modify _ _ _ _ hsize, node_create]
  by_cases hi : i = t.size
  · subst hi
    simp [hne.symm]
  · by_cases hip : i = parent
    · subst hip
      simp [hi, children]
    · simp [hi, hip]

/-- A new last child for `parent`, and no other change. -/
theorem children_add (t : Tree) {parent : NodeId} (c : Component) (hp : parent < t.size)
    (id : NodeId) :
    (t.add parent c).children id =
      if id = parent then t.children parent ++ [t.size] else t.children id := by
  rw [children, node_add t parent c id hp]
  by_cases hid : id = t.size
  · subst hid
    rw [if_pos rfl, if_neg (Nat.ne_of_gt hp), children_of_size_le (Nat.le_refl _)]
    rfl
  · rw [if_neg hid]
    split <;> rfl

theorem mem_children_add {t : Tree} {parent id d : NodeId} {c : Component} (hp : parent < t.size)
    (hd : d ∈ (t.add parent c).children id) :
    d ∈ t.children id ∨ id = parent ∧ d = t.size := by
  rw [children_add t c hp] at hd
  split at hd
  · next hid =>
    subst hid
    rcases List.mem_append.1 hd with hd | hd
    · exact .inl hd
    · exact .inr ⟨rfl, List.mem_singleton.1 hd⟩
  · exact .inl hd

theorem symbol_add (t : Tree) {parent : NodeId} (c : Component) (hp : parent < t.size) :
    ((t.add parent c).node t.size).symbol = c.symbol := by
  rw [node_add t parent c _ hp, if_pos rfl]
  rfl

theorem node_modify_ne {t : Tree} {id i : NodeId} {f : Component → Component} (h : i ≠ id) :
    (t.modify id f).node i = t.node i := by
  unfold modify node
  simp [Array.getElem?_modify, Ne.symm h]

theorem modify_of_size_le {t : Tree} {id : NodeId} {f : Component → Component}
    (h : t.size ≤ id) : t.modify id f = t := by
  apply ext_node (by simp)
  intro i hi
  rw [size_modify] at hi
  exact node_modify_ne (Nat.ne_of_lt (Nat.lt_of_lt_of_le hi h))

/-- A change that keeps the links and the symbol of each node is read off node by node. -/
theorem node_uniteAt (t : Tree) (id i : NodeId) (added : List Attribute) (h : id < t.size) :
    (t.modify id fun node => node.uniteAttributes added).node i =
      if i = id then { t.node i with attributes := unite (t.node i).attributes added }
      else t.node i := by
  rw [node_modify _ _ _ _ h]
  split
  · rw [Component.uniteAttributes_eq]
  · rfl

/-! ## What growing keeps -/

structure Extends (t t' : Tree) : Prop where
  size_le : t.size ≤ t'.size
  symbol : ∀ {id}, id < t.size → (t'.node id).symbol = (t.node id).symbol
  parent : ∀ {id}, id < t.size → t'.parent id = t.parent id
  children : ∀ {id}, id < t.size → t.children id <+: t'.children id
  attributes : ∀ {id}, id < t.size → (t.node id).attributes <+: (t'.node id).attributes

namespace Extends

theorem refl (t : Tree) : t.Extends t where
  size_le := Nat.le_refl _
  symbol _ := rfl
  parent _ := rfl
  children _ := List.prefix_rfl
  attributes _ := List.prefix_rfl

theorem trans {t t' t'' : Tree} (h : t.Extends t') (h' : t'.Extends t'') : t.Extends t'' where
  size_le := Nat.le_trans h.size_le h'.size_le
  symbol hid := (h'.symbol (Nat.lt_of_lt_of_le hid h.size_le)).trans (h.symbol hid)
  parent hid := (h'.parent (Nat.lt_of_lt_of_le hid h.size_le)).trans (h.parent hid)
  children hid := (h.children hid).trans (h'.children (Nat.lt_of_lt_of_le hid h.size_le))
  attributes hid := (h.attributes hid).trans (h'.attributes (Nat.lt_of_lt_of_le hid h.size_le))

theorem lt {t t' : Tree} (h : t.Extends t') {id : NodeId} (hid : id < t.size) :
    id < t'.size := Nat.lt_of_lt_of_le hid h.size_le

theorem kind {t t' : Tree} (h : t.Extends t') {id : NodeId} (hid : id < t.size) :
    (t'.node id).kind = (t.node id).kind := congrArg Symbol.kind (h.symbol hid)

end Extends

theorem extends_uniteAt (t : Tree) (id : NodeId) (added : List Attribute) :
    t.Extends (t.modify id fun node => node.uniteAttributes added) := by
  by_cases hid : id < t.size
  · constructor <;> intros <;> simp only [size_modify, Nat.le_refl, node_uniteAt t _ _ _ hid,
      Tree.parent, Tree.children] <;> split <;>
      simp [Component.symbol, prefix_unite]
  · rw [modify_of_size_le (Nat.le_of_not_lt hid)]
    exact Extends.refl t

theorem extends_add (t : Tree) {parent : NodeId} (c : Component) (hp : parent < t.size) :
    t.Extends (t.add parent c) := by
  constructor
  · simp
  all_goals
    intro id hid
    simp only [Tree.parent, Tree.children, node_add t parent c _ hp, if_neg (Nat.ne_of_lt hid)]
    split
    · next h => subst h; simp [Component.symbol]
    · simp

theorem extends_put (t : Tree) {parent : NodeId} (c : Component) (hp : parent < t.size) :
    t.Extends (t.put parent c).2 := by
  unfold put
  split
  · exact extends_uniteAt t _ _
  · exact extends_add t c hp

/-- A put makes at most one new node. -/
theorem lt_or_eq_of_lt_size_put {t : Tree} {parent : NodeId} {c : Component} {id : NodeId}
    (hid : id < (t.put parent c).2.size) : id < t.size ∨ id = (t.put parent c).1 := by
  unfold put at hid ⊢
  split at hid
  · exact .inl (by simpa using hid)
  · rw [size_add] at hid
    exact Nat.lt_succ_iff_lt_or_eq.1 hid

/-- A put writes no attributes but those of its component, and these on its node. -/
theorem mem_attributes_of_put {t : Tree} {parent : NodeId} {c : Component} (hp : parent < t.size)
    {id : NodeId} {a : Attribute} (ha : a ∈ ((t.put parent c).2.node id).attributes) :
    a ∈ (t.node id).attributes ∨ id = (t.put parent c).1 ∧ a ∈ c.attributes := by
  unfold put at ha ⊢
  split at ha
  · next e he =>
    by_cases hsize : e < t.size
    · rw [node_uniteAt t e id _ hsize] at ha
      split at ha
      · next hid => exact (mem_unite.1 ha).imp_right fun ha => ⟨hid, ha⟩
      · exact .inl ha
    · rw [modify_of_size_le (Nat.le_of_not_lt hsize)] at ha
      exact .inl ha
  · rw [node_add t parent c id hp] at ha
    split at ha
    · next hid => exact .inr ⟨hid, ha⟩
    · split at ha
      · next hid => exact .inl (hid ▸ ha)
      · exact .inl ha

theorem kind_modify (t : Tree) (id i : NodeId) {f : Component → Component}
    (hf : ∀ c, (f c).kind = c.kind) : ((t.modify id f).node i).kind = (t.node i).kind := by
  by_cases hid : id < t.size
  · rw [node_modify _ _ _ _ hid]
    split
    · exact hf _
    · rfl
  · rw [modify_of_size_le (Nat.le_of_not_lt hid)]

/-- Whatever it is put below, a component keeps its kind. -/
theorem kind_put (t : Tree) (parent : NodeId) (c : Component) :
    ((t.put parent c).2.node (t.put parent c).1).kind = c.kind := by
  unfold put
  split
  · next e he =>
    have hsame := List.find?_some he
    rw [Component.sameSymbol, decide_eq_true_eq] at hsame
    refine (t.kind_modify e e fun node => ?_).trans (congrArg Symbol.kind hsame)
    rw [Component.uniteAttributes_eq]
  · have hcreated : ((t.create c).node t.size).kind = c.kind := by
      rw [node_create, if_pos rfl]
      rfl
    rw [add, link]
    refine (kind_modify _ parent t.size ?_).trans
      ((kind_modify _ t.size t.size ?_).trans hcreated) <;> exact fun _ => rfl

/-! ## Trees of one shape -/

/-- The trees differ in nothing but attributes. -/
structure SameShape (t t' : Tree) : Prop where
  size : t'.size = t.size
  symbol : ∀ id, (t'.node id).symbol = (t.node id).symbol
  parent : ∀ id, t'.parent id = t.parent id
  children : ∀ id, t'.children id = t.children id

namespace SameShape

theorem refl (t : Tree) : t.SameShape t := ⟨rfl, fun _ => rfl, fun _ => rfl, fun _ => rfl⟩

theorem kind {t t' : Tree} (h : t.SameShape t') (id : NodeId) :
    (t'.node id).kind = (t.node id).kind := congrArg Symbol.kind (h.symbol id)

theorem value {t t' : Tree} (h : t.SameShape t') (id : NodeId) :
    (t'.node id).value = (t.node id).value := congrArg Symbol.value (h.symbol id)

theorem node_eq {t t' : Tree} (h : t.SameShape t') (id : NodeId) :
    t'.node id = { t.node id with attributes := (t'.node id).attributes } := by
  have hsymbol := h.symbol id
  have hparent := h.parent id
  have hchildren := h.children id
  unfold Tree.parent at hparent
  unfold Tree.children at hchildren
  generalize t.node id = c at *
  generalize t'.node id = c' at *
  cases c
  cases c'
  cases hsymbol
  cases hparent
  cases hchildren
  rfl

theorem hasUniqueSiblings {t t' : Tree} (h : t.SameShape t') (hunique : t.HasUniqueSiblings) :
    t'.HasUniqueSiblings := by
  intro id
  simp only [h.children, h.symbol]
  exact hunique id

end SameShape

theorem sameShape_uniteAt (t : Tree) (id : NodeId) (added : List Attribute) :
    t.SameShape (t.modify id fun node => node.uniteAttributes added) := by
  by_cases hid : id < t.size
  · refine ⟨by simp, ?_, ?_, ?_⟩ <;> intro i <;>
      simp only [Tree.parent, Tree.children, node_uniteAt t _ _ _ hid] <;> split <;> rfl
  · rw [modify_of_size_le (Nat.le_of_not_lt hid)]
    exact SameShape.refl t

/-! ## Linked trees -/

/-- Every listed child exists and names the lister as its parent. -/
structure Linked (t : Tree) : Prop where
  child_lt : ∀ {id c}, c ∈ t.children id → c < t.size
  parent_child : ∀ {id c}, c ∈ t.children id → t.parent c = some id

namespace Linked

theorem of_sameShape {t t' : Tree} (h : t.Linked) (hs : t.SameShape t') : t'.Linked where
  child_lt hc := hs.size ▸ h.child_lt (hs.children _ ▸ hc)
  parent_child hc := (hs.parent _).trans (h.parent_child (hs.children _ ▸ hc))

variable {t : Tree} (h : t.Linked) {parent : NodeId} {c : Component} (hp : parent < t.size)
include h hp

theorem add : (t.add parent c).Linked where
  child_lt hd := by
    rw [size_add]
    rcases mem_children_add hp hd with hd | ⟨rfl, rfl⟩
    · exact Nat.lt_succ_of_lt (h.child_lt hd)
    · exact Nat.lt_succ_self _
  parent_child hd := by
    rcases mem_children_add hp hd with hd | ⟨rfl, rfl⟩
    · exact ((extends_add t c hp).parent (h.child_lt hd)).trans (h.parent_child hd)
    · rw [Tree.parent, node_add t _ c _ hp, if_pos rfl]

theorem put : (t.put parent c).2.Linked := by
  unfold Tree.put
  split
  · exact h.of_sameShape (sameShape_uniteAt t _ _)
  · exact h.add hp

omit hp in
theorem put_fst_lt (parent : NodeId) (c : Component) :
    (t.put parent c).1 < (t.put parent c).2.size := by
  unfold Tree.put
  split
  · next e he => simpa using h.child_lt (List.mem_of_find?_eq_some he)
  · simp

theorem uniqueSiblings_add (hunique : t.HasUniqueSiblings) (hfresh : t.findChild parent c = none) :
    (t.add parent c).HasUniqueSiblings := by
  intro id
  have hold : ((t.children id).map fun d => ((t.add parent c).node d).symbol) =
      (t.children id).map fun d => (t.node d).symbol :=
    List.map_congr_left fun d hd => (extends_add t c hp).symbol (h.child_lt hd)
  rw [children_add t c hp]
  split
  · next hid =>
    subst hid
    rw [List.map_append, hold, List.map_singleton, symbol_add t c hp, List.nodup_append]
    refine ⟨hunique id, by simp, ?_⟩
    intro s hs s' hs'
    rw [List.mem_singleton.1 hs']
    rintro rfl
    obtain ⟨d, hd, hsym⟩ := List.mem_map.1 hs
    have := List.find?_eq_none.1 hfresh d hd
    exact this (Component.sameSymbol_iff.2 hsym)
  · rw [hold]
    exact hunique id

theorem uniqueSiblings_put (hunique : t.HasUniqueSiblings) :
    (t.put parent c).2.HasUniqueSiblings := by
  unfold Tree.put
  split
  · exact (sameShape_uniteAt t _ _).hasUniqueSiblings hunique
  · next hfresh => exact h.uniqueSiblings_add hp hunique hfresh

end Linked

/-! ## Grown trees -/

/-- The first node is the only root, every other node is listed exactly once, below a node of a
smaller id that it names as its parent, and no two siblings are the same symbol. -/
structure Grown (t : Tree) : Prop where
  root_lt : root < t.size
  kind_root : (t.node root).kind = .root
  parent_root : t.parent root = none
  kind_ne_root : ∀ {id}, root < id → id < t.size → (t.node id).kind ≠ .root
  lt_child : ∀ {id c}, c ∈ t.children id → id < c
  child_lt : ∀ {id c}, c ∈ t.children id → c < t.size
  parent_child : ∀ {id c}, c ∈ t.children id → t.parent c = some id
  attached : ∀ {id}, root < id → id < t.size → ∃ p, id ∈ t.children p
  uniqueSiblings : t.HasUniqueSiblings

@[simp] theorem children_empty (id : NodeId) : empty.children id = [] := by
  match id with
  | 0 => rfl
  | id + 1 => exact children_of_size_le (Nat.succ_le_succ (Nat.zero_le id))

theorem grown_empty : Grown empty where
  root_lt := by decide
  kind_root := rfl
  parent_root := rfl
  kind_ne_root hid h := absurd (Nat.lt_of_lt_of_le hid (Nat.le_of_lt_succ h)) (Nat.lt_irrefl _)
  lt_child h := by simp at h
  child_lt h := by simp at h
  parent_child h := by simp at h
  attached hid h := absurd (Nat.lt_of_lt_of_le hid (Nat.le_of_lt_succ h)) (Nat.lt_irrefl _)
  uniqueSiblings id := by simp

/-- A bound on the height of a subtree bounds that of the subtree of each child. -/
theorem fuel_child {size fuel : Nat} {id c : NodeId} (h : size ≤ id + (fuel + 1)) (hc : id < c) :
    size ≤ c + fuel := by
  have : id + (fuel + 1) ≤ c + fuel := by
    rw [Nat.add_succ, ← Nat.succ_add]
    exact Nat.add_le_add_right hc fuel
  exact Nat.le_trans h this

namespace Grown

theorem linked {t : Tree} (h : t.Grown) : t.Linked := ⟨h.child_lt, h.parent_child⟩

theorem of_sameShape {t t' : Tree} (h : t.Grown) (hs : t.SameShape t') : t'.Grown where
  root_lt := hs.size ▸ h.root_lt
  kind_root := (hs.kind root).trans h.kind_root
  parent_root := (hs.parent root).trans h.parent_root
  kind_ne_root hid hlt := by
    rw [hs.kind]
    exact h.kind_ne_root hid (hs.size ▸ hlt)
  lt_child hc := h.lt_child (hs.children _ ▸ hc)
  child_lt hc := hs.size ▸ h.child_lt (hs.children _ ▸ hc)
  parent_child hc := (hs.parent _).trans (h.parent_child (hs.children _ ▸ hc))
  attached hid hlt := by
    obtain ⟨p, hp⟩ := h.attached hid (hs.size ▸ hlt)
    exact ⟨p, (hs.children p).symm ▸ hp⟩
  uniqueSiblings := hs.hasUniqueSiblings h.uniqueSiblings

theorem children_nodup {t : Tree} (h : t.Grown) (id : NodeId) : (t.children id).Nodup :=
  List.Pairwise.of_map _ (fun _ _ hne heq => hne (heq ▸ rfl)) (h.uniqueSiblings id)

/-- Parents are linked on both ends. -/
theorem mem_children_of_parent {t : Tree} (h : t.Grown) {id p : NodeId} (hid : id < t.size)
    (hp : t.parent id = some p) : id ∈ t.children p := by
  rcases Nat.eq_zero_or_pos id with rfl | hpos
  · rw [show t.parent 0 = none from h.parent_root] at hp
    cases hp
  · obtain ⟨q, hq⟩ := h.attached hpos hid
    rw [h.parent_child hq] at hp
    exact Option.some.inj hp ▸ hq

section Add

variable {t : Tree} (h : t.Grown) {parent : NodeId} {c : Component} (hp : parent < t.size)
include h hp

theorem add (hkind : c.kind ≠ .root) (hfresh : t.findChild parent c = none) :
    (t.add parent c).Grown where
  root_lt := by
    rw [size_add]
    exact Nat.lt_succ_of_lt h.root_lt
  kind_root := ((extends_add t c hp).kind h.root_lt).trans h.kind_root
  parent_root := ((extends_add t c hp).parent h.root_lt).trans h.parent_root
  kind_ne_root {id} hid hlt := by
    rw [size_add] at hlt
    rcases Nat.lt_succ_iff_lt_or_eq.1 hlt with hlt | rfl
    · exact fun hk => h.kind_ne_root hid hlt (((extends_add t c hp).kind hlt).symm.trans hk)
    · exact fun hk => hkind ((congrArg Symbol.kind (symbol_add t c hp)).symm.trans hk)
  lt_child hd := by
    rcases mem_children_add hp hd with hd | ⟨rfl, rfl⟩
    · exact h.lt_child hd
    · exact hp
  child_lt := (h.linked.add hp).child_lt
  parent_child := (h.linked.add hp).parent_child
  attached {id} hid hlt := by
    rw [size_add] at hlt
    rcases Nat.lt_succ_iff_lt_or_eq.1 hlt with hlt | rfl
    · obtain ⟨p, hmem⟩ := h.attached hid hlt
      exact ⟨p, ((extends_add t c hp).children (lt_size_of_mem_children hmem)).subset hmem⟩
    · refine ⟨parent, ?_⟩
      rw [children_add t c hp, if_pos rfl]
      exact List.mem_append_right _ (List.mem_singleton_self _)
  uniqueSiblings := h.linked.uniqueSiblings_add hp h.uniqueSiblings hfresh

end Add

theorem put {t : Tree} (h : t.Grown) {parent : NodeId} {c : Component} (hp : parent < t.size)
    (hkind : c.kind ≠ .root) : (t.put parent c).2.Grown := by
  unfold Tree.put
  split
  · exact h.of_sameShape (sameShape_uniteAt t _ _)
  · next hfresh => exact h.add hp hkind hfresh

end Grown

end Tree

end SymbolTable
