import SymbolTable.Proofs.Tree.Assembly
import SymbolTable.Proofs.Tree.Isomorphism

/-!
# Copies of subtrees

A copy takes the next free ids in pre-order: a node first, then the copies of its children one after
the other. So the ids of all copies are known beforehand, and a copy changes one old node only, the
one that it is put below.

* `Holds` says that a tree has the copies of listed nodes from some id on;
* `holds_copySubtree` is what copying does, `Holds.sameSubtree` and `Holds.descendants_eq` are what a
  reader finds there;
* `copySubtree_relocates` puts both together.
-/

namespace SymbolTable

namespace Tree

/-- The ids of the copies of some siblings when the first copy gets the id `start`. -/
def starts (source : Tree) : NodeId → List NodeId → List NodeId
  | _, [] => []
  | start, c :: cs => start :: source.starts (start + (1 + (source.preorder c).length)) cs

/-- Node `i` of `t` is a copy of the node `id`. The copies of its children follow it. -/
structure HoldsCopy (source t : Tree) (i id : NodeId) : Prop where
  symbol : (t.node i).symbol = (source.node id).symbol
  attributes : (t.node i).attributes = (source.node id).attributes
  children : t.children i = source.starts (i + 1) (source.children id)

/-- From `start` on, `t` has the copies of the listed nodes. -/
def Holds (source t : Tree) : NodeId → List NodeId → Prop
  | _, [] => True
  | start, id :: rest => source.HoldsCopy t start id ∧ Holds source t (start + 1) rest

/-- The siblings with all that is below them, in pre-order. -/
def blocks (source : Tree) (cs : List NodeId) : List NodeId :=
  cs.flatMap fun c => c :: source.preorder c

variable {source t t' : Tree} {parent top id c : NodeId} {cs : List NodeId}

theorem blocks_cons (source : Tree) (c : NodeId) (cs : List NodeId) :
    source.blocks (c :: cs) = (c :: source.preorder c) ++ source.blocks cs := List.flatMap_cons

theorem preorder_eq_blocks (h : source.Acyclic) (id : NodeId) :
    source.preorder id = source.blocks (source.children id) := preorder_eq (h.shallow id)

theorem holds_append {start : NodeId} {ids ids' : List NodeId} :
    source.Holds t start (ids ++ ids') ↔
      source.Holds t start ids ∧ source.Holds t (start + ids.length) ids' := by
  induction ids generalizing start with
  | nil => simp [Holds]
  | cons id ids ih =>
    rw [List.cons_append, Holds, Holds, ih, List.length_cons, and_assoc,
      Nat.add_right_comm, Nat.add_assoc]

theorem Holds.congr {start : NodeId} {ids : List NodeId} (h : source.Holds t start ids)
    (hnode : ∀ i, start ≤ i → i < start + ids.length → t'.node i = t.node i) :
    source.Holds t' start ids := by
  induction ids generalizing start with
  | nil => trivial
  | cons id ids ih =>
    have hstart : t'.node start = t.node start := hnode start (Nat.le_refl _) (by simp)
    refine ⟨⟨hstart ▸ h.1.symbol, hstart ▸ h.1.attributes, ?_⟩, ih h.2 fun i hi hlt => ?_⟩
    · rw [children, hstart]
      exact h.1.children
    · exact hnode i (Nat.le_of_succ_le hi) (by simpa [Nat.add_comm, Nat.add_left_comm] using hlt)

/-! ## Copying -/

/-- Of the old nodes only the one that the copy is put below changes: it has one more child. -/
theorem node_copySubtree (hp : parent < t.size) (id : NodeId) {i : NodeId} (hi : i < t.size) :
    (t.copySubtree parent source id).node i =
      if i = parent then { t.node parent with children := t.children parent ++ [t.size] }
      else t.node i := by
  rw [copySubtree, node_copyWithin source.size id hp hi, node_add t parent _ i hp,
    if_neg (Nat.ne_of_lt hi)]

theorem copySubtree_eq (h : source.Acyclic) (t : Tree) (parent id : NodeId) :
    t.copySubtree parent source id =
      (source.children id).foldl (fun acc c => acc.copySubtree t.size source c)
        (t.add parent (source.node id)) := (copyWithin_size_eq (h.shallow id) t parent).symm

theorem size_foldl_copySubtree
    (hsize : ∀ c ∈ cs, ∀ t : Tree,
      (t.copySubtree top source c).size = t.size + (1 + (source.preorder c).length)) (t : Tree) :
    (cs.foldl (fun acc c => acc.copySubtree top source c) t).size =
      t.size + (source.blocks cs).length := by
  induction cs generalizing t with
  | nil => rfl
  | cons c cs ih =>
    rw [List.forall_mem_cons] at hsize
    rw [List.foldl_cons, ih hsize.2, hsize.1, blocks_cons, List.length_append, List.length_cons]
    omega

theorem size_copySubtree (h : source.Acyclic) (t : Tree) (parent id : NodeId) :
    (t.copySubtree parent source id).size = t.size + (1 + (source.preorder id).length) := by
  induction id using h.induction generalizing t parent with
  | node id ih =>
    rw [copySubtree_eq h, size_foldl_copySubtree fun c hc acc => ih c hc acc t.size, size_add,
      preorder_eq_blocks h, Nat.add_assoc]

section Siblings

variable (h : source.Acyclic)
include h

/-- Copies of siblings become the last children of the node that they are put below. -/
theorem node_foldl_copySubtree (htop : top < t.size) (cs : List NodeId) {i : NodeId}
    (hi : i < t.size) :
    (cs.foldl (fun acc c => acc.copySubtree top source c) t).node i =
      if i = top then { t.node top with children := t.children top ++ source.starts t.size cs }
      else t.node i := by
  induction cs generalizing t with
  | nil =>
    split
    · next heq => subst heq; simp [starts, children]
    · rfl
  | cons c cs ih =>
    have hle : t.size ≤ (t.copySubtree top source c).size := size_le_copyWithin _ t top c
    have htop' : top < (t.copySubtree top source c).size := Nat.lt_of_lt_of_le htop hle
    rw [List.foldl_cons, ih htop' (Nat.lt_of_lt_of_le hi hle), starts, children,
      size_copySubtree h, node_copySubtree htop c hi, node_copySubtree htop c htop, if_pos rfl]
    split
    · simp
    · rfl

theorem holds_foldl_copySubtree (htop : top < t.size)
    (hcopy : ∀ c ∈ cs, ∀ t : Tree, top < t.size →
      source.Holds (t.copySubtree top source c) t.size (c :: source.preorder c)) :
    source.Holds (cs.foldl (fun acc c => acc.copySubtree top source c) t) t.size
      (source.blocks cs) := by
  induction cs generalizing t with
  | nil => trivial
  | cons c cs ih =>
    rw [List.forall_mem_cons] at hcopy
    have hsize : (t.copySubtree top source c).size = t.size + (c :: source.preorder c).length := by
      rw [size_copySubtree h, List.length_cons, Nat.add_comm 1]
    have htop' : top < (t.copySubtree top source c).size :=
      hsize ▸ Nat.lt_of_lt_of_le htop (Nat.le_add_right _ _)
    rw [List.foldl_cons, blocks_cons, holds_append]
    refine ⟨(hcopy.1 t htop).congr fun i hi hlt => ?_, hsize ▸ ih htop' hcopy.2⟩
    -- The copies that follow do not touch this one.
    rw [node_foldl_copySubtree h htop' cs (hsize ▸ hlt),
      if_neg (Nat.ne_of_gt (Nat.lt_of_lt_of_le htop hi))]

/-- The first new node. -/
theorem node_copySubtree_size (hp : parent < t.size) (id : NodeId) :
    (t.copySubtree parent source id).node t.size =
      { source.node id with
        parent := some parent
        children := source.starts (t.size + 1) (source.children id) } := by
  have hself : t.size < (t.add parent (source.node id)).size := by simp
  have hnew := node_add t parent (source.node id) t.size hp
  rw [if_pos rfl] at hnew
  rw [copySubtree_eq h, node_foldl_copySubtree h hself _ hself, if_pos rfl, Tree.children, hnew,
    size_add]
  rfl

theorem holds_copySubtree (hp : parent < t.size) (id : NodeId) :
    source.Holds (t.copySubtree parent source id) t.size (id :: source.preorder id) := by
  induction id using h.induction generalizing t parent with
  | node id ih =>
    have hself : t.size < (t.add parent (source.node id)).size := by simp
    have hnew := node_copySubtree_size h hp id
    have hrest := holds_foldl_copySubtree h hself fun c hc acc hacc => ih c hc hacc
    rw [← copySubtree_eq h, size_add, ← preorder_eq_blocks h] at hrest
    exact ⟨⟨by rw [hnew]; rfl, by rw [hnew], by rw [Tree.children, hnew]⟩, hrest⟩

end Siblings

/-! ## Reading copies -/

theorem length_starts (source : Tree) (start : NodeId) (cs : List NodeId) :
    (source.starts start cs).length = cs.length := by
  induction cs generalizing start with
  | nil => rfl
  | cons c cs ih => rw [starts, List.length_cons, List.length_cons, ih]

section Blocks

variable {start : NodeId} (hholds : source.Holds t start (source.blocks cs))
include hholds

theorem Holds.of_mem_zip_starts :
    ∀ pair ∈ cs.zip (source.starts start cs),
      source.Holds t pair.2 (pair.1 :: source.preorder pair.1) := by
  induction cs generalizing start with
  | nil => exact fun pair hpair => absurd hpair List.not_mem_nil
  | cons c cs ih =>
    rw [blocks_cons, holds_append, List.length_cons, Nat.add_comm _ 1] at hholds
    exact List.forall_mem_cons.2 ⟨hholds.1, ih hholds.2⟩

theorem Holds.forall₂_blocks {R : NodeId → NodeId → Prop}
    (hR : ∀ c ∈ cs, ∀ start, source.Holds t start (c :: source.preorder c) →
      List.Forall₂ R (c :: source.preorder c)
        (List.range' start (1 + (source.preorder c).length))) :
    List.Forall₂ R (source.blocks cs) (List.range' start (source.blocks cs).length) := by
  induction cs generalizing start with
  | nil => exact .nil
  | cons c cs ih =>
    rw [List.forall_mem_cons] at hR
    rw [blocks_cons, holds_append] at hholds
    have hfirst := hR.1 start hholds.1
    rw [blocks_cons, List.length_append, ← List.range'_append_1]
    rw [Nat.add_comm 1] at hfirst
    exact List.rel_append hfirst (ih hholds.2 hR.2)

theorem Holds.flatMap_starts {below : NodeId → List NodeId}
    (hbelow : ∀ c ∈ cs, ∀ i, start ≤ i → source.Holds t i (c :: source.preorder c) →
      below i = List.range' (i + 1) (source.preorder c).length) :
    ((source.starts start cs).flatMap fun i => i :: below i) =
      List.range' start (source.blocks cs).length := by
  induction cs generalizing start with
  | nil => rfl
  | cons c cs ih =>
    rw [List.forall_mem_cons] at hbelow
    rw [blocks_cons, holds_append, List.length_cons] at hholds
    have hrest := ih hholds.2 fun c hc i hi => hbelow.2 c hc i (Nat.le_of_add_right_le hi)
    rw [starts, List.flatMap_cons, hbelow.1 start (Nat.le_refl _) hholds.1, Nat.add_comm 1, hrest,
      blocks_cons, List.length_append, ← List.range'_append_1, List.length_cons, List.range'_succ]

end Blocks

section Read

variable (h : source.Acyclic) {start : NodeId}
  (hholds : source.Holds t start (id :: source.preorder id))
include h hholds

theorem Holds.sameSubtree : source.SameSubtree t id start := by
  induction id using h.induction generalizing start with
  | node id ih =>
    rw [preorder_eq_blocks h] at hholds
    have hlength := length_starts source (start + 1) (source.children id)
    refine .node ((source.children id).zip (source.starts (start + 1) (source.children id)))
      hholds.1.symbol hholds.1.attributes (List.map_fst_zip (Nat.le_of_eq hlength.symm)) ?_ ?_
    · rw [hholds.1.children]
      exact List.map_snd_zip (Nat.le_of_eq hlength)
    · rintro ⟨c, i⟩ hpair
      exact ih c (List.of_mem_zip hpair).1 (hholds.2.of_mem_zip_starts (c, i) hpair)

theorem Holds.forall₂_sameSubtree :
    List.Forall₂ (source.SameSubtree t) (id :: source.preorder id)
      (List.range' start (1 + (source.preorder id).length)) := by
  induction id using h.induction generalizing start with
  | node id ih =>
    have hself := hholds.sameSubtree h
    rw [preorder_eq_blocks h] at hholds ⊢
    rw [Nat.add_comm 1, List.range'_succ]
    exact .cons hself (hholds.2.forall₂_blocks fun c hc start hholds => ih c hc hholds)

/-- The copy of a subtree is a run of ids. -/
theorem Holds.descendants_eq
    (hdescendants : ∀ i, start ≤ i →
      t.descendants i = (t.children i).flatMap fun c => c :: t.descendants c) :
    t.descendants start = List.range' (start + 1) (source.preorder id).length := by
  induction id using h.induction generalizing start with
  | node id ih =>
    rw [preorder_eq_blocks h] at hholds ⊢
    rw [hdescendants start (Nat.le_refl _), hholds.1.children]
    refine hholds.2.flatMap_starts fun c hc i hi hcopy => ih c hc hcopy fun j hj => ?_
    exact hdescendants j (Nat.le_trans (Nat.le_of_succ_le hi) hj)

end Read

/-! ## Links of copies -/

/-- From the id `first` on, children come after their parents and name them. -/
def LinkedFrom (t : Tree) (first : NodeId) : Prop :=
  ∀ i, first ≤ i → ∀ c ∈ t.children i, i < c ∧ c < t.size ∧ t.parent c = some i

theorem linkedFrom_size (t : Tree) : t.LinkedFrom t.size := by
  intro i hi c hc
  rw [children_of_size_le hi] at hc
  exact absurd hc List.not_mem_nil

namespace LinkedFrom

variable {first : NodeId} (h : t.LinkedFrom first)
include h

theorem add (c : Component) (hp : parent < t.size) : (t.add parent c).LinkedFrom first := by
  intro i hi d hd
  rw [size_add]
  rcases mem_children_add hp hd with hd | ⟨rfl, rfl⟩
  · obtain ⟨hlt, hsize, hparent⟩ := h i hi d hd
    exact ⟨hlt, Nat.lt_succ_of_lt hsize, ((extends_add t c hp).parent hsize).trans hparent⟩
  · refine ⟨hp, Nat.lt_succ_self _, ?_⟩
    rw [Tree.parent, node_add t i c _ hp, if_pos rfl]

theorem lt_of_below {i j : NodeId} (hi : first ≤ i) (hj : t.Below i j) : i < j := by
  induction hj with
  | child hc => exact (h i hi _ hc).1
  | @step mid j _ hc ih =>
    exact Nat.lt_trans ih (h mid (Nat.le_trans hi (Nat.le_of_lt ih)) j hc).1

theorem shallow {i : NodeId} (hi : first ≤ i) : t.Shallow t.size i := by
  refine shallow_of_free fun j hj hcycle => ?_
  have hfirst : first ≤ j := by
    rcases hj with rfl | hj
    · exact hi
    · exact Nat.le_trans hi (Nat.le_of_lt (h.lt_of_below hi hj))
  exact Nat.lt_irrefl _ (h.lt_of_below hfirst hcycle)

theorem descendants_eq {i : NodeId} (hi : first ≤ i) :
    t.descendants i = (t.children i).flatMap fun c => c :: t.descendants c :=
  (descendsFreely (h.shallow hi) fun c hc =>
    h.shallow (Nat.le_trans hi (Nat.le_of_lt (h i hi c hc).1))).descendants

end LinkedFrom

theorem linkedFrom_copySubtree (hp : parent < t.size) (id : NodeId) :
    (t.copySubtree parent source id).LinkedFrom t.size :=
  (copyWithin_preserves (P := fun acc => acc.LinkedFrom t.size)
    (fun c hp h => h.add c hp) _ id hp t.linkedFrom_size).1

theorem isConsistent_copySubtree (h : t.isConsistent = true) (hp : parent < t.size) (id : NodeId) :
    (t.copySubtree parent source id).isConsistent = true := by
  obtain ⟨hroot, hkind, hparent, hlinked⟩ := isConsistent_iff.1 h
  have hkeeps : True ∧ (t.copySubtree parent source id).Linked ∧
      t.Extends (t.copySubtree parent source id) :=
    copyWithin_keeps (P := fun _ => True) (fun _ _ _ _ => trivial) _ id hlinked hp trivial
  obtain ⟨-, hlinked', hext⟩ := hkeeps
  exact isConsistent_iff.2 ⟨hext.lt hroot, (hext.kind hroot).trans hkind,
    (hext.parent hroot).trans hparent, hlinked'⟩

/-! ## Relocation -/

/-- `t'` is `t` with the subtree of `source` at `id` copied below `parent`. -/
structure Relocates (source t t' : Tree) (parent id : NodeId) : Prop where
  /-- There is one new node for the node that is copied and one for each node below it. -/
  size : t'.size = t.size + (1 + (source.descendants id).length)
  /-- The copy takes the new ids in pre-order. -/
  ids : t.size :: t'.descendants t.size =
    List.range' t.size (1 + (source.descendants id).length)
  /-- Node by node in pre-order, what hangs below a new node is what hangs below its original. -/
  copied : List.Forall₂ (source.SameSubtree t') (id :: source.descendants id)
    (t.size :: t'.descendants t.size)
  /-- The links of the copy agree on both ends. -/
  linked : t'.parent t.size = some parent ∧
    ∀ i, t.size ≤ i → ∀ c ∈ t'.children i, t'.parent c = some i
  /-- An old node stays as it is, except that `parent` has the copy as a new last child. -/
  frame : ∀ i < t.size, t'.node i =
    if i = parent then { t.node parent with children := t.children parent ++ [t.size] }
    else t.node i
  consistent : t.isConsistent = true → t'.isConsistent = true

/-- A copied subtree is the same subtree under new ids, and nothing else changes. -/
theorem copySubtree_relocates (h : source.Acyclic) (hp : parent < t.size) (id : NodeId) :
    source.Relocates t (t.copySubtree parent source id) parent id := by
  have hholds := holds_copySubtree h hp id
  have hlinked : (t.copySubtree parent source id).LinkedFrom t.size :=
    linkedFrom_copySubtree hp id
  have hoffspring := descendants_eq_preorder (h.shallow id)
  have hids : t.size :: (t.copySubtree parent source id).descendants t.size =
      List.range' t.size (1 + (source.descendants id).length) := by
    rw [hholds.descendants_eq h fun i hi => hlinked.descendants_eq hi, hoffspring, Nat.add_comm 1,
      List.range'_succ]
  exact {
    size := by rw [size_copySubtree h, hoffspring]
    ids := hids
    copied := by
      rw [hids, hoffspring]
      exact hholds.forall₂_sameSubtree h
    linked := ⟨by rw [Tree.parent, node_copySubtree_size h hp id],
      fun i hi c hc => (hlinked i hi c hc).2.2⟩
    frame := fun i hi => node_copySubtree hp id hi
    consistent := fun hconsistent => isConsistent_copySubtree hconsistent hp id }

/-- The class `A` of one tree, whose fields are older than it, becomes a part of the class `B` of
another one. -/
theorem copySubtree_relocates_shuffledTree :
    shuffledTree.Acyclic ∧ 2 < twinFieldTree.size ∧
    shuffledTree.Relocates twinFieldTree (twinFieldTree.copySubtree 2 shuffledTree 4) 2 4 :=
  ⟨acyclic_shuffledTree, by decide, copySubtree_relocates acyclic_shuffledTree (by decide) 4⟩

end Tree

end SymbolTable
