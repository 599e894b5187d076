import SymbolTable.Proofs.Tree.Consistency
import SymbolTable.Proofs.Tree.Walks

/-!
# Assembling a tree

A tree need not grow from its root downwards. A component may be created without a place and be
attached later, with all that hangs below it by then, and subtrees are copied from other trees. Ids
say nothing about the links of such a tree: a child may be older than its parent. What keeps the
links free of cycles is that no node is attached to itself or below itself; that every walk ends
follows from it, for detached nodes too.

* `WellLinked` is the invariant: the links agree on both ends and have no cycles;
* `Gains` says what one operation leaves as it was;
* `wellLinked_assemble` carries the invariant through any list of operations.
-/

namespace SymbolTable

namespace Tree

/-- One operation on a tree. -/
inductive Operation where
  | create (c : Component)
  | attach (parent child : NodeId)
  | add (parent : NodeId) (c : Component)
  | copySubtree (parent : NodeId) (source : Tree) (id : NodeId)
  | addAttribute (id : NodeId) (a : Attribute)
  | addAttributeIfAbsent (id : NodeId) (a : Attribute)

/-- An attachment that is refused leaves the tree as it is. -/
def perform (t : Tree) : Operation → Tree
  | .create c => t.create c
  | .attach parent child =>
    match t.attach parent child with
    | .ok joined => joined
    | .error _ => t
  | .add parent c => t.add parent c
  | .copySubtree parent source id => t.copySubtree parent source id
  | .addAttribute id a => t.modify id fun c => c.addAttribute a
  | .addAttributeIfAbsent id a => t.modify id fun c => c.addAttributeIfAbsent a

/-- The tree that a list of operations makes of a new tree. -/
def assemble (operations : List Operation) : Tree := operations.foldl perform empty

/-- Every node names as its parent the node that lists it, once, the first node is a root without
parent, and no node lies below itself. -/
structure WellLinked (t : Tree) : Prop where
  root_lt : root < t.size
  kind_root : (t.node root).kind = .root
  parent_root : t.parent root = none
  agree : t.LinksAgree
  acyclic : t.Acyclic

/-- Ids are those of nodes of the tree, no node is attached to itself or to a node below it, and
what is copied comes from a tree that is linked well. -/
def Allows (t : Tree) : Operation → Prop
  | .create _ => True
  | .attach parent child =>
    parent < t.size ∧ child < t.size ∧ parent ≠ child ∧ ¬ t.Below child parent
  | .add parent _ => parent < t.size
  | .copySubtree parent source id => parent < t.size ∧ source.WellLinked ∧ id < source.size
  | .addAttribute id _ => id < t.size
  | .addAttributeIfAbsent id _ => id < t.size

/-- Each operation is allowed in the tree that the ones before it leave. -/
def AllowsAll (t : Tree) : List Operation → Prop
  | [] => True
  | operation :: rest => t.Allows operation ∧ (t.perform operation).AllowsAll rest

/-- The link that an operation adds to a node which the tree has already. -/
def newLink (t : Tree) : Operation → Option (NodeId × NodeId)
  | .attach parent child =>
    if child ≠ root ∧ t.parent child = none then some (parent, child) else none
  | .add parent _ => some (parent, t.size)
  | .copySubtree parent _ _ => some (parent, t.size)
  | .create _ | .addAttribute _ _ | .addAttributeIfAbsent _ _ => none

/-- The nodes of `t` are nodes of `t'`, with their symbols and links. A link from a parent to a
child is new: the parent has the child as one more last child, and the child has a parent now. -/
structure Gains (t t' : Tree) (link : Option (NodeId × NodeId)) : Prop where
  size_le : t.size ≤ t'.size
  symbol : ∀ {id}, id < t.size → (t'.node id).symbol = (t.node id).symbol
  parent : ∀ {id}, id < t.size → (∀ p, link ≠ some (p, id)) → t'.parent id = t.parent id
  children : ∀ {id}, id < t.size → (∀ c, link ≠ some (id, c)) → t'.children id = t.children id
  joined : ∀ {p c}, link = some (p, c) →
    t'.children p = t.children p ++ [c] ∧ t.parent c = none ∧ t'.parent c = some p

variable {t t' : Tree} {parent child id c : NodeId}

/-! ## Operations that link nothing -/

/-- The trees have the same links. The second may have more nodes, which have none. -/
structure SameLinks (t t' : Tree) : Prop where
  size_le : t.size ≤ t'.size
  symbol : ∀ {id}, id < t.size → (t'.node id).symbol = (t.node id).symbol
  parent : ∀ id, t'.parent id = t.parent id
  children : ∀ id, t'.children id = t.children id

theorem SameShape.sameLinks (h : t.SameShape t') : t.SameLinks t' :=
  ⟨Nat.le_of_eq h.size.symm, fun _ => h.symbol _, h.parent, h.children⟩

theorem sameLinks_create (t : Tree) (c : Component) : t.SameLinks (t.create c) where
  size_le := by simp
  symbol hid := by rw [node_create, if_neg (Nat.ne_of_lt hid)]
  parent id := by
    unfold Tree.parent
    rw [node_create]
    split
    · next hid => rw [node_of_size_le (Nat.le_of_eq hid.symm)]; rfl
    · rfl
  children id := by
    unfold Tree.children
    rw [node_create]
    split
    · next hid => rw [node_of_size_le (Nat.le_of_eq hid.symm)]; rfl
    · rfl

theorem sameShape_modify (t : Tree) (id : NodeId) {f : Component → Component}
    (hf : ∀ c, (f c).symbol = c.symbol ∧ (f c).parent = c.parent ∧ (f c).children = c.children) :
    t.SameShape (t.modify id f) := by
  by_cases hid : id < t.size
  · refine ⟨by simp, ?_, ?_, ?_⟩ <;> intro i <;>
      simp only [Tree.parent, Tree.children, node_modify t _ _ _ hid] <;> split <;> simp [hf]
  · rw [modify_of_size_le (Nat.le_of_not_lt hid)]
    exact SameShape.refl t

theorem sameShape_addAttribute (t : Tree) (id : NodeId) (a : Attribute) :
    t.SameShape (t.modify id fun c => c.addAttribute a) :=
  sameShape_modify t id fun _ => ⟨rfl, rfl, rfl⟩

theorem sameShape_addAttributeIfAbsent (t : Tree) (id : NodeId) (a : Attribute) :
    t.SameShape (t.modify id fun c => c.addAttributeIfAbsent a) := by
  refine sameShape_modify t id fun c => ?_
  unfold Component.addAttributeIfAbsent
  split <;> exact ⟨rfl, rfl, rfl⟩

theorem SameLinks.gains (h : t.SameLinks t') : t.Gains t' none where
  size_le := h.size_le
  symbol := h.symbol
  parent _ _ := h.parent _
  children _ _ := h.children _
  joined hlink := nomatch hlink

theorem Below.mono (h : ∀ {id c}, c ∈ t.children id → c ∈ t'.children id) {above : NodeId}
    (hbelow : t.Below above id) : t'.Below above id := by
  induction hbelow with
  | child hc => exact .child (h hc)
  | step _ hc ih => exact .step ih (h hc)

theorem Below.trans {a b : NodeId} (h : t.Below a b) (h' : t.Below b c) : t.Below a c := by
  induction h' with
  | child hc => exact .step h hc
  | step _ hc ih => exact .step ih hc

theorem WellLinked.of_sameLinks (h : t.WellLinked) (hs : t.SameLinks t') : t'.WellLinked where
  root_lt := Nat.lt_of_lt_of_le h.root_lt hs.size_le
  kind_root := (congrArg Symbol.kind (hs.symbol h.root_lt)).trans h.kind_root
  parent_root := (hs.parent root).trans h.parent_root
  agree := {
    child_lt := fun hn => Nat.lt_of_lt_of_le (h.agree.child_lt (hs.children _ ▸ hn)) hs.size_le
    parent_lt := fun hp => Nat.lt_of_lt_of_le (h.agree.parent_lt (hs.parent _ ▸ hp)) hs.size_le
    parent_iff := by
      intro n p
      rw [hs.parent, hs.children]
      exact h.agree.parent_iff
    once := by
      intro n p hn
      rw [hs.children] at hn ⊢
      exact h.agree.once hn }
  acyclic id hid := h.acyclic id (hid.mono fun hc => hs.children _ ▸ hc)

theorem wellLinked_empty : empty.WellLinked where
  root_lt := grown_empty.root_lt
  kind_root := rfl
  parent_root := rfl
  agree := by
    refine grown_empty.linked.linksAgree_iff.2 ⟨fun n p hp => ?_, fun p => by simp⟩
    match n with
    | 0 => cases hp
    | n + 1 =>
      rw [Tree.parent, node_of_size_le (Nat.succ_le_succ (Nat.zero_le n))] at hp
      cases hp
  acyclic := grown_empty.acyclic

/-! ## Linking -/

section Link

variable (hp : parent < t.size) (hc : child < t.size)
include hp hc

theorem node_link (i : NodeId) :
    (t.link parent child).node i =
      { t.node i with
        parent := if i = child then some parent else t.parent i
        children := if i = parent then t.children i ++ [child] else t.children i } := by
  rw [link, node_modify _ _ _ _ (by simpa using hp), node_modify _ _ _ _ hc]
  unfold Tree.parent Tree.children
  split_ifs <;> rfl

theorem parent_link (i : NodeId) :
    (t.link parent child).parent i = if i = child then some parent else t.parent i := by
  rw [Tree.parent, node_link hp hc]

theorem children_link (i : NodeId) :
    (t.link parent child).children i =
      if i = parent then t.children i ++ [child] else t.children i := by
  rw [Tree.children, node_link hp hc]

theorem mem_children_link {i n : NodeId} :
    n ∈ (t.link parent child).children i ↔ n ∈ t.children i ∨ i = parent ∧ n = child := by
  rw [children_link hp hc]
  split <;> simp_all

theorem gains_link (hfree : t.parent child = none) :
    t.Gains (t.link parent child) (some (parent, child)) where
  size_le := by simp
  symbol _ := by rw [node_link hp hc]; rfl
  parent _ hne := by
    rw [parent_link hp hc, if_neg]
    rintro rfl
    exact hne parent rfl
  children _ hne := by
    rw [children_link hp hc, if_neg]
    rintro rfl
    exact hne child rfl
  joined hlink := by
    obtain ⟨rfl, rfl⟩ := Prod.mk.inj (Option.some.inj hlink)
    rw [children_link hp hc, parent_link hp hc, if_pos rfl, if_pos rfl]
    exact ⟨rfl, hfree, rfl⟩

/-- A chain of links that uses the new one comes down to the parent and goes on from the child. It
uses the new link once, as the child is not above the parent. -/
theorem below_of_below_link (hne : parent ≠ child) (hbelow : ¬ t.Below child parent)
    {above : NodeId} (h : (t.link parent child).Below above id) :
    t.Below above id ∨
      (above = parent ∨ t.Below above parent) ∧ (id = child ∨ t.Below child id) := by
  induction h with
  | child hid =>
    rcases (mem_children_link hp hc).1 hid with hold | ⟨rfl, rfl⟩
    · exact .inl (.child hold)
    · exact .inr ⟨.inl rfl, .inl rfl⟩
  | step _ hid ih =>
    rcases (mem_children_link hp hc).1 hid with hold | ⟨rfl, rfl⟩
    · rcases ih with hmid | ⟨habove, rfl | hmid⟩
      · exact .inl (.step hmid hold)
      · exact .inr ⟨habove, .inr (.child hold)⟩
      · exact .inr ⟨habove, .inr (.step hmid hold)⟩
    · rcases ih with hmid | ⟨-, hcycle⟩
      · exact .inr ⟨.inr hmid, .inl rfl⟩
      · exact absurd hcycle (not_or.2 ⟨hne, hbelow⟩)

theorem acyclic_link (h : t.Acyclic) (hne : parent ≠ child) (hbelow : ¬ t.Below child parent) :
    (t.link parent child).Acyclic := by
  intro id hid
  rcases below_of_below_link hp hc hne hbelow hid with hold | ⟨hparent, hchild⟩
  · exact h id hold
  -- Otherwise the child is above the parent, through `id`.
  · rcases hparent with rfl | hparent
    · exact hchild.elim hne hbelow
    · rcases hchild with rfl | hchild
      · exact hbelow hparent
      · exact hbelow (hchild.trans hparent)

omit hp hc in
theorem LinksAgree.not_mem_children (h : t.LinksAgree) (hfree : t.parent child = none)
    (p : NodeId) : child ∉ t.children p := by
  intro hmem
  rw [h.parent_iff.2 hmem] at hfree
  cases hfree

theorem linked_link (h : t.LinksAgree) (hfree : t.parent child = none) :
    (t.link parent child).Linked where
  child_lt {i n} hn := by
    rw [size_link]
    rcases (mem_children_link hp hc).1 hn with hold | ⟨-, rfl⟩
    · exact h.child_lt hold
    · exact hc
  parent_child {i n} hn := by
    rw [parent_link hp hc]
    rcases (mem_children_link hp hc).1 hn with hold | ⟨rfl, rfl⟩
    · have hne : n ≠ child := by
        rintro rfl
        exact h.not_mem_children hfree i hold
      rw [if_neg hne, h.parent_iff.2 hold]
    · rw [if_pos rfl]

theorem linksAgree_link (h : t.LinksAgree) (hfree : t.parent child = none) :
    (t.link parent child).LinksAgree := by
  refine (linked_link hp hc h hfree).linksAgree_iff.2 ⟨fun n p hparent => ?_, fun p => ?_⟩
  · rw [parent_link hp hc] at hparent
    rw [mem_children_link hp hc]
    split at hparent
    · next hn => exact .inr ⟨(Option.some.inj hparent).symm, hn⟩
    · exact .inl (h.parent_iff.1 hparent)
  · have hnodup : (t.children p).Nodup := List.nodup_iff_count_eq_one.2 fun n hn => h.once hn
    rw [children_link hp hc]
    split
    · refine List.nodup_append.2 ⟨hnodup, List.nodup_singleton _, ?_⟩
      rintro n hn m hm rfl
      exact h.not_mem_children hfree p (List.mem_singleton.1 hm ▸ hn)
    · exact hnodup

theorem WellLinked.link (h : t.WellLinked) (hroot : child ≠ root) (hfree : t.parent child = none)
    (hne : parent ≠ child) (hbelow : ¬ t.Below child parent) :
    (t.link parent child).WellLinked where
  root_lt := by simpa using h.root_lt
  kind_root := by rw [node_link hp hc]; exact h.kind_root
  parent_root := by rw [parent_link hp hc, if_neg hroot.symm]; exact h.parent_root
  agree := linksAgree_link hp hc h.agree hfree
  acyclic := acyclic_link hp hc h.acyclic hne hbelow

end Link

theorem WellLinked.linked (h : t.WellLinked) : t.Linked :=
  ⟨h.agree.child_lt, fun hc => h.agree.parent_iff.2 hc⟩

/-! ## Adding and copying -/

section Add

variable (c : Component) (hp : parent < t.size)
include hp

/-- Adding a component is creating it and linking it. -/
theorem WellLinked.add (h : t.WellLinked) : (t.add parent c).WellLinked := by
  have hs := sameLinks_create t c
  have hleaf : (t.create c).children t.size = [] := by
    rw [hs.children, children_of_size_le (Nat.le_refl _)]
  refine (h.of_sameLinks hs).link (Nat.lt_of_lt_of_le hp hs.size_le) (by simp)
    (Nat.ne_of_gt h.root_lt) ?_ (Nat.ne_of_lt hp) (not_below_of_leaf hleaf)
  rw [hs.parent, Tree.parent, node_of_size_le (Nat.le_refl _)]
  rfl

theorem gains_add : t.Gains (t.add parent c) (some (parent, t.size)) where
  size_le := by simp
  symbol := (extends_add t c hp).symbol
  parent hid _ := (extends_add t c hp).parent hid
  children _ hne := by
    rw [children_add t c hp, if_neg]
    rintro rfl
    exact hne _ rfl
  joined hlink := by
    obtain ⟨rfl, rfl⟩ := Prod.mk.inj (Option.some.inj hlink)
    refine ⟨by rw [children_add t c hp, if_pos rfl], ?_, ?_⟩
    · rw [Tree.parent, node_of_size_le (Nat.le_refl _)]
      rfl
    · rw [Tree.parent, node_add t _ c _ hp, if_pos rfl]

end Add

section Copy

variable {source : Tree}

theorem size_le_copyWithin (fuel : Nat) (t : Tree) (parent id : NodeId) :
    t.size ≤ (source.copyWithin fuel t parent id).size := by
  induction fuel generalizing t parent id with
  | zero => exact Nat.le_refl _
  | succ fuel ih =>
    rw [copyWithin]
    apply List.foldlRecOn (motive := fun acc : Tree => t.size ≤ acc.size)
    · simp
    · exact fun acc hacc c _ => Nat.le_trans hacc (ih acc t.size c)

/-- After the first node of a copy only the copies of its children follow, all of them below new
nodes. -/
theorem node_copyWithin (fuel : Nat) (id : NodeId) (hp : parent < t.size) {i : NodeId}
    (hi : i < t.size) :
    (source.copyWithin (fuel + 1) t parent id).node i =
      (t.add parent (source.node id)).node i := by
  induction fuel generalizing t parent id with
  | zero =>
    rw [copyWithin]
    exact congrArg (fun acc : Tree => acc.node i) (List.foldl_fixed (source.children id))
  | succ fuel ih =>
    rw [copyWithin]
    refine (List.foldlRecOn (motive := fun acc : Tree => t.size < acc.size ∧
      acc.node i = (t.add parent (source.node id)).node i) _ _ ⟨by simp, rfl⟩ ?_).2
    rintro acc ⟨hsize, hacc⟩ c -
    refine ⟨Nat.lt_of_lt_of_le hsize (size_le_copyWithin _ _ _ _), ?_⟩
    rw [ih c hsize (Nat.lt_trans hi hsize), node_add acc _ _ _ hsize,
      if_neg (Nat.ne_of_lt (Nat.lt_trans hi hsize)), if_neg (Nat.ne_of_lt hi), hacc]

theorem WellLinked.copySubtree (id : NodeId) (hp : parent < t.size) (h : t.WellLinked) :
    (t.copySubtree parent source id).WellLinked :=
  (copyWithin_keeps (P := WellLinked) (fun c _ hp h => h.add c hp) _ id h.linked hp h).1

theorem gains_copySubtree (id : NodeId) (hp : parent < t.size) (h : t.WellLinked) :
    t.Gains (t.copySubtree parent source id) (some (parent, t.size)) := by
  have hadd := gains_add (source.node id) hp
  have hnode : ∀ {i}, i < t.size →
      (t.copySubtree parent source id).node i = (t.add parent (source.node id)).node i :=
    fun hi => node_copyWithin source.size id hp hi
  exact {
    size_le := size_le_copyWithin _ _ _ _
    symbol := fun hi => by rw [hnode hi, hadd.symbol hi]
    parent := fun hi hne => by rw [Tree.parent, hnode hi, ← Tree.parent, hadd.parent hi hne]
    children := fun hi hne => by
      rw [Tree.children, hnode hi, ← Tree.children, hadd.children hi hne]
    joined := fun hlink => by
      obtain ⟨rfl, rfl⟩ := Prod.mk.inj (Option.some.inj hlink)
      obtain ⟨hchildren, hfree, -⟩ := hadd.joined rfl
      have hlisted : (t.copySubtree parent source id).children parent =
          t.children parent ++ [t.size] := by
        rw [Tree.children, hnode hp, ← Tree.children, hchildren]
      refine ⟨hlisted, hfree, (h.copySubtree id hp).linked.parent_child ?_⟩
      rw [hlisted]
      exact List.mem_append_right _ List.mem_cons_self }

end Copy

/-! ## One operation and a list of operations -/

/-- An attachment links the two nodes or is refused. -/
theorem perform_attach_cases (t : Tree) (parent child : NodeId) :
    (child ≠ root ∧ t.parent child = none ∧
      t.perform (.attach parent child) = t.link parent child ∧
      t.newLink (.attach parent child) = some (parent, child)) ∨
    t.perform (.attach parent child) = t ∧ t.newLink (.attach parent child) = none := by
  by_cases hfree : child ≠ root ∧ t.parent child = none
  · exact .inl ⟨hfree.1, hfree.2, by simp only [perform, attach, if_pos hfree],
      by simp only [newLink, if_pos hfree]⟩
  · exact .inr ⟨by simp only [perform, attach, if_neg hfree],
      by simp only [newLink, if_neg hfree]⟩

section Perform

variable {operation : Operation} (h : t.WellLinked) (hallows : t.Allows operation)
include h hallows

theorem WellLinked.perform : (t.perform operation).WellLinked := by
  cases operation with
  | create c => exact h.of_sameLinks (sameLinks_create t c)
  | attach parent child =>
    obtain ⟨hp, hc, hne, hbelow⟩ := hallows
    rcases perform_attach_cases t parent child with ⟨hroot, hfree, heq, -⟩ | ⟨heq, -⟩ <;> rw [heq]
    · exact h.link hp hc hroot hfree hne hbelow
    · exact h
  | add parent c => exact h.add c hallows
  | copySubtree parent source id => exact h.copySubtree id hallows.1
  | addAttribute id a => exact h.of_sameLinks (sameShape_addAttribute t id a).sameLinks
  | addAttributeIfAbsent id a =>
    exact h.of_sameLinks (sameShape_addAttributeIfAbsent t id a).sameLinks

theorem gains_perform : t.Gains (t.perform operation) (t.newLink operation) := by
  cases operation with
  | create c => exact (sameLinks_create t c).gains
  | attach parent child =>
    obtain ⟨hp, hc, -, -⟩ := hallows
    rcases perform_attach_cases t parent child with ⟨-, hfree, heq, hlink⟩ | ⟨heq, hlink⟩ <;>
      rw [heq, hlink]
    · exact gains_link hp hc hfree
    · exact (SameShape.refl t).sameLinks.gains
  | add parent c => exact gains_add c hallows
  | copySubtree parent source id => exact gains_copySubtree id hallows.1 h
  | addAttribute id a => exact (sameShape_addAttribute t id a).sameLinks.gains
  | addAttributeIfAbsent id a => exact (sameShape_addAttributeIfAbsent t id a).sameLinks.gains

end Perform

theorem WellLinked.foldl_perform (h : t.WellLinked) {operations : List Operation}
    (hallows : t.AllowsAll operations) : (operations.foldl Tree.perform t).WellLinked := by
  induction operations generalizing t with
  | nil => exact h
  | cons operation rest ih => exact ih (h.perform hallows.1) hallows.2

theorem wellLinked_assemble {operations : List Operation} (h : empty.AllowsAll operations) :
    (assemble operations).WellLinked := wellLinked_empty.foldl_perform h

/-! ## Walks -/

section Walks

variable (h : t.WellLinked)
include h

theorem WellLinked.isConsistent : t.isConsistent = true :=
  isConsistent_iff.2 ⟨h.root_lt, h.kind_root, h.parent_root, h.linked⟩

/-- A climb comes to an end: the nodes that it has passed are below the node that it is at, so they
are different nodes, and there are not more of them than the tree has. -/
theorem WellLinked.exists_ascent {n : Nat} {passed : List NodeId} (hid : id < t.size)
    (hnodup : passed.Nodup) (hpassed : ∀ a ∈ passed, a < t.size ∧ t.Below id a)
    (hn : t.size ≤ passed.length + n) : ∃ above, t.Ascent id above := by
  have hnodup' : (id :: passed).Nodup :=
    List.nodup_cons.2 ⟨fun hmem => h.acyclic id (hpassed id hmem).2, hnodup⟩
  induction n generalizing id passed with
  | zero =>
    have hlength := length_lt_size hnodup' hid fun a ha => (hpassed a ha).1
    exact absurd hlength (Nat.not_lt_of_le hn)
  | succ n ih =>
    cases hp : t.parent id with
    | none => exact ⟨[], .top hp⟩
    | some p =>
      have hlisted := h.agree.parent_iff.1 hp
      have hbelow : ∀ a ∈ id :: passed, a < t.size ∧ t.Below p a := by
        intro a ha
        rcases List.mem_cons.1 ha with rfl | ha
        · exact ⟨hid, .child hlisted⟩
        · exact (hpassed a ha).imp_right (Below.child hlisted).trans
      obtain ⟨above, habove⟩ := ih (h.agree.parent_lt hp) hnodup' hbelow
        (by rw [List.length_cons]; omega)
        (List.nodup_cons.2 ⟨fun hmem => h.acyclic p (hbelow p hmem).2, hnodup'⟩)
      exact ⟨p :: above, .step hp habove⟩

variable {above : List NodeId} (ha : t.Ascent id above)
include ha

theorem Ascent.lies_below : ∀ a ∈ above, a < t.size ∧ t.Below a id := by
  induction ha with
  | top => exact fun a ha => absurd ha List.not_mem_nil
  | step hp _ ih =>
    have hlisted := h.agree.parent_iff.1 hp
    intro a ha
    rcases List.mem_cons.1 ha with rfl | ha
    · exact ⟨h.agree.parent_lt hp, .child hlisted⟩
    · exact (ih a ha).imp_right (.step · hlisted)

theorem Ascent.nodup : above.Nodup := by
  induction ha with
  | top => exact List.nodup_nil
  | step _ ha ih =>
    exact List.nodup_cons.2 ⟨fun hmem => h.acyclic _ (Ascent.lies_below h ha _ hmem).2, ih⟩

theorem Ascent.length_lt (hid : id < t.size) : above.length < t.size :=
  length_lt_size_of_above (h.acyclic id) hid (Ascent.nodup h ha) (Ascent.lies_below h ha)

end Walks

/-- A tree that was assembled passes the check of its links, in both directions and without
repetition. No node is above itself, so that the walks from each node end, upwards and downwards and
whether or not it hangs below the root. Every further operation leaves the nodes that are there as
they are, up to the one link that it makes. -/
theorem assembled_tree {operations : List Operation} (h : empty.AllowsAll operations) :
    (assemble operations).isConsistent = true ∧
    (assemble operations).LinksAgree ∧
    (assemble operations).parent root = none ∧
    (assemble operations).Acyclic ∧
    (∀ id < (assemble operations).size,
      id ∉ (assemble operations).ancestors id ∧
      ((assemble operations).Ends (assemble operations).children id ∧
        (assemble operations).DescendsFreely id) ∧
      (assemble operations).Ends (assemble operations).above id ∧
        (assemble operations).ClimbsFreely id) ∧
    ∀ operation, (assemble operations).Allows operation →
      (assemble operations).Gains ((assemble operations).perform operation)
        ((assemble operations).newLink operation) := by
  have hwell := wellLinked_assemble h
  refine ⟨hwell.isConsistent, hwell.agree, hwell.parent_root, hwell.acyclic, fun id hid => ?_,
    fun operation hallows => gains_perform hwell hallows⟩
  obtain ⟨above, hascent⟩ := hwell.exists_ascent hid List.nodup_nil
    (fun a ha => absurd ha List.not_mem_nil) (Nat.le_add_left _ _)
  have hlength := hascent.length_lt hwell hid
  have habove := hascent.lies_below hwell
  refine ⟨?_, ⟨ends_children hwell.linked hid (hwell.acyclic.shallow id),
    descendsFreely (hwell.acyclic.shallow id) fun c _ => hwell.acyclic.shallow c⟩,
    hascent.ends_above hid fun a ha => (habove a ha).1, hascent.climbsFreely hlength⟩
  rw [ancestors, hascent.ancestorsWithin_eq (Nat.le_of_lt hlength)]
  exact fun hmem => hwell.acyclic id (habove id hmem).2

/-- An interface with one method. -/
def interfaceTree : Tree :=
  (empty.add root { kind := .interfaceType, value := "I" }).add 1 { kind := .method, value := "run" }

/-- A method is put into a class before the class is put into a package that is younger than both.
The package then takes a copy of the interface. The method is not attached a second time. -/
def packageOperations : List Operation := [
  .create { kind := .classType, value := "A" },
  .create { kind := .method, value := "m" },
  .attach 1 2,
  .add root { kind := .package, value := "p" },
  .attach 3 1,
  .copySubtree 3 interfaceTree 1,
  .addAttribute 1 ⟨.modifier, "public"⟩,
  .attach 3 2]

theorem assembled_packageOperations :
    empty.AllowsAll packageOperations ∧
    (assemble packageOperations).isConsistent = true ∧
    (assemble packageOperations).LinksAgree ∧
    (assemble packageOperations).parent root = none ∧
    (assemble packageOperations).Acyclic ∧
    (∀ id < (assemble packageOperations).size,
      id ∉ (assemble packageOperations).ancestors id ∧
      ((assemble packageOperations).Ends (assemble packageOperations).children id ∧
        (assemble packageOperations).DescendsFreely id) ∧
      (assemble packageOperations).Ends (assemble packageOperations).above id ∧
        (assemble packageOperations).ClimbsFreely id) ∧
    ∀ operation, (assemble packageOperations).Allows operation →
      (assemble packageOperations).Gains ((assemble packageOperations).perform operation)
        ((assemble packageOperations).newLink operation) := by
  have hinterface : interfaceTree.WellLinked :=
    (wellLinked_empty.add _ wellLinked_empty.root_lt).add _ (by decide)
  have hallows : empty.AllowsAll packageOperations := by
    refine ⟨trivial, trivial, ⟨by decide, by decide, by decide, not_below_of_leaf (by decide)⟩,
      Nat.zero_lt_succ _, ⟨by decide, by decide, by decide, fun hbelow => ?_⟩,
      ⟨by decide, hinterface, by decide⟩, show 1 < 6 by decide,
      ⟨by decide, by decide, by decide, not_below_of_leaf (by decide)⟩, trivial⟩
    obtain ⟨c, hc, rfl | hbelow⟩ := below_iff.1 hbelow
    · exact absurd hc (by decide)
    · obtain rfl : c = 2 := by simpa using (show c ∈ [2] from hc)
      exact not_below_of_leaf (by decide) hbelow
  exact ⟨hallows, assembled_tree hallows⟩

end Tree

end SymbolTable
