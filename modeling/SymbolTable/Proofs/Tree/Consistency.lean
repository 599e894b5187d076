import SymbolTable.Proofs.Tree.Merge

/-!
# Consistent trees stay consistent

The check of a node list accepts exactly the linked trees whose first node is a root without parent.
Merging keeps the tree that it merges into consistent, whatever the source holds: a source with
cycles, dangling ids or equal siblings only decides which nodes are added.
-/

namespace SymbolTable

namespace Tree

theorem childrenAgree_iff {t : Tree} {id : NodeId} :
    t.childrenAgree id (t.node id) = true ↔
      ∀ c ∈ t.children id, c < t.size ∧ t.parent c = some id := by
  rw [childrenAgree, List.all_eq_true]
  refine forall₂_congr fun c _ => ?_
  by_cases hc : c < t.nodes.size <;> simp [hc, size, parent, node]

theorem isConsistent_iff {t : Tree} :
    t.isConsistent = true ↔
      root < t.size ∧ (t.node root).kind = .root ∧ t.parent root = none ∧ t.Linked := by
  have hall : (∀ p ∈ t.nodes.toList.zipIdx, t.childrenAgree p.2 p.1 = true) ↔ t.Linked := by
    constructor
    · intro hagree
      have hchild : ∀ {id c}, c ∈ t.children id → c < t.size ∧ t.parent c = some id := by
        intro id c hc
        have hid : id < t.nodes.size := lt_size_of_mem_children hc
        refine childrenAgree_iff.1 (hagree (t.node id, id) ?_) c hc
        rw [List.mem_zipIdx_iff_getElem?]
        simp [node, hid]
      exact ⟨fun hc => (hchild hc).1, fun hc => (hchild hc).2⟩
    · rintro hlinked ⟨c, id⟩ hmem
      rw [List.mem_zipIdx_iff_getElem?] at hmem
      have hnode : t.node id = c := by simpa [node] using congrArg (·.getD .missing) hmem
      rw [← hnode]
      exact childrenAgree_iff.2 fun d hd => ⟨hlinked.child_lt hd, hlinked.parent_child hd⟩
  rw [isConsistent]
  cases hroot : t.nodes[0]? with
  | none =>
    have hsize : ¬ root < t.size := Nat.not_lt.2 (Array.getElem?_eq_none_iff.1 hroot)
    simp [hsize]
  | some top =>
    obtain ⟨hlt, htop⟩ := Array.getElem?_eq_some_iff.1 hroot
    have hnode : t.node root = top := by simp [node, root, hroot]
    have hsize : root < t.size := hlt
    simp only [hsize, true_and, parent, hnode, Bool.and_eq_true, decide_eq_true_eq,
      Option.isNone_iff_eq_none, List.all_eq_true, ← hall, and_assoc]

/-! ## Merging any tree -/

/-- A copy only adds nodes, one after the other, so it keeps what each addition keeps. -/
theorem copyWithin_preserves {source : Tree} {P : Tree → Prop}
    (hadd : ∀ {t : Tree} {parent : NodeId} (c : Component), parent < t.size → P t →
      P (t.add parent c))
    (fuel : Nat) {t : Tree} {parent : NodeId} (id : NodeId) (hp : parent < t.size) (hP : P t) :
    P (source.copyWithin fuel t parent id) ∧
      t.size ≤ (source.copyWithin fuel t parent id).size := by
  induction fuel generalizing t parent id with
  | zero => exact ⟨hP, Nat.le_refl _⟩
  | succ fuel ih =>
    rw [copyWithin]
    refine And.imp_right Nat.le_of_lt (List.foldlRecOn
      (motive := fun acc : Tree => P acc ∧ t.size < acc.size) _ _ ⟨hadd _ hp hP, by simp⟩ ?_)
    rintro acc ⟨hPacc, hsize⟩ c -
    exact (ih c hsize hPacc).imp_right (Nat.lt_of_lt_of_le hsize)

section Keeps

variable {source : Tree} {P : Tree → Prop}
  (hadd : ∀ {t : Tree} {parent : NodeId} (c : Component), t.Linked → parent < t.size → P t →
    P (t.add parent c))
include hadd

theorem copyWithin_keeps (fuel : Nat) {t : Tree} {parent : NodeId} (id : NodeId) (h : t.Linked)
    (hp : parent < t.size) (hP : P t) :
    P (source.copyWithin fuel t parent id) ∧ (source.copyWithin fuel t parent id).Linked ∧
      t.Extends (source.copyWithin fuel t parent id) := by
  refine (copyWithin_preserves (P := fun acc => P acc ∧ acc.Linked ∧ t.Extends acc) ?_ fuel id hp
    ⟨hP, h, Extends.refl t⟩).1
  rintro acc parent c hp ⟨hPacc, hacc, hgrowth⟩
  exact ⟨hadd c hacc hp hPacc, hacc.add hp, hgrowth.trans (extends_add acc c hp)⟩

/-- A merge only unites attributes and adds nodes, so it keeps what these two keep. -/
theorem mergeWithin_keeps
    (hunite : ∀ {t : Tree} (id : NodeId) (added : List Attribute), P t →
      P (t.modify id fun node => node.uniteAttributes added))
    (fuel : Nat) {t : Tree} {target : NodeId} (id : NodeId) (h : t.Linked)
    (htarget : target < t.size) (hP : P t) :
    P (source.mergeWithin fuel t target id) ∧ (source.mergeWithin fuel t target id).Linked ∧
      t.Extends (source.mergeWithin fuel t target id) := by
  induction fuel generalizing t target id with
  | zero => exact ⟨hP, h, Extends.refl t⟩
  | succ fuel ih =>
    rw [mergeWithin]
    apply List.foldlRecOn (motive := fun acc => P acc ∧ acc.Linked ∧ t.Extends acc) _ _
      ⟨hunite target _ hP, h.of_sameShape (sameShape_uniteAt t target _),
        extends_uniteAt t target _⟩
    rintro acc ⟨hPacc, hacc, hgrowth⟩ c -
    cases he : acc.findChild target (source.node c) with
    | some e =>
      have hlt := hacc.child_lt (List.mem_of_find?_eq_some he)
      obtain ⟨hP', hlinked, hmore⟩ := ih c hacc hlt hPacc
      exact ⟨hP', hlinked, hgrowth.trans hmore⟩
    | none =>
      refine And.imp_right (And.imp_right hgrowth.trans) ?_
      exact copyWithin_keeps hadd _ c hacc (hgrowth.lt htarget) hPacc

end Keeps

section MergeAt

variable {t : Tree} {target : NodeId} (source : Tree) (id : NodeId)

theorem linked_mergeAt (h : t.Linked) (htarget : target < t.size) :
    (t.mergeAt target source id).Linked ∧ t.Extends (t.mergeAt target source id) :=
  (mergeWithin_keeps (P := fun _ => True) (fun _ _ _ _ => trivial) (fun _ _ _ => trivial) _ id h
    htarget trivial).2

theorem isConsistent_mergeAt (h : t.isConsistent = true) (htarget : target < t.size) :
    (t.mergeAt target source id).isConsistent = true := by
  obtain ⟨hroot, hkind, hparent, hlinked⟩ := isConsistent_iff.1 h
  obtain ⟨hlinked', hext⟩ := linked_mergeAt source id hlinked htarget
  exact isConsistent_iff.2 ⟨hext.lt hroot, (hext.kind hroot).trans hkind,
    (hext.parent hroot).trans hparent, hlinked'⟩

end MergeAt

/-! ## Trees of applications -/

/-- What the tree of an application can be: it starts with the root alone and only grows by
merges. -/
inductive Merged : Tree → Prop
  | empty : Merged .empty
  | mergeAt {t : Tree} {target : NodeId} (source : Tree) (id : NodeId) :
    Merged t → target < t.size → Merged (t.mergeAt target source id)

namespace Merged

theorem isConsistent {t : Tree} (h : t.Merged) : t.isConsistent = true := by
  induction h with
  | empty => rfl
  | mergeAt source id _ htarget ih => exact isConsistent_mergeAt source id ih htarget

/-- A merge gives each new node an id above that of its parent. -/
theorem lt_child {t : Tree} (h : t.Merged) : ∀ {id c}, c ∈ t.children id → id < c := by
  induction h with
  | empty => simp
  | mergeAt source id hmerged htarget ih =>
    refine (mergeWithin_keeps (P := fun t => ∀ {id c}, c ∈ t.children id → id < c) ?_ ?_ _ id
      (isConsistent_iff.1 hmerged.isConsistent).2.2.2 htarget ih).1
    · intro t parent c hlinked hp hlt id d hd
      rcases mem_children_add hp hd with hd | ⟨rfl, rfl⟩
      · exact hlt hd
      · exact hp
    · intro t at' added hlt id d hd
      exact hlt ((sameShape_uniteAt t at' added).children id ▸ hd)

theorem acyclic {t : Tree} (h : t.Merged) : t.Acyclic := acyclic_of_lt_child h.lt_child

end Merged

end Tree

end SymbolTable
