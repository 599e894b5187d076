import SymbolTable.Proofs.Tree.Consistency
import SymbolTable.Proofs.Tree.Traversal

/-!
# What the check of a node list says about its links

The check follows child links only. Each listed child exists and names the lister as its parent, so
that no node is listed by two others. It does not look at the parent of a node that nobody lists,
and it takes a list of children that repeats one. On the nodes that hang below the root the links
agree in both directions all the same; what can go wrong there is a repetition.
-/

namespace SymbolTable

namespace Tree

/-- Every handle is in range, and a node names as its parent the node that lists it, once. -/
structure LinksAgree (t : Tree) : Prop where
  child_lt : ∀ {n p}, n ∈ t.children p → n < t.size
  parent_lt : ∀ {n p}, t.parent n = some p → p < t.size
  parent_iff : ∀ {n p}, t.parent n = some p ↔ n ∈ t.children p
  once : ∀ {n p}, n ∈ t.children p → (t.children p).count n = 1

variable {t : Tree}

theorem Linked.linksAgree_iff (h : t.Linked) :
    t.LinksAgree ↔
      (∀ n p, t.parent n = some p → n ∈ t.children p) ∧ ∀ p, (t.children p).Nodup := by
  constructor
  · intro hagree
    refine ⟨fun n p => hagree.parent_iff.1, fun p => ?_⟩
    exact List.nodup_iff_count_eq_one.2 fun n hn => hagree.once hn
  · rintro ⟨hlisted, hnodup⟩
    exact {
      child_lt := h.child_lt
      parent_lt := fun hp => lt_size_of_mem_children (hlisted _ _ hp)
      parent_iff := ⟨hlisted _ _, h.parent_child⟩
      once := fun hn => List.count_eq_one_of_mem (hnodup _) hn }

/-- The parent of an attached node lists it. -/
theorem Attached.parent_iff (hlinked : t.Linked) (hroot : t.parent root = none) {n p : NodeId}
    (hn : t.Attached n) : t.parent n = some p ↔ n ∈ t.children p := by
  refine ⟨fun hp => ?_, hlinked.parent_child⟩
  obtain ⟨above, hchain⟩ := hn
  cases hchain with
  | root =>
    rw [hroot] at hp
    cases hp
  | child _ hc =>
    obtain rfl := Option.some.inj ((hlinked.parent_child hc).symm.trans hp)
    exact hc

theorem nodup_descendants_iff (hlinked : t.Linked) (hroot : t.parent root = none) :
    (t.descendants root).Nodup ↔
      ∀ id, id = root ∨ t.Below root id → (t.children id).Nodup := by
  have hshallow := Chain.shallow hlinked hroot (.root (t := t))
  rw [descendants_eq_preorder hshallow]
  exact nodup_preorderWithin_iff hlinked hroot t.attached_root hshallow

/-- An accepted list has its child links in order, and both directions agree on what hangs below the
root. They agree everywhere just when each parent lists its child and no list repeats one, and the
walk from the root lists no node twice just when no list that it meets repeats one. -/
theorem links_of_isConsistent (h : t.isConsistent = true) :
    (∀ n p, n ∈ t.children p → n < t.size ∧ p < t.size ∧ t.parent n = some p) ∧
      (∀ n, n = root ∨ t.Below root n → ∀ p, t.parent n = some p ↔ n ∈ t.children p) ∧
      (t.LinksAgree ↔
        (∀ n p, t.parent n = some p → n ∈ t.children p) ∧ ∀ p, (t.children p).Nodup) ∧
      ((t.descendants root).Nodup ↔
        ∀ id, id = root ∨ t.Below root id → (t.children id).Nodup) := by
  obtain ⟨-, -, hroot, hlinked⟩ := isConsistent_iff.1 h
  refine ⟨fun n p hn => ?_, fun n hn p => ?_, hlinked.linksAgree_iff,
    nodup_descendants_iff hlinked hroot⟩
  · exact ⟨hlinked.child_lt hn, lt_size_of_mem_children hn, hlinked.parent_child hn⟩
  · exact (attached_iff.2 hn).parent_iff hlinked hroot

/-- The class `A` is listed twice, and `B`, which nobody lists, names a parent that does not
exist. -/
def looseTree : Tree where
  nodes := #[
    { kind := .root, value := "ROOT", children := [1, 1] },
    { kind := .classType, value := "A", parent := some 0 },
    { kind := .classType, value := "B", parent := some 9 }]

theorem links_looseTree :
    looseTree.isConsistent = true ∧
      (∀ n p, n ∈ looseTree.children p →
        n < looseTree.size ∧ p < looseTree.size ∧ looseTree.parent n = some p) ∧
      (∀ n, n = root ∨ looseTree.Below root n →
        ∀ p, looseTree.parent n = some p ↔ n ∈ looseTree.children p) ∧
      (looseTree.LinksAgree ↔
        (∀ n p, looseTree.parent n = some p → n ∈ looseTree.children p) ∧
          ∀ p, (looseTree.children p).Nodup) ∧
      ((looseTree.descendants root).Nodup ↔
        ∀ id, id = root ∨ looseTree.Below root id → (looseTree.children id).Nodup) := by
  have hconsistent : looseTree.isConsistent = true := by decide
  exact ⟨hconsistent, links_of_isConsistent hconsistent⟩

/-- The list is accepted although a parent is out of range and a walk lists a node twice. -/
theorem looseTree_accepted :
    looseTree.isConsistent = true ∧ looseTree.parent 2 = some 9 ∧ looseTree.size = 3 ∧
      ¬ looseTree.LinksAgree ∧ looseTree.descendants root = [1, 1] := by
  refine ⟨by decide, by decide, by decide, fun hagree => ?_, by decide⟩
  have hlt : 9 < looseTree.size := hagree.parent_lt (n := 2) (by decide)
  exact absurd hlt (by decide)

end Tree

end SymbolTable
