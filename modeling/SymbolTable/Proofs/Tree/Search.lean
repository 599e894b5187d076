import SymbolTable.Proofs.Tree.Consistency
import SymbolTable.Proofs.Tree.Location

/-!
# Search by coordinate is a search in pre-order

The search strips one value after another off the text and cuts off branches that cannot spell it.
It finds what a plain walk over the tree would: the first node in pre-order that has the coordinate.
-/

namespace SymbolTable

namespace Tree

theorem append_ne_of_isPrefixOf? {text rest : List Char} (h : text.isPrefixOf? rest = none)
    (tail : List Char) : text ++ tail ≠ rest := by
  rintro rfl
  have hsome : (text.isPrefixOf? (text ++ tail)).isSome := by simp
  rw [h] at hsome
  cases hsome

namespace Upright

variable {t : Tree} (h : t.Upright)
include h

theorem exists_path_of_mem_preorderWithin {fuel : Nat} {id j : NodeId} (hid : t.Attached id)
    (hj : j ∈ t.preorderWithin fuel id) :
    ∃ path, path ≠ [] ∧ t.identityPath j = t.identityPath id ++ path := by
  induction fuel generalizing id with
  | zero => cases hj
  | succ fuel ih =>
    rw [preorderWithin_succ, List.mem_flatMap] at hj
    obtain ⟨c, hc, hj⟩ := hj
    have hchild := h.identityPath_child hid hc
    rcases List.mem_cons.1 hj with rfl | hj
    · exact ⟨_, List.cons_ne_nil _ _, hchild⟩
    · obtain ⟨path, -, hpath⟩ := ih (hid.child hc) hj
      refine ⟨(t.node c).symbol :: path, List.cons_ne_nil _ _, ?_⟩
      calc t.identityPath j = t.identityPath c ++ path := hpath
        _ = t.identityPath id ++ ((t.node c).symbol :: path) := by
          rw [hchild, List.append_assoc, List.singleton_append]

/-! ## The search -/

theorem spell_child (delimiter : List Char) {c id : NodeId} (hid : t.Attached id)
    (hc : c ∈ t.children id) :
    spell delimiter (t.identityPath c) =
      spellBefore delimiter (t.identityPath id) ++ (t.node c).value.toList := by
  rw [h.identityPath_child hid hc, spell_append_eq _ _ (List.cons_ne_nil _ _), spell_singleton]
  rfl

theorem spellBefore_child (delimiter : List Char) {c id : NodeId} (hid : t.Attached id)
    (hc : c ∈ t.children id) :
    spellBefore delimiter (t.identityPath c) =
      spellBefore delimiter (t.identityPath id) ++ (t.node c).value.toList ++ delimiter := by
  have hne : t.identityPath c ≠ [] := by
    rw [h.identityPath_child hid hc]
    exact List.append_ne_nil_of_right_ne_nil _ (List.cons_ne_nil _ _)
  rw [spellBefore, if_neg hne, h.spell_child delimiter hid hc]

/-- Below a child every coordinate begins with that of the child and a delimiter. -/
theorem exists_spell_eq (delimiter : List Char) {fuel : Nat} {c id j : NodeId}
    (hid : t.Attached id) (hc : c ∈ t.children id) (hj : j ∈ t.preorderWithin fuel c) :
    ∃ tail, spell delimiter (t.identityPath j) =
      spellBefore delimiter (t.identityPath id) ++
        ((t.node c).value.toList ++ (delimiter ++ tail)) := by
  obtain ⟨path, hne, hpath⟩ := h.exists_path_of_mem_preorderWithin (hid.child hc) hj
  refine ⟨spell delimiter path, ?_⟩
  rw [hpath, spell_append_eq _ _ hne, h.spellBefore_child delimiter hid hc]
  simp only [List.append_assoc]

theorem locateAt_eq {delimiter rest : List Char} {fuel : Nat} {c id : NodeId}
    (hid : t.Attached id) (hc : c ∈ t.children id)
    (hbelow : ∀ next, t.locateWithin delimiter fuel c next =
      (t.preorderWithin fuel c).find? fun j =>
        spell delimiter (t.identityPath j) =
          spellBefore delimiter (t.identityPath c) ++ next) :
    t.locateAt delimiter fuel rest c =
      (c :: t.preorderWithin fuel c).find? fun j =>
        spell delimiter (t.identityPath j) =
          spellBefore delimiter (t.identityPath id) ++ rest := by
  have hself := h.spell_child delimiter hid hc
  unfold locateAt
  split
  · -- The value is no beginning of the text, so nothing below can spell it.
    next hprefix =>
    symm
    rw [List.find?_eq_none]
    intro j hj heq
    rw [decide_eq_true_eq] at heq
    rcases List.mem_cons.1 hj with rfl | hj
    · rw [hself, List.append_cancel_left_eq] at heq
      exact append_ne_of_isPrefixOf? hprefix [] ((List.append_nil _).trans heq)
    · obtain ⟨tail, htail⟩ := h.exists_spell_eq delimiter hid hc hj
      rw [htail, List.append_cancel_left_eq] at heq
      exact append_ne_of_isPrefixOf? hprefix _ heq
  · -- The value is all of the text, and the child comes first.
    next hprefix =>
    rw [List.isPrefixOf?_eq_some_iff_append_eq, List.append_nil] at hprefix
    rw [List.find?_cons_of_pos]
    rw [hself, hprefix, decide_eq_true_eq]
  · next tail hne hprefix =>
    rw [List.isPrefixOf?_eq_some_iff_append_eq] at hprefix
    have hnot : ¬ spell delimiter (t.identityPath c) =
        spellBefore delimiter (t.identityPath id) ++ rest := by
      rw [hself, ← hprefix, List.append_cancel_left_eq]
      intro heq
      exact hne (List.append_right_eq_self.1 heq.symm)
    rw [List.find?_cons_of_neg (by simpa using hnot)]
    split
    · -- No delimiter follows the value, as it does in what is spelled below.
      next hdelimiter =>
      symm
      rw [List.find?_eq_none]
      intro j hj heq
      obtain ⟨more, hmore⟩ := h.exists_spell_eq delimiter hid hc hj
      rw [decide_eq_true_eq, hmore, ← hprefix, List.append_cancel_left_eq,
        List.append_cancel_left_eq] at heq
      exact append_ne_of_isPrefixOf? hdelimiter more heq
    · next next hdelimiter =>
      rw [List.isPrefixOf?_eq_some_iff_append_eq] at hdelimiter
      rw [hbelow, h.spellBefore_child delimiter hid hc, ← hprefix, ← hdelimiter]
      simp only [List.append_assoc]

theorem locateWithin_eq (delimiter : List Char) (fuel : Nat) {id : NodeId} (hid : t.Attached id)
    (rest : List Char) :
    t.locateWithin delimiter fuel id rest =
      (t.preorderWithin fuel id).find? fun j =>
        spell delimiter (t.identityPath j) =
          spellBefore delimiter (t.identityPath id) ++ rest := by
  induction fuel generalizing id rest with
  | zero => rfl
  | succ fuel ih =>
    rw [locateWithin_succ, preorderWithin_succ, List.find?_flatMap]
    apply findSome?_congr
    intro c hc
    exact h.locateAt_eq hid hc fun next => ih (hid.child hc) next

/-- What a coordinate leads to is the first node in pre-order that has it. -/
theorem locate_eq (text delimiter : String) :
    t.locate text delimiter =
      if text = "" then none
      else (t.preorder root).find? fun j => t.coordinate j delimiter = text := by
  have htext : ∀ j, spell delimiter.toList (t.identityPath j) =
      spellBefore delimiter.toList (t.identityPath root) ++ text.toList ↔
        t.coordinate j delimiter = text := by
    intro j
    rw [h.identityPath_root, ← coordinate_toList, ← String.toList_inj]
    rfl
  unfold locate
  simp only [String.isEmpty_iff, h.locateWithin_eq _ _ t.attached_root, htext]
  rfl

end Upright

theorem Planted.locate_eq {t : Tree} (h : t.Planted) (text delimiter : String) :
    t.locate text delimiter =
      if text = "" then none
      else (t.preorder root).find? fun j => t.coordinate j delimiter = text :=
  h.upright.locate_eq text delimiter

theorem Grown.locate_eq {t : Tree} (h : t.Grown) (text delimiter : String) :
    t.locate text delimiter =
      if text = "" then none
      else (t.preorder root).find? fun j => t.coordinate j delimiter = text :=
  h.upright.locate_eq text delimiter

theorem Grown.mem_preorder {t : Tree} (h : t.Grown) {j : NodeId} (hpos : root < j)
    (hj : j < t.size) : j ∈ t.preorder root :=
  (mem_preorder_iff h.acyclic).2 (h.below_root hpos hj)

/-! ## Lists of nodes that pass the check -/

theorem upright_of_isConsistent {t : Tree} (hconsistent : t.isConsistent = true)
    (hkind : ∀ id < t.size, (t.node id).kind = .root → id = root) : t.Upright := by
  obtain ⟨hlt, hroot, hparent, hlinked⟩ := isConsistent_iff.1 hconsistent
  refine ⟨hlinked, hlt, hparent, hroot, fun {id} hpos hid hid' => ?_⟩
  exact Nat.ne_of_gt hpos (hkind id hid hid')

theorem planted_of_isConsistent {t : Tree} (hconsistent : t.isConsistent = true)
    (hacyclic : t.Acyclic) (hkind : ∀ id < t.size, (t.node id).kind = .root → id = root) :
    t.Planted := by
  have h := upright_of_isConsistent hconsistent hkind
  exact ⟨h.linked, hacyclic, h.root_lt, h.parent_root, h.kind_root, h.kind_ne_root⟩

/-- Whatever the values and the delimiter, a text leads to the first node below the root, in
pre-order, that has it as its coordinate, and to nothing when no node below the root has. -/
theorem locate_is_first {t : Tree} (hconsistent : t.isConsistent = true) (hacyclic : t.Acyclic)
    (hkind : ∀ id < t.size, (t.node id).kind = .root → id = root) {text : String}
    (htext : text ≠ "") (delimiter : String) :
    t.locate text delimiter =
        (t.preorder root).find? (fun j => t.coordinate j delimiter = text) ∧
      (t.locate text delimiter = none ↔
        ∀ j, t.Below root j → t.coordinate j delimiter ≠ text) := by
  have hplanted := planted_of_isConsistent hconsistent hacyclic hkind
  have hfirst : t.locate text delimiter =
      (t.preorder root).find? fun j => t.coordinate j delimiter = text := by
    rw [hplanted.locate_eq, if_neg htext]
  refine ⟨hfirst, ?_⟩
  rw [hfirst, List.find?_eq_none]
  simp only [mem_preorder_iff hacyclic, decide_eq_true_eq, ne_eq]

/-- `a.b.c` is spelled by both of the equal siblings `c`, not by the chain of `a` and `b`, and not
by the last node, which hangs nowhere. -/
def dottedTree : Tree where
  nodes := #[
    { kind := .root, value := "ROOT", children := [1, 2] },
    { kind := .package, value := "a", children := [3], parent := some 0 },
    { kind := .package, value := "a.b", children := [4, 5], parent := some 0 },
    { kind := .package, value := "b", parent := some 1 },
    { kind := .package, value := "c", parent := some 2 },
    { kind := .package, value := "c", parent := some 2 },
    { kind := .package, value := "a.b.c" }]

theorem locate_dottedTree :
    dottedTree.isConsistent = true ∧ dottedTree.Acyclic ∧
    (∀ id < dottedTree.size, (dottedTree.node id).kind = .root → id = root) ∧ "a.b.c" ≠ "" ∧
    dottedTree.locate "a.b.c" "." = some 4 ∧
    (dottedTree.locate "a.b.c" "." =
        (dottedTree.preorder root).find? (fun j => dottedTree.coordinate j "." = "a.b.c") ∧
      (dottedTree.locate "a.b.c" "." = none ↔
        ∀ j, dottedTree.Below root j → dottedTree.coordinate j "." ≠ "a.b.c")) := by
  have hconsistent : dottedTree.isConsistent = true := by decide
  have hlt : ∀ id < dottedTree.size, ∀ c ∈ dottedTree.children id, id < c := by decide
  have hacyclic : dottedTree.Acyclic :=
    acyclic_of_lt_child fun {id c} hc => hlt id (lt_size_of_mem_children hc) c hc
  have hkind : ∀ id < dottedTree.size, (dottedTree.node id).kind = .root → id = root := by decide
  have htext : "a.b.c" ≠ "" := by decide
  exact ⟨hconsistent, hacyclic, hkind, htext, by decide +kernel,
    locate_is_first hconsistent hacyclic hkind htext "."⟩

end Tree

end SymbolTable
