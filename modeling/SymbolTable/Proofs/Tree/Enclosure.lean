import SymbolTable.Proofs.Tree.Consistency
import SymbolTable.Proofs.Tree.Walks

/-!
# Types around a node

The way up from a node is determined by the parents and, if it ends inside the tree, visits no node
twice. The search for the outermost type declaration then takes the last one on this way.
-/

namespace SymbolTable

namespace Tree

variable {t : Tree} {id p : NodeId} {above : List NodeId}

/-! ## The way up -/

/-- The way up from the node ends, inside the tree. -/
def Climbable (t : Tree) (id : NodeId) : Prop :=
  ∃ above, t.Ascent id above ∧ ∀ a ∈ id :: above, a < t.size

theorem climbable_of_attached (h : t.isConsistent = true) (hid : t.Attached id) : t.Climbable id := by
  obtain ⟨hlt, -, hroot, hlinked⟩ := isConsistent_iff.1 h
  obtain ⟨above, hchain⟩ := hid
  exact ⟨above, hchain.ascent hlinked hroot, List.forall_mem_cons.2
    ⟨hchain.lt_size hlinked hlt, fun a ha => (hchain.lies_below a ha).1⟩⟩

namespace Ascent

theorem unique {above' : List NodeId} (h : t.Ascent id above) (h' : t.Ascent id above') :
    above = above' := by
  induction h generalizing above' with
  | top hp =>
    cases h' with
    | top => rfl
    | step hp' => simp [hp] at hp'
  | step hp _ ih =>
    cases h' with
    | top hp' => simp [hp] at hp'
    | step hp' h' =>
      obtain rfl := Option.some.inj (hp.symm.trans hp')
      rw [ih h']

theorem of_mem (h : t.Ascent id above) {a : NodeId} (ha : a ∈ above) :
    ∃ rest, t.Ascent a rest ∧ rest.length < above.length := by
  induction h with
  | top => cases ha
  | @step id p above hp h ih =>
    rcases List.mem_cons.1 ha with rfl | ha
    · exact ⟨above, h, by simp⟩
    · obtain ⟨rest, hrest, hlength⟩ := ih ha
      exact ⟨rest, hrest, by simp; omega⟩

/-- A node that stood above itself would have two ways up of different lengths. -/
theorem not_mem (h : t.Ascent id above) : id ∉ above := by
  intro hmem
  obtain ⟨rest, hrest, hlength⟩ := h.of_mem hmem
  rw [h.unique hrest] at hlength
  exact Nat.lt_irrefl _ hlength

theorem nodup_cons (h : t.Ascent id above) : (id :: above).Nodup := by
  induction h with
  | top => exact List.nodup_singleton _
  | step hp h ih => exact List.nodup_cons.2 ⟨(step hp h).not_mem, ih⟩

end Ascent

/-- The last accepted node is above unless none is accepted there. -/
theorem getLast?_filter_cons (accept : NodeId → Bool) (id : NodeId) (rest : List NodeId) :
    ((id :: rest).filter accept).getLast? =
      (rest.filter accept).getLast?.or (if accept id then some id else none) := by
  by_cases hid : accept id = true
  · rw [List.filter_cons, if_pos hid, if_pos hid, List.getLast?_cons]
    cases (rest.filter accept).getLast? <;> rfl
  · rw [List.filter_cons, if_neg hid, if_neg hid, Option.or_none]

namespace Ascent

theorem outermostWithin_eq (h : t.Ascent id above) (accept : Component → Bool) {fuel : Nat}
    (hf : above.length < fuel) :
    t.outermostWithin accept fuel id =
      ((id :: above).filter fun a => accept (t.node a)).getLast? := by
  induction h generalizing fuel with
  | top hp =>
    obtain ⟨fuel, rfl⟩ := Nat.exists_eq_succ_of_ne_zero (Nat.ne_zero_of_lt hf)
    rw [getLast?_filter_cons, outermostWithin, hp]
    rfl
  | step hp _ ih =>
    obtain ⟨fuel, rfl⟩ := Nat.exists_eq_succ_of_ne_zero (Nat.ne_zero_of_lt hf)
    rw [getLast?_filter_cons, ← ih (Nat.lt_of_succ_lt_succ hf), outermostWithin, hp]

end Ascent

/-- The type declarations on the way up from a node, itself included, the outermost one last. -/
def enclosingTypes (t : Tree) (id : NodeId) : List NodeId :=
  (id :: t.ancestors id).filter fun a => (t.node a).kind.isTypeDeclaration

/-- The ancestors are the whole way up, which has fewer nodes than the tree. -/
theorem Climbable.ascent (h : t.Climbable id) :
    t.Ascent id (t.ancestors id) ∧ (t.ancestors id).length < t.size ∧
      ∀ a ∈ t.ancestors id, a < t.size := by
  obtain ⟨above, hascent, hlt⟩ := h
  rw [List.forall_mem_cons] at hlt
  have hlength := length_lt_size hascent.nodup_cons hlt.1 hlt.2
  rw [show t.ancestors id = above from hascent.ancestorsWithin_eq (Nat.le_of_lt hlength)]
  exact ⟨hascent, hlength, hlt.2⟩

theorem Climbable.climbsFreely (h : t.Climbable id) : t.ClimbsFreely id := by
  obtain ⟨hascent, hlength, -⟩ := h.ascent
  exact hascent.climbsFreely hlength

theorem Climbable.outermost_eq (h : t.Climbable id) :
    t.outermost id (·.kind.isTypeDeclaration) = (t.enclosingTypes id).getLast? := by
  obtain ⟨hascent, hlength, -⟩ := h.ascent
  exact hascent.outermostWithin_eq _ hlength

/-- The coordinate of a type declaration has a segment for the declaration itself. -/
theorem pathValues_ne_nil {a : NodeId} (h : a ∈ t.enclosingTypes id) : t.pathValues a ≠ [] := by
  have hkind : (t.node a).kind.isTypeDeclaration = true := (List.mem_filter.1 h).2
  have hroot : (t.node a).kind ≠ .root := fun hroot => by
    simp [hroot, ComponentKind.isTypeDeclaration] at hkind
  rw [pathValues, if_neg hroot]
  simp

end Tree

end SymbolTable
