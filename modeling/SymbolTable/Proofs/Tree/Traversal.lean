import SymbolTable.Proofs.Tree.Attached

/-!
# The stack and the recursion list the same nodes

`descendants` works off a stack of nodes that are still to be visited. As long as the chains below a
node are finite, the stack empties after as many steps as `visits` counts, and what was listed is
the recursive pre-order. A node of a linked tree is listed twice only if some list of children on
the way repeats one.
-/

namespace SymbolTable

namespace Tree

variable {t : Tree}

theorem drain_nil (t : Tree) (fuel : Nat) : t.drain fuel [] = [] := by
  cases fuel <;> rfl

theorem drain_siblings {n : Nat}
    (hdrain : ∀ {c : NodeId} (k : Nat) (stack : List NodeId), t.Shallow n c →
      t.drain (t.visitsWithin n c + k) (t.children c ++ stack) =
        t.preorderWithin n c ++ t.drain k stack)
    (siblings : List NodeId) (hf : ∀ c ∈ siblings, t.Shallow n c) (k : Nat)
    (stack : List NodeId) :
    t.drain (siblings.foldr (fun c steps => 1 + t.visitsWithin n c + steps) 0 + k)
        (siblings ++ stack) =
      (siblings.flatMap fun c => c :: t.preorderWithin n c) ++ t.drain k stack := by
  induction siblings with
  | nil => simp
  | cons c siblings ih =>
    have hsteps : (c :: siblings).foldr (fun c steps => 1 + t.visitsWithin n c + steps) 0 + k =
        t.visitsWithin n c +
          (siblings.foldr (fun c steps => 1 + t.visitsWithin n c + steps) 0 + k) + 1 := by
      rw [List.foldr_cons]
      omega
    rw [hsteps, List.cons_append, drain, hdrain _ _ (hf c List.mem_cons_self),
      ih fun d hd => hf d (List.mem_cons_of_mem c hd)]
    simp only [List.flatMap_cons, List.cons_append, List.append_assoc]

/-- The stack holds the siblings that are still to come, those of the deepest level on top. -/
theorem drain_visitsWithin {n : Nat} {id : NodeId} (k : Nat) (stack : List NodeId)
    (hf : t.Shallow n id) :
    t.drain (t.visitsWithin n id + k) (t.children id ++ stack) =
      t.preorderWithin n id ++ t.drain k stack := by
  induction n generalizing id k stack with
  | zero =>
    have hnil : t.children id = [] := hf
    simp [visitsWithin, preorderWithin, hnil]
  | succ n ih => exact drain_siblings (fun k stack h => ih k stack h) (t.children id) hf k stack

theorem drain_visits {id : NodeId} (hf : t.Shallow t.size id) (k : Nat) :
    t.drain (t.visits id + k) (t.children id) = t.preorder id := by
  have h := drain_visitsWithin k [] hf
  rwa [List.append_nil, drain_nil, List.append_nil] at h

theorem descendants_eq_preorder {id : NodeId} (hf : t.Shallow t.size id) :
    t.descendants id = t.preorder id := drain_visits hf 0

/-! ## Nodes listed once -/

/-- Nodes below different children of one node are different: the chain of a node names the child
that leads to it. -/
theorem Chain.child_eq {id c c' j : NodeId} {above : List NodeId} (hlinked : t.Linked)
    (hroot : t.parent Tree.root = none) (hchain : t.Chain id above) (hc : c ∈ t.children id)
    (hc' : c' ∈ t.children id) (hj : j = c ∨ t.Below c j) (hj' : j = c' ∨ t.Below c' j) :
    c = c' := by
  have hthrough : ∀ {d}, d ∈ t.children id → j = d ∨ t.Below d j →
      ∃ between, t.Chain j between ∧ ∃ front, j :: between = front ++ d :: id :: above := by
    intro d hd hjd
    have hdchain : t.Chain d (id :: above) := .child hchain hd
    rcases hjd with rfl | hbelow
    · exact ⟨_, hdchain, [], rfl⟩
    · obtain ⟨between, hjchain⟩ := hdchain.of_below hbelow
      exact ⟨_, hjchain, j :: between, rfl⟩
  obtain ⟨between, hchain₁, front, hfront⟩ := hthrough hc hj
  obtain ⟨between', hchain₂, front', hfront'⟩ := hthrough hc' hj'
  obtain rfl := Chain.unique hlinked hroot hchain₁ hchain₂
  have htails := List.append_inj_right' (hfront.symm.trans hfront') rfl
  exact (List.cons.inj htails).1

theorem nodup_preorderWithin_iff {n : Nat} {id : NodeId} (hlinked : t.Linked)
    (hroot : t.parent root = none) (hid : t.Attached id) (hf : t.Shallow n id) :
    (t.preorderWithin n id).Nodup ↔ ∀ j, j = id ∨ t.Below id j → (t.children j).Nodup := by
  induction n generalizing id with
  | zero =>
    have hnil : t.children id = [] := hf
    simp [preorderWithin, hnil, not_below_of_leaf hnil]
  | succ n ih =>
    obtain ⟨above, hchain⟩ := hid
    have hlisted : ∀ {c j}, c ∈ t.children id → (j ∈ c :: t.preorderWithin n c ↔
        j = c ∨ t.Below c j) := fun hc => by
      rw [List.mem_cons, mem_preorderWithin_iff (hf _ hc)]
    have hself : ∀ c ∈ t.children id, c ∉ t.preorderWithin n c := fun c hc hmem =>
      Chain.not_below_self hlinked hroot (.child hchain hc)
        ((mem_preorderWithin_iff (hf c hc)).1 hmem)
    have hbelow : ∀ c ∈ t.children id, (t.preorderWithin n c).Nodup ↔
        ∀ j, j = c ∨ t.Below c j → (t.children j).Nodup :=
      fun c hc => ih ⟨_, .child hchain hc⟩ (hf c hc)
    rw [preorderWithin_succ, List.nodup_flatMap]
    constructor
    · rintro ⟨heach, hapart⟩ j (rfl | hj)
      · refine hapart.imp fun {c c'} hdisjoint heq => ?_
        subst heq
        exact hdisjoint List.mem_cons_self List.mem_cons_self
      · obtain ⟨c, hc, hjc⟩ := below_iff.1 hj
        exact (hbelow c hc).1 (List.nodup_cons.1 (heach c hc)).2 j hjc
    · intro hnodup
      refine ⟨fun c hc => List.nodup_cons.2 ⟨hself c hc, (hbelow c hc).2 fun j hj =>
        hnodup j (.inr (below_iff.2 ⟨c, hc, hj⟩))⟩, ?_⟩
      refine List.Pairwise.imp_of_mem (fun {c c'} hc hc' hne => ?_) (hnodup id (.inl rfl))
      intro j hj hj'
      exact hne (hchain.child_eq hlinked hroot hc hc' ((hlisted hc).1 hj) ((hlisted hc').1 hj'))

end Tree

end SymbolTable
