import SymbolTable.Proofs.Tree.Consistency

/-!
# Absorbing a tree

A tree absorbs another when each path of it leads to a node with at least the attributes. What is
absorbed already is merged without any change, a merge makes its target absorb the source, and no
later growth undoes that: new children come after the old ones, so first matches stay first matches.
None of this asks the growing tree for siblings of different symbols.
-/

namespace SymbolTable

namespace Tree

/-- Each path below `id` in `source` leads from `target` to a node with at least the attributes. -/
def Absorbs (t : Tree) (target : NodeId) (source : Tree) (id : NodeId) : Prop :=
  ∀ path j, source.follow id path = some j →
    ∃ i, t.follow target path = some i ∧
      ∀ a ∈ (source.node j).attributes, a ∈ (t.node i).attributes

theorem uniteAt_eq_self {t : Tree} {id : NodeId} {added : List Attribute}
    (h : ∀ a ∈ added, a ∈ (t.node id).attributes) :
    (t.modify id fun node => node.uniteAttributes added) = t := by
  by_cases hid : id < t.size
  · apply ext_node (by simp)
    intro i _
    rw [node_uniteAt t id i added hid]
    split
    · next hi =>
      subst hi
      rw [unite_eq_left h]
    · rfl
  · exact modify_of_size_le (Nat.le_of_not_lt hid)

theorem graftWithin_eq_self {source : Tree} (hs : source.HasUniqueSiblings) {fuel : Nat} {t : Tree}
    {target id : NodeId} (habs : t.Absorbs target source id) :
    source.graftWithin fuel t target id = t := by
  induction fuel generalizing target id with
  | zero => rfl
  | succ fuel ih =>
    rw [graftWithin]
    apply List.foldlRecOn (motive := (· = t)) _ _ rfl
    rintro acc rfl c hmem
    have hc : source.childWith id (source.node c).symbol = some c :=
      hs.childWith_iff.2 ⟨hmem, rfl⟩
    have hfollow : ∀ rest, source.follow id ((source.node c).symbol :: rest) =
        source.follow c rest := by
      intro rest
      rw [follow_cons, hc]
      rfl
    obtain ⟨e, he, hattr⟩ := habs [(source.node c).symbol] c (by rw [hfollow]; rfl)
    have hfind : acc.findChild target (source.node c) = some e := by
      rw [findChild_eq]
      rw [follow_cons] at he
      obtain ⟨d, hd, hde⟩ := Option.bind_eq_some_iff.1 he
      rw [hd]
      exact hde
    have hput : acc.put target (source.node c) = (e, acc) := by
      rw [put_of_findChild hfind, uniteAt_eq_self hattr]
    have hbelow : acc.Absorbs e source c := by
      intro path j hj
      obtain ⟨i, hi, hsub⟩ := habs ((source.node c).symbol :: path) j (by rwa [hfollow])
      refine ⟨i, ?_, hsub⟩
      rwa [follow_cons, ← findChild_eq, hfind] at hi
    rw [hput]
    exact ih hbelow

/-! ## What a merge makes absorbed -/

theorem Absorbs.extends {t t' source : Tree} {target id : NodeId} (habs : t.Absorbs target source id)
    (h : t.Linked) (htarget : target < t.size) (he : t.Extends t') :
    t'.Absorbs target source id := by
  intro path j hj
  obtain ⟨i, hi, hattr⟩ := habs path j hj
  exact ⟨i, h.follow_extends he htarget hi,
    fun a ha => (he.attributes (h.follow_lt htarget hi)).subset (hattr a ha)⟩

/-- The first child of the symbol of `c` absorbs `c`. -/
def AbsorbsChild (t : Tree) (target : NodeId) (source : Tree) (c : NodeId) : Prop :=
  ∃ e, t.childWith target (source.node c).symbol = some e ∧ t.Absorbs e source c

theorem AbsorbsChild.extends {t t' source : Tree} {target c : NodeId}
    (habs : t.AbsorbsChild target source c) (h : t.Linked) (htarget : target < t.size)
    (he : t.Extends t') : t'.AbsorbsChild target source c := by
  obtain ⟨e, hchild, habs⟩ := habs
  exact ⟨e, h.childWith_extends he htarget hchild,
    habs.extends h (h.child_lt (mem_children_of_childWith hchild)) he⟩

theorem absorbs_of_children {t source : Tree} {target id : NodeId}
    (hattr : ∀ a ∈ (source.node id).attributes, a ∈ (t.node target).attributes)
    (hchildren : ∀ c ∈ source.children id, t.AbsorbsChild target source c) :
    t.Absorbs target source id := by
  intro path j hj
  cases path with
  | nil =>
    obtain rfl := Option.some.inj hj
    exact ⟨target, rfl, hattr⟩
  | cons s rest =>
    obtain ⟨c, hc, hj⟩ := Option.bind_eq_some_iff.1 hj
    obtain ⟨e, he, habs⟩ := hchildren c (mem_children_of_childWith hc)
    obtain ⟨i, hi, hsub⟩ := habs rest j hj
    refine ⟨i, ?_, hsub⟩
    rw [follow_cons, ← symbol_of_childWith hc, he]
    exact hi

/-- What each step makes true of its own element and keeps of the others holds of all in the end. -/
theorem forall_mem_of_foldl {α β : Type} {f : β → α → β} {I : β → Prop} {Q : α → β → Prop}
    {as : List α} (hinv : ∀ a ∈ as, ∀ b, I b → I (f b a)) (hself : ∀ a ∈ as, ∀ b, I b → Q a (f b a))
    (hkeep : ∀ a ∈ as, ∀ a' b, I b → Q a' b → Q a' (f b a)) {b : β} (hb : I b) :
    ∀ a ∈ as, Q a (as.foldl f b) := by
  induction as using List.reverseRecOn with
  | nil => simp
  | append_singleton as last ih =>
    have hlast : last ∈ as ++ [last] := List.mem_append_right as List.mem_cons_self
    have hmem : ∀ a ∈ as, a ∈ as ++ [last] := fun a ha => List.mem_append_left _ ha
    have hI : I (as.foldl f b) :=
      List.foldlRecOn (motive := I) as f hb fun b hb a ha => hinv a (hmem a ha) b hb
    intro a ha
    rw [List.foldl_append, List.foldl_cons, List.foldl_nil]
    rcases List.mem_append.1 ha with ha | ha
    · refine hkeep last hlast a _ hI (ih ?_ ?_ ?_ a ha)
      · exact fun a ha => hinv a (hmem a ha)
      · exact fun a ha => hself a (hmem a ha)
      · exact fun a ha => hkeep a (hmem a ha)
    · rw [List.mem_singleton.1 ha]
      exact hself last hlast _ hI

theorem absorbs_graftWithin {source : Tree} {fuel : Nat} {t : Tree} {target id : NodeId}
    (hf : source.Shallow fuel id) (h : t.Linked) (htarget : target < t.size)
    (hattr : ∀ a ∈ (source.node id).attributes, a ∈ (t.node target).attributes) :
    (source.graftWithin fuel t target id).Absorbs target source id := by
  induction fuel generalizing t target id with
  | zero =>
    have hnil : source.children id = [] := hf
    exact absorbs_of_children hattr (by simp [hnil])
  | succ fuel ih =>
    have hext := (linked_graftWithin source (fuel + 1) id h htarget).2
    refine absorbs_of_children
      (fun a ha => (hext.attributes htarget).subset (hattr a ha)) ?_
    rw [graftWithin]
    -- One round for the child `c`, in a tree that has grown so far.
    have hround : ∀ c acc, Linked acc ∧ target < acc.size →
        (source.graftWithin fuel (acc.put target (source.node c)).2
          (acc.put target (source.node c)).1 c).Linked ∧
        acc.Extends (source.graftWithin fuel (acc.put target (source.node c)).2
          (acc.put target (source.node c)).1 c) := by
      rintro c acc ⟨hacc, hlt⟩
      obtain ⟨hlinked, hmore⟩ := linked_graftWithin source fuel c (hacc.put hlt)
        (hacc.put_fst_lt target (source.node c))
      exact ⟨hlinked, (extends_put acc _ hlt).trans hmore⟩
    refine forall_mem_of_foldl (I := fun acc : Tree => acc.Linked ∧ target < acc.size)
      (Q := fun c (acc : Tree) => acc.AbsorbsChild target source c) ?_ ?_ ?_ ⟨h, htarget⟩
    · exact fun c _ acc hacc => ⟨(hround c acc hacc).1, (hround c acc hacc).2.lt hacc.2⟩
    · rintro c hc acc ⟨hacc, hlt⟩
      have hput := hacc.put hlt (c := source.node c)
      have hnew := hacc.put_fst_lt target (source.node c)
      refine ⟨(acc.put target (source.node c)).1, ?_, ?_⟩
      · exact hput.childWith_extends (linked_graftWithin source fuel c hput hnew).2
          ((extends_put acc _ hlt).lt hlt) (hacc.childWith_put hlt)
      · exact ih (hf c hc) hput hnew fun a ha => hacc.mem_attributes_put hlt ha
    · rintro c - d acc hacc habs
      exact habs.extends hacc.1 hacc.2 (hround c acc hacc).2

section MergeAt

variable {source : Tree} (hacyclic : source.Acyclic) (hs : source.HasUniqueSiblings) {t : Tree}
  {target : NodeId} (id : NodeId) (h : t.Linked) (htarget : target < t.size)
include hacyclic hs h htarget

theorem absorbs_mergeAt : (t.mergeAt target source id).Absorbs target source id := by
  have hshape := sameShape_uniteAt t target (source.node id).attributes
  rw [mergeAt_eq hs hacyclic id h htarget]
  apply absorbs_graftWithin (hacyclic.shallow id) (h.of_sameShape hshape) (by simpa using htarget)
  intro a ha
  rw [node_uniteAt t target target _ htarget, if_pos rfl, mem_unite]
  exact .inr ha

theorem mergeAt_eq_self (habs : t.Absorbs target source id) : t.mergeAt target source id = t := by
  obtain ⟨i, hi, hattr⟩ := habs [] id (follow_nil source id)
  obtain rfl : i = target := (Option.some.inj hi).symm
  rw [mergeAt_eq hs hacyclic id h htarget, uniteAt_eq_self hattr]
  exact graftWithin_eq_self hs habs

end MergeAt

/-- Merging a tree that is absorbed already changes nothing. -/
theorem merge_eq_self {t source : Tree} (h : t.Grown) (hs : source.Grown)
    (habs : t.Absorbs root source root) : t.merge source = t :=
  mergeAt_eq_self hs.acyclic hs.uniqueSiblings root h.linked h.root_lt habs

end Tree

end SymbolTable
