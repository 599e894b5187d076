import SymbolTable.Proofs.Tree.Consistency

/-!
# Merging is a lossless union

`mergeAt_is_union` gathers what a merge does to a tree. Below its target the tree has the paths of
both sides and, path by path, the attributes of both sides; whatever was there stays what and where
it was, and nothing changes outside of the subtree of the target.

The target must not lie below itself, which no node of an application does (`Merged.acyclic`): on a
cycle each new node would be found again below itself.
-/

namespace SymbolTable

namespace Tree

open SymbolTable.Tree.Entry (attributesOf)

theorem Extends.below {t t' : Tree} (he : t.Extends t') {above id : NodeId}
    (h : t.Below above id) : t'.Below above id := by
  induction h with
  | child hc => exact .child ((he.children (lt_size_of_mem_children hc)).subset hc)
  | step _ hc ih => exact .step ih ((he.children (lt_size_of_mem_children hc)).subset hc)

/-- A graft makes its new nodes below its target. -/
theorem below_graftWithin (source : Tree) (fuel : Nat) (id : NodeId) {t : Tree} {target : NodeId}
    (h : t.Linked) (htarget : target < t.size) {i : NodeId} (hi : t.size ≤ i)
    (hi' : i < (source.graftWithin fuel t target id).size) :
    (source.graftWithin fuel t target id).Below target i := by
  refine (graftWithin_keeps source target
    (P := fun t' => ∀ i, t.size ≤ i → i < t'.size → t'.Below target i) ?_ fuel id h htarget
    (fun i hi hi' => absurd hi' (Nat.not_lt.2 hi)) (follow_nil t target)).1 i hi hi'
  intro t' path parent id c ht' htop hbelow hp _ i hi hi'
  have hext := extends_put t' (source.node c) (ht'.follow_lt htop hp)
  rcases lt_or_eq_of_lt_size_put hi' with hold | rfl
  · exact hext.below (hbelow i hi hold)
  · exact below_of_follow_concat (ht'.follow_put htop hp)

/-- A merge leaves alone what neither is its target nor lies below it, and what it makes lies below
its target. -/
theorem mergeAt_frame {t source : Tree} {target : NodeId} (hacyclic : source.Acyclic)
    (hs : source.HasUniqueSiblings) (id : NodeId) (h : t.Linked) (htarget : target < t.size) :
    (∀ i, i < t.size → i ≠ target → ¬ t.Below target i →
      (t.mergeAt target source id).node i = t.node i) ∧
    ∀ i, t.size ≤ i → i < (t.mergeAt target source id).size →
      (t.mergeAt target source id).Below target i := by
  have hshape := sameShape_uniteAt t target (source.node id).attributes
  have hlinked := h.of_sameShape hshape
  have hlt : target < (t.modify target fun node =>
      node.uniteAttributes (source.node id).attributes).size := by simpa using htarget
  rw [mergeAt_eq hs hacyclic id h htarget]
  constructor
  · intro i hi hne hout
    rw [node_graftWithin source _ id hlinked hlt (by simpa using hi) hne
      (fun hb => hout (hshape.below hb)), node_modify_ne hne]
  · intro i hi hi'
    exact below_graftWithin source _ id hlinked hlt (by simpa using hi) hi'

theorem uniqueSiblings_mergeAt {t source : Tree} {target : NodeId} (hacyclic : source.Acyclic)
    (hs : source.HasUniqueSiblings) (id : NodeId) (h : t.Rooted target) :
    (t.mergeAt target source id).HasUniqueSiblings := by
  rw [mergeAt_eq hs hacyclic id h.linked h.top_lt]
  have hrooted := h.of_sameShape (sameShape_uniteAt t target (source.node id).attributes)
  exact (rooted_graftWithin source _ id hrooted (follow_nil _ target)).1.uniqueSiblings

/-- Merging keeps siblings different, unites paths and attributes below the target, keeps every old
component with the beginnings of its lists, and neither changes nor makes anything elsewhere. -/
theorem mergeAt_is_union {t source : Tree} {target id : NodeId} (hconsistent : t.isConsistent = true)
    (hunique : t.HasUniqueSiblings) (htarget : target < t.size) (hfree : ¬ t.Below target target)
    (hacyclic : source.Acyclic) (hsource : source.HasUniqueSiblings) :
    (t.mergeAt target source id).HasUniqueSiblings ∧
    (∀ path, ((t.mergeAt target source id).follow target path).isSome ↔
      (t.follow target path).isSome ∨ (source.follow id path).isSome) ∧
    (∀ path a, a ∈ attributesOf ((t.mergeAt target source id).entryFrom target path) ↔
      a ∈ attributesOf (t.entryFrom target path) ∨ a ∈ attributesOf (source.entryFrom id path)) ∧
    t.Extends (t.mergeAt target source id) ∧
    (∀ i, i < t.size → i ≠ target → ¬ t.Below target i →
      (t.mergeAt target source id).node i = t.node i) ∧
    ∀ i, t.size ≤ i → i < (t.mergeAt target source id).size →
      (t.mergeAt target source id).Below target i := by
  have hlinked : t.Linked := (isConsistent_iff.1 hconsistent).2.2.2
  have hrooted : t.Rooted target := ⟨hlinked, hunique, htarget, hfree⟩
  have hentry := entryFrom_mergeAt hsource hacyclic id hrooted
  refine ⟨uniqueSiblings_mergeAt hacyclic hsource id hrooted, fun path => ?_, fun path a => ?_,
    (linked_mergeAt source id hlinked htarget).2, mergeAt_frame hacyclic hsource id hlinked htarget⟩
  · rw [← isSome_entryFrom, hentry, Entry.isSome_join, Bool.or_eq_true, isSome_entryFrom,
      isSome_entryFrom]
  · rw [hentry, Entry.mem_attributesOf_join]

/-- The package `p` with public classes of the given names. -/
def packageWith (names : List String) : Tree :=
  names.foldl
    (fun t name =>
      (t.put 1 { kind := .classType, value := name, attributes := [⟨.modifier, "public"⟩] }).2)
    (empty.put root { kind := .package, value := "p" }).2

theorem grown_packageWith (names : List String) : (packageWith names).Grown := by
  have hpackage : ((empty.put root { kind := .package, value := "p" }).2).Grown :=
    grown_empty.put (by decide) nofun
  apply And.left (b := 1 < (packageWith names).size)
  apply List.foldlRecOn (motive := fun t : Tree => t.Grown ∧ 1 < t.size) _ _ ⟨hpackage, by decide⟩
  rintro t ⟨ht, hlt⟩ name -
  exact ⟨ht.put hlt nofun, (extends_put t _ hlt).lt hlt⟩

/-- A package with a class `A` and the same package with `A` and `B` unite to the latter. -/
theorem mergeAt_packageWith :
    (packageWith ["A"]).isConsistent = true ∧ (packageWith ["A"]).HasUniqueSiblings ∧
    1 < (packageWith ["A"]).size ∧ ¬ (packageWith ["A"]).Below 1 1 ∧
    (packageWith ["A", "B"]).Acyclic ∧ (packageWith ["A", "B"]).HasUniqueSiblings ∧
    ((packageWith ["A"]).mergeAt 1 (packageWith ["A", "B"]) 1).HasUniqueSiblings ∧
    (((packageWith ["A"]).mergeAt 1 (packageWith ["A", "B"]) 1).follow 1
      [⟨.classType, "B", none⟩]).isSome ∧
    ((packageWith ["A"]).mergeAt 1 (packageWith ["A", "B"]) 1).node root =
      (packageWith ["A"]).node root := by
  have hA := grown_packageWith ["A"]
  have hAB := grown_packageWith ["A", "B"]
  have hconsistent : (packageWith ["A"]).isConsistent = true := by decide
  have hlt : 1 < (packageWith ["A"]).size := by decide
  have hfree := hA.acyclic 1
  have hroot : ¬ (packageWith ["A"]).Below 1 root := by
    intro hb
    cases hb with
    | child hc => exact absurd (hA.parent_child hc) (by decide)
    | step _ hc => exact absurd (hA.parent_child hc) (by rw [hA.parent_root]; exact nofun)
  have hunion := @mergeAt_is_union (packageWith ["A"]) (packageWith ["A", "B"]) 1 1 hconsistent
    hA.uniqueSiblings hlt hfree hAB.acyclic hAB.uniqueSiblings
  exact ⟨hconsistent, hA.uniqueSiblings, hlt, hfree, hAB.acyclic, hAB.uniqueSiblings, hunion.1,
    (hunion.2.1 _).2 (.inr (by decide)), hunion.2.2.2.2.1 root (by decide) (by decide) hroot⟩

end Tree

end SymbolTable
