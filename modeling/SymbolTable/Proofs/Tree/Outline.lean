import SymbolTable.Proofs.Tree.Entry
import SymbolTable.Tree.Outline
import Mathlib.Data.String.Basic

/-!
# Canonical outlines see content only

Two grown trees have the same content when they have the same paths and, path by path, the same
attributes in some order. The canonical outline sorts what the order of growing decides, so it is
one text for all of them.
-/

namespace SymbolTable

namespace Attribute

theorem precedes_total (a b : Attribute) : precedes a b || precedes b a := by
  simp only [precedes, Bool.or_eq_true, decide_eq_true_eq, Bool.and_eq_true, beq_iff_eq]
  rcases Nat.lt_trichotomy a.kind.rank b.kind.rank with h | h | h
  · exact .inl (.inl h)
  · rcases le_total a.value b.value with hv | hv
    · exact .inl (.inr ⟨h, hv⟩)
    · exact .inr (.inr ⟨h.symm, hv⟩)
  · exact .inr (.inl h)

theorem precedes_trans (a b c : Attribute) (hab : precedes a b) (hbc : precedes b c) :
    precedes a c := by
  simp only [precedes, Bool.or_eq_true, decide_eq_true_eq, Bool.and_eq_true, beq_iff_eq] at *
  rcases hab with hab | ⟨hab, hv⟩ <;> rcases hbc with hbc | ⟨hbc, hv'⟩
  · exact .inl (hab.trans hbc)
  · exact .inl (hbc ▸ hab)
  · exact .inl (hab ▸ hbc)
  · exact .inr ⟨hab.trans hbc, le_trans hv hv'⟩

theorem precedes_antisymm {a b : Attribute} (hab : precedes a b) (hba : precedes b a) :
    a = b := by
  obtain ⟨kind, value⟩ := a
  obtain ⟨kind', value'⟩ := b
  simp only [precedes, Bool.or_eq_true, decide_eq_true_eq, Bool.and_eq_true, beq_iff_eq] at hab hba
  have hrank : kind.rank = kind'.rank := by omega
  have hkind := AttributeKind.rank_injective hrank
  subst hkind
  have hle : value ≤ value' := by simpa using hab
  have hge : value' ≤ value := by simpa using hba
  rw [le_antisymm hle hge]

end Attribute

/-- A sort by a linear order forgets the order of its input. -/
theorem mergeSort_congr {α : Type} {le : α → α → Bool}
    (htotal : ∀ a b, le a b || le b a) (htrans : ∀ a b c, le a b → le b c → le a c)
    (hantisymm : ∀ {a b}, le a b → le b a → a = b) {l l' : List α} (h : l.Perm l') :
    l.mergeSort le = l'.mergeSort le := by
  have hsorted := List.pairwise_mergeSort htrans htotal l
  have hsorted' := List.pairwise_mergeSort htrans htotal l'
  have hperm : (l.mergeSort le).Perm (l'.mergeSort le) :=
    calc (l.mergeSort le).Perm l := List.mergeSort_perm l le
      List.Perm _ l' := h
      List.Perm _ (l'.mergeSort le) := (List.mergeSort_perm l' le).symm
  exact List.Perm.eq_of_pairwise (fun a b _ _ hab hba => hantisymm hab hba) hsorted hsorted' hperm

theorem sort_texts_congr {l l' : List String} (h : l.Perm l') :
    l.mergeSort (fun a b => a ≤ b) = l'.mergeSort fun a b => a ≤ b := by
  apply mergeSort_congr _ _ _ h
  · intro a b
    simpa using le_total a b
  · intro a b c hab hbc
    simpa using le_trans (by simpa using hab) (by simpa using hbc)
  · intro a b hab hba
    exact le_antisymm (by simpa using hab) (by simpa using hba)

namespace Component

/-- The line of a component in a canonical outline depends on its symbol and its attribute set. -/
theorem canonicalLine_congr {c c' : Component} (hsymbol : c'.symbol = c.symbol)
    (hattributes : c'.attributes.Perm c.attributes) :
    c'.outlineLine c'.sortedAttributes = c.outlineLine c.sortedAttributes := by
  have hsorted : c'.sortedAttributes = c.sortedAttributes :=
    mergeSort_congr Attribute.precedes_total Attribute.precedes_trans
      Attribute.precedes_antisymm hattributes
  have hdisplay : c'.display = c.display := by
    have hkind := congrArg Symbol.kind hsymbol
    have hvalue := congrArg Symbol.value hsymbol
    have hsignature := congrArg Symbol.signature hsymbol
    simp only [symbol] at hkind hvalue hsignature
    rw [display, display, hkind, hvalue, hsignature]
  rw [hsorted, outlineLine, outlineLine, hdisplay]

end Component

namespace Tree

structure SameContent (t t' : Tree) : Prop where
  symbol_root : (t'.node root).symbol = (t.node root).symbol
  isSome : ∀ x, (t'.entry x).isSome = (t.entry x).isSome
  attributes : ∀ x, (Entry.attributesOf (t'.entry x)).Perm (Entry.attributesOf (t.entry x))

namespace Grown

variable {t : Tree} (h : t.Grown)
include h

/-- Whatever is read off the children of a node can be read off its members. -/
theorem map_children {α : Type} [Inhabited α] (id : NodeId) (f : NodeId → α) :
    (t.children id).map f =
      (t.members id).map fun s => ((t.childWith id s).map f).getD default := by
  rw [members, List.map_map]
  apply List.map_congr_left
  intro c hc
  have hchild : t.childWith id (t.node c).symbol = some c := h.childWith_iff.2 ⟨hc, rfl⟩
  rw [Function.comp_apply, hchild]
  rfl

end Grown

namespace SameContent

variable {t t' : Tree} {id id' : NodeId} {path : List Symbol}

theorem nodeAttributes (hc : t.SameContent t') (hid : t.follow root path = some id)
    (hid' : t'.follow root path = some id') :
    (t'.node id').attributes.Perm (t.node id).attributes := by
  have := hc.attributes path
  rwa [entry_of_follow hid, entry_of_follow hid'] at this

section Outline

variable (hc : t.SameContent t') (h : t.Grown) (h' : t'.Grown)
include hc h h'

theorem members_perm (hid : t.follow root path = some id)
    (hid' : t'.follow root path = some id') : (t'.members id').Perm (t.members id) := by
  rw [List.perm_ext_iff_of_nodup (h'.nodup_members id') (h.nodup_members id)]
  intro s
  rw [mem_members hid, mem_members hid', hc.isSome]

/-- The induction is on the height of the subtree, which both fuels bound. -/
theorem canonicalWithin {fuel fuel' : Nat} (depth : Nat) (hf : t.size ≤ id + fuel)
    (hf' : t'.size ≤ id' + fuel') (hid : t.follow root path = some id)
    (hid' : t'.follow root path = some id') :
    t'.canonicalWithin fuel' depth id' = t.canonicalWithin fuel depth id := by
  induction fuel generalizing fuel' depth id id' path with
  | zero => exact absurd (h.follow_lt h.root_lt hid) (Nat.not_lt_of_le hf)
  | succ fuel ih =>
    cases fuel' with
    | zero => exact absurd (h'.follow_lt h'.root_lt hid') (Nat.not_lt_of_le hf')
    | succ fuel' =>
      have hperm := hc.members_perm h h' hid hid'
      have hblocks : ((t'.children id').map (t'.canonicalWithin fuel' (depth + 1))).Perm
          ((t.children id).map (t.canonicalWithin fuel (depth + 1))) := by
        rw [h.map_children, h'.map_children]
        refine (hperm.map _).trans (List.Perm.of_eq ?_)
        apply List.map_congr_left
        intro s hs
        obtain ⟨c, hcs, rfl⟩ := List.mem_map.1 hs
        obtain ⟨c', hcs', hsym⟩ := List.mem_map.1 (hperm.mem_iff.2 hs)
        have hchild := h.childWith_iff.2 ⟨hcs, rfl⟩
        have hchild' := h'.childWith_iff.2 ⟨hcs', hsym⟩
        rw [hchild, hchild']
        exact ih (depth + 1) (fuel_child hf (h.lt_child hcs)) (fuel_child hf' (h'.lt_child hcs'))
          (follow_of_childWith hid hchild) (follow_of_childWith hid' hchild')
      have hsymbol := symbol_eq_of_follow hc.symbol_root hid hid'
      have hline := Component.canonicalLine_congr hsymbol (hc.nodeAttributes hid hid')
      rw [Tree.canonicalWithin, Tree.canonicalWithin, hline, sort_texts_congr hblocks]

theorem canonicalOutline : t'.canonicalOutline = t.canonicalOutline :=
  hc.canonicalWithin h h' 0 (Nat.le_trans (Nat.le_succ _) (Nat.le_add_left _ _))
    (Nat.le_trans (Nat.le_succ _) (Nat.le_add_left _ _)) (follow_nil t root) (follow_nil t' root)

end Outline

end SameContent

end Tree

end SymbolTable
