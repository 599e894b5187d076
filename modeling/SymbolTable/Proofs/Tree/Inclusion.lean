import SymbolTable.Proofs.Tree.Absorption

/-!
# Trees that include others

A tree includes another when it has all of its paths and, path by path, all of its attributes.
Merging includes both sides, and merging a tree that is included already changes nothing.
-/

namespace SymbolTable

namespace Tree

open SymbolTable.Tree.Entry (attributesOf membersOf)

def Includes (t source : Tree) : Prop :=
  ∀ x, (source.entry x).isSome →
    (t.entry x).isSome ∧ ∀ a ∈ attributesOf (source.entry x), a ∈ attributesOf (t.entry x)

/-- Merges trees one after the other. -/
def mergeAll (t : Tree) (sources : List Tree) : Tree := sources.foldl Tree.merge t

theorem attributesOf_of_follow {t : Tree} {x : List Symbol} {id : NodeId}
    (h : t.follow root x = some id) : attributesOf (t.entry x) = (t.node id).attributes := by
  rw [entry_of_follow h]
  rfl

theorem Grown.nodup_membersOf {t : Tree} (h : t.Grown) (x : List Symbol) :
    (membersOf (t.entry x)).Nodup := by
  cases hx : t.follow root x with
  | none =>
    rw [entry_of_follow_eq_none hx]
    exact List.nodup_nil
  | some id =>
    rw [entry_of_follow hx]
    exact h.nodup_members id

theorem isSome_of_mem_attributesOf {t : Tree} {x : List Symbol} {a : Attribute}
    (h : a ∈ attributesOf (t.entry x)) : (t.entry x).isSome := by
  cases he : t.entry x with
  | none =>
    rw [he] at h
    exact absurd h List.not_mem_nil
  | some e => rfl

section Merge

variable {t source : Tree} (h : t.Grown) (hs : source.Grown)
include h hs

/-- A merged node lists its own attributes and then those of the source at its path. -/
theorem attributes_merge {x : List Symbol} {id : NodeId} (hid : t.follow root x = some id) :
    ((t.merge source).node id).attributes =
      unite (t.node id).attributes (attributesOf (source.entry x)) := by
  have hid' := (extends_merge h hs).follow h h.root_lt hid
  rw [← attributesOf_of_follow hid', entry_merge h hs, Entry.attributesOf_join,
    if_pos (isSome_entry_iff.2 ⟨id, hid⟩), attributesOf_of_follow hid]

theorem merge_of_includes (hpart : t.Includes source) : t.merge source = t := by
  apply merge_eq_self h hs
  intro path j hj
  obtain ⟨hsome, hattributes⟩ := hpart path (isSome_entry_iff.2 ⟨j, hj⟩)
  obtain ⟨i, hi⟩ := isSome_entry_iff.1 hsome
  rw [attributesOf_of_follow hj, attributesOf_of_follow hi] at hattributes
  exact ⟨i, hi, hattributes⟩

end Merge

/-! ## Growing without new paths -/

/-- A larger tree with the same paths has the same shape. -/
theorem Extends.sameShape {t t' : Tree} (he : t.Extends t') (h : t.Grown) (h' : t'.Grown)
    (hpaths : ∀ x, (t'.entry x).isSome → (t.entry x).isSome) : t.SameShape t' := by
  have hold : ∀ id, id < t'.size → id < t.size := by
    intro id hid
    have hself := h'.follow_identityPath hid
    obtain ⟨j, hj⟩ := isSome_entry_iff.1 (hpaths _ (isSome_entry_iff.2 ⟨id, hself⟩))
    have hj' := he.follow h h.root_lt hj
    exact Option.some.inj (hj'.symm.trans hself) ▸ h.follow_lt h.root_lt hj
  have hsize : t'.size = t.size := by
    refine Nat.le_antisymm (Nat.le_of_not_lt fun hlt => ?_) he.size_le
    exact Nat.lt_irrefl _ (hold t.size hlt)
  have hnode : ∀ id, t.size ≤ id → t'.node id = t.node id := by
    intro id hid
    rw [node_of_size_le hid, node_of_size_le (hsize ▸ hid)]
  refine ⟨hsize, fun id => ?_, fun id => ?_, fun id => ?_⟩ <;>
    rcases Nat.lt_or_ge id t.size with hid | hid
  · exact he.symbol hid
  · rw [hnode id hid]
  · exact he.parent hid
  · rw [Tree.parent, Tree.parent, hnode id hid]
  · -- A child beyond the old list would have been attached elsewhere before.
    have hsub : t'.children id ⊆ t.children id := by
      intro c hc
      have hlt := hold c (h'.child_lt hc)
      obtain ⟨p, hp⟩ := h.attached (Nat.lt_of_le_of_lt (Nat.zero_le id) (h'.lt_child hc)) hlt
      have hparent : some id = some p :=
        calc some id = t'.parent c := (h'.parent_child hc).symm
          _ = t.parent c := he.parent hlt
          _ = some p := h.parent_child hp
      exact Option.some.inj hparent ▸ hp
    have hlength : (t'.children id).length ≤ (t.children id).length :=
      (h'.children_nodup id).length_le_of_subset hsub
    exact ((he.children hid).eq_of_length_le hlength).symm
  · rw [Tree.children, Tree.children, hnode id hid]

/-! ## Merging a list -/

section MergeAll

variable {t : Tree} (h : t.Grown) {sources : List Tree} (hs : ∀ s ∈ sources, s.Grown)
include h hs

theorem grown_mergeAll : (t.mergeAll sources).Grown := by
  induction sources generalizing t with
  | nil => exact h
  | cons s sources ih =>
    exact ih (grown_merge h (hs s List.mem_cons_self)) fun s' hs' => hs s' (List.mem_cons_of_mem s hs')

theorem extends_mergeAll : t.Extends (t.mergeAll sources) := by
  induction sources generalizing t with
  | nil => exact Extends.refl t
  | cons s sources ih =>
    have hself := hs s List.mem_cons_self
    exact (extends_merge h hself).trans
      (ih (grown_merge h hself) fun s' hs' => hs s' (List.mem_cons_of_mem s hs'))

theorem entry_mergeAll (x : List Symbol) :
    (t.mergeAll sources).entry x =
      sources.foldl (fun e s => Entry.join e (s.entry x)) (t.entry x) := by
  induction sources generalizing t with
  | nil => rfl
  | cons s sources ih =>
    have hself := hs s List.mem_cons_self
    rw [List.foldl_cons, ← entry_merge h hself]
    exact ih (grown_merge h hself) fun s' hs' => hs s' (List.mem_cons_of_mem s hs')

theorem isSome_entry_mergeAll {x : List Symbol} :
    ((t.mergeAll sources).entry x).isSome ↔
      (t.entry x).isSome ∨ ∃ s ∈ sources, (s.entry x).isSome := by
  rw [entry_mergeAll h hs]
  generalize t.entry x = e
  clear h hs
  induction sources generalizing e with
  | nil => simp
  | cons s sources ih =>
    rw [List.foldl_cons, ih, Entry.isSome_join]
    simp [or_assoc]

theorem mem_attributesOf_mergeAll {x : List Symbol} {a : Attribute} :
    a ∈ attributesOf ((t.mergeAll sources).entry x) ↔
      a ∈ attributesOf (t.entry x) ∨ ∃ s ∈ sources, a ∈ attributesOf (s.entry x) := by
  rw [entry_mergeAll h hs]
  generalize t.entry x = e
  clear h hs
  induction sources generalizing e with
  | nil => simp
  | cons s sources ih =>
    rw [List.foldl_cons, ih, Entry.mem_attributesOf_join]
    simp [or_assoc]

/-- Merging appends to the attributes of what is there. -/
theorem attributesOf_mergeAll {x : List Symbol} (hx : (t.entry x).isSome) :
    attributesOf ((t.mergeAll sources).entry x) =
      unite (attributesOf (t.entry x)) (sources.flatMap fun s => attributesOf (s.entry x)) := by
  rw [entry_mergeAll h hs]
  generalize t.entry x = e at hx ⊢
  clear hs
  induction sources generalizing e with
  | nil => rfl
  | cons s sources ih =>
    have hsome : (Entry.join e (s.entry x)).isSome := by rw [Entry.isSome_join, hx, Bool.true_or]
    rw [List.foldl_cons, ih _ hsome, Entry.attributesOf_join, if_pos hx, List.flatMap_cons,
      unite_append]

theorem includes_mergeAll {s : Tree} (hmem : s ∈ sources) : (t.mergeAll sources).Includes s := by
  intro x hx
  refine ⟨(isSome_entry_mergeAll h hs).2 (.inr ⟨s, hmem, hx⟩), fun a ha => ?_⟩
  exact (mem_attributesOf_mergeAll h hs).2 (.inr ⟨s, hmem, ha⟩)

/-- Merging trees that are all included changes nothing. -/
theorem mergeAll_of_includes (hincludes : ∀ s ∈ sources, t.Includes s) :
    t.mergeAll sources = t := by
  induction sources with
  | nil => rfl
  | cons s sources ih =>
    have hself := merge_of_includes h (hs s List.mem_cons_self) (hincludes s List.mem_cons_self)
    rw [mergeAll, List.foldl_cons, hself]
    exact ih (fun s' hs' => hs s' (List.mem_cons_of_mem s hs'))
      fun s' hs' => hincludes s' (List.mem_cons_of_mem s hs')

theorem symbol_root_mergeAll :
    ((t.mergeAll sources).node root).symbol = (t.node root).symbol :=
  (extends_mergeAll h hs).symbol h.root_lt

/-- The order of the sources has no say in which paths there are. -/
theorem isSome_entry_mergeAll_of_perm {sources' : List Tree} (hperm : sources'.Perm sources)
    (x : List Symbol) :
    ((t.mergeAll sources').entry x).isSome = ((t.mergeAll sources).entry x).isSome := by
  have hs' : ∀ s ∈ sources', s.Grown := fun s hmem => hs s (hperm.mem_iff.1 hmem)
  rw [Bool.eq_iff_iff, isSome_entry_mergeAll h hs, isSome_entry_mergeAll h hs']
  simp only [hperm.mem_iff]

theorem mem_attributesOf_mergeAll_of_perm {sources' : List Tree} (hperm : sources'.Perm sources)
    {x : List Symbol} {a : Attribute} :
    a ∈ attributesOf ((t.mergeAll sources').entry x) ↔
      a ∈ attributesOf ((t.mergeAll sources).entry x) := by
  have hs' : ∀ s ∈ sources', s.Grown := fun s hmem => hs s (hperm.mem_iff.1 hmem)
  rw [mem_attributesOf_mergeAll h hs, mem_attributesOf_mergeAll h hs']
  simp only [hperm.mem_iff]

theorem nodup_attributesOf_mergeAll {x : List Symbol} (ht : (attributesOf (t.entry x)).Nodup)
    (hsources : ∀ s ∈ sources, (t.entry x).isSome ∨ (attributesOf (s.entry x)).Nodup) :
    (attributesOf ((t.mergeAll sources).entry x)).Nodup := by
  rw [entry_mergeAll h hs]
  generalize t.entry x = e at *
  clear h hs
  induction sources generalizing e with
  | nil => exact ht
  | cons s sources ih =>
    rw [List.foldl_cons]
    apply ih
    · exact Entry.nodup_attributesOf_join ht (hsources s List.mem_cons_self)
    · intro s' hs'
      rcases hsources s' (List.mem_cons_of_mem s hs') with hsome | hnodup
      · exact .inl (by rw [Entry.isSome_join, hsome, Bool.true_or])
      · exact .inr hnodup

/-- Chosen members of a merged node, source by source. -/
theorem filter_membersOf_mergeAll (x : List Symbol) (candidate : Symbol → Bool) :
    (membersOf ((t.mergeAll sources).entry x)).filter candidate =
      sources.foldl (fun known s => unite known ((membersOf (s.entry x)).filter candidate))
        ((membersOf (t.entry x)).filter candidate) := by
  rw [entry_mergeAll h hs]
  generalize t.entry x = e
  clear h
  induction sources generalizing e with
  | nil => rfl
  | cons s sources ih =>
    have hself := (hs s List.mem_cons_self).nodup_membersOf x
    rw [List.foldl_cons, List.foldl_cons, ih fun s' hs' => hs s' (List.mem_cons_of_mem s hs'),
      Entry.membersOf_join hself, filter_unite]

end MergeAll

theorem mergeAll_append (t : Tree) (sources more : List Tree) :
    t.mergeAll (sources ++ more) = (t.mergeAll sources).mergeAll more := List.foldl_append

/-! ## What one source alone contributes -/

/-- A fold over steps that repeat or do nothing is one step. -/
theorem foldl_of_sole {α β : Type} {f : β → α → β} {a : α} (hrepeat : ∀ b, f (f b a) a = f b a)
    {as : List α} (ha : a ∈ as) (hsole : ∀ c ∈ as, c ≠ a → ∀ b, f b c = b) (b : β) :
    as.foldl f b = f b a := by
  have hrest : ∀ (as : List α), (∀ c ∈ as, c ≠ a → ∀ b, f b c = b) → ∀ b,
      as.foldl f (f b a) = f b a := by
    intro as
    induction as with
    | nil => exact fun _ _ => rfl
    | cons c as ih =>
      intro hsole b
      have htail : ∀ d ∈ as, d ≠ a → ∀ b, f b d = b :=
        fun d hd => hsole d (List.mem_cons_of_mem c hd)
      rw [List.foldl_cons]
      by_cases hc : c = a
      · rw [hc, hrepeat]
        exact ih htail b
      · rw [hsole c List.mem_cons_self hc]
        exact ih htail b
  induction as generalizing b with
  | nil => exact absurd ha List.not_mem_nil
  | cons c as ih =>
    have htail : ∀ d ∈ as, d ≠ a → ∀ b, f b d = b :=
      fun d hd => hsole d (List.mem_cons_of_mem c hd)
    rw [List.foldl_cons]
    by_cases hc : c = a
    · rw [hc]
      exact hrest as htail b
    · rw [hsole c List.mem_cons_self hc]
      exact ih ((List.mem_cons.1 ha).resolve_left (Ne.symm hc)) htail b

section Sole

variable {α : Type} {t : Tree} (h : t.Grown) {tree : α → Tree} {as : List α}
  (hs : ∀ a ∈ as, (tree a).Grown) {x : List Symbol} {a : α} (ha : a ∈ as)
include h hs ha

/-- Where one source alone has something, merging all of them is merging that one. -/
theorem entry_mergeAll_of_sole (hsole : ∀ b ∈ as, b ≠ a → (tree b).entry x = none) :
    (t.mergeAll (as.map tree)).entry x = Entry.join (t.entry x) ((tree a).entry x) := by
  rw [entry_mergeAll h (List.forall_mem_map.2 hs), List.foldl_map]
  refine foldl_of_sole (fun e => ?_) ha (fun b hb hne e => ?_) _
  · rw [Entry.join_assoc, Entry.join_self]
  · rw [hsole b hb hne, Entry.join_none_right]

theorem filter_membersOf_mergeAll_of_sole {candidate : Symbol → Bool}
    (hsole : ∀ b ∈ as, b ≠ a → (membersOf ((tree b).entry x)).filter candidate = []) :
    (membersOf ((t.mergeAll (as.map tree)).entry x)).filter candidate =
      unite ((membersOf (t.entry x)).filter candidate)
        ((membersOf ((tree a).entry x)).filter candidate) := by
  rw [filter_membersOf_mergeAll h (List.forall_mem_map.2 hs), List.foldl_map]
  refine foldl_of_sole (fun known => ?_) ha (fun b hb hne known => ?_) _
  · exact unite_eq_left fun s hself => mem_unite.2 (.inr hself)
  · rw [hsole b hb hne, unite_nil]

end Sole

end Tree

end SymbolTable
