import SymbolTable.Proofs.Tree.Attached
import Mathlib.Data.List.Find
import Mathlib.Data.List.Induction
import Mathlib.Data.List.Nodup

/-!
# Identity paths

`follow` reads a list of symbols as directions from a node downwards, taking the first child of each
symbol. In a grown tree it is inverse to `identityPath`, so that nodes and their paths are one and
the same thing and two trees can be compared path by path.
-/

namespace SymbolTable

namespace Tree

/-- The first child of `id` that is the symbol `s`. -/
def childWith (t : Tree) (id : NodeId) (s : Symbol) : Option NodeId :=
  (t.children id).find? fun c => (t.node c).symbol = s

def follow (t : Tree) (id : NodeId) : List Symbol → Option NodeId
  | [] => some id
  | s :: rest => (t.childWith id s).bind fun c => t.follow c rest

theorem findChild_eq (t : Tree) (id : NodeId) (probe : Component) :
    t.findChild id probe = t.childWith id probe.symbol := rfl

@[simp] theorem follow_nil (t : Tree) (id : NodeId) : t.follow id [] = some id := rfl

theorem follow_cons (t : Tree) (id : NodeId) (s : Symbol) (rest : List Symbol) :
    t.follow id (s :: rest) = (t.childWith id s).bind fun c => t.follow c rest := rfl

theorem follow_append (t : Tree) (id : NodeId) (path rest : List Symbol) :
    t.follow id (path ++ rest) = (t.follow id path).bind fun c => t.follow c rest := by
  induction path generalizing id with
  | nil => rfl
  | cons s path ih =>
    rw [List.cons_append, follow_cons, follow_cons, Option.bind_assoc]
    congr 1
    funext c
    exact ih c

theorem follow_concat (t : Tree) (id : NodeId) (path : List Symbol) (s : Symbol) :
    t.follow id (path ++ [s]) = (t.follow id path).bind fun c => t.childWith c s := by
  rw [follow_append]
  congr 1
  funext c
  rw [follow_cons]
  cases t.childWith c s <;> rfl

theorem mem_children_of_childWith {t : Tree} {id c : NodeId} {s : Symbol}
    (h : t.childWith id s = some c) : c ∈ t.children id := List.mem_of_find?_eq_some h

theorem symbol_of_childWith {t : Tree} {id c : NodeId} {s : Symbol}
    (h : t.childWith id s = some c) : (t.node c).symbol = s := by
  simpa using List.find?_some h

theorem childWith_eq_none_iff {t : Tree} {id : NodeId} {s : Symbol} :
    t.childWith id s = none ↔ s ∉ (t.children id).map fun c => (t.node c).symbol := by
  simp [childWith]

theorem symbol_of_follow_concat {t : Tree} {path : List Symbol} {s : Symbol} {id : NodeId}
    (hid : t.follow root (path ++ [s]) = some id) : (t.node id).symbol = s := by
  rw [follow_concat] at hid
  obtain ⟨p, -, hp⟩ := Option.bind_eq_some_iff.1 hid
  exact symbol_of_childWith hp

theorem follow_of_childWith {t : Tree} {path : List Symbol} {id c : NodeId} {s : Symbol}
    (hid : t.follow root path = some id) (hc : t.childWith id s = some c) :
    t.follow root (path ++ [s]) = some c := by
  rw [follow_concat, hid]
  exact hc

/-- Nodes at one path are the same symbol, if the roots are. -/
theorem symbol_eq_of_follow {t t' : Tree} {path : List Symbol} {id id' : NodeId}
    (hroot : (t'.node root).symbol = (t.node root).symbol) (hid : t.follow root path = some id)
    (hid' : t'.follow root path = some id') : (t'.node id').symbol = (t.node id).symbol := by
  cases path using List.reverseRecOn with
  | nil =>
    obtain rfl := Option.some.inj hid
    obtain rfl := Option.some.inj hid'
    exact hroot
  | append_singleton path s => rw [symbol_of_follow_concat hid, symbol_of_follow_concat hid']

theorem Grown.kind_eq_of_follow {t t' : Tree} (h : t.Grown) (h' : t'.Grown) {path : List Symbol}
    {id id' : NodeId} (hid : t.follow root path = some id) (hid' : t'.follow root path = some id') :
    (t'.node id').kind = (t.node id).kind := by
  cases path using List.reverseRecOn with
  | nil =>
    obtain rfl := Option.some.inj hid
    obtain rfl := Option.some.inj hid'
    exact h'.kind_root.trans h.kind_root.symm
  | append_singleton path s =>
    have hsymbol := (symbol_of_follow_concat hid').trans (symbol_of_follow_concat hid).symm
    exact congrArg Symbol.kind hsymbol

theorem HasUniqueSiblings.childWith_iff {t : Tree} (hunique : t.HasUniqueSiblings) {id c : NodeId}
    {s : Symbol} : t.childWith id s = some c ↔ c ∈ t.children id ∧ (t.node c).symbol = s := by
  constructor
  · exact fun hc => ⟨mem_children_of_childWith hc, symbol_of_childWith hc⟩
  · rintro ⟨hc, rfl⟩
    obtain ⟨d, hd⟩ : ∃ d, t.childWith id (t.node c).symbol = some d := by
      rw [← Option.isSome_iff_exists, childWith, List.find?_isSome]
      exact ⟨c, hc, by simp⟩
    rw [hd, Option.some_inj]
    exact List.inj_on_of_nodup_map (hunique id) (mem_children_of_childWith hd) hc
      (symbol_of_childWith hd)

theorem Linked.follow_lt {t : Tree} (h : t.Linked) {id c : NodeId} {path : List Symbol}
    (hid : id < t.size) (hc : t.follow id path = some c) : c < t.size := by
  induction path generalizing id with
  | nil => exact Option.some.inj hc ▸ hid
  | cons s path ih =>
    obtain ⟨d, hd, hc⟩ := Option.bind_eq_some_iff.1 hc
    exact ih (h.child_lt (mem_children_of_childWith hd)) hc

namespace Grown

variable {t : Tree} (h : t.Grown)
include h

theorem childWith_iff {id c : NodeId} {s : Symbol} :
    t.childWith id s = some c ↔ c ∈ t.children id ∧ (t.node c).symbol = s :=
  h.uniqueSiblings.childWith_iff

theorem follow_lt {id c : NodeId} {path : List Symbol} (hid : id < t.size)
    (hc : t.follow id path = some c) : c < t.size := h.linked.follow_lt hid hc

/-! ### The path of a node -/

@[simp] theorem identityPath_root : t.identityPath root = [] := h.upright.identityPath_root

theorem identityPath_child {id c : NodeId} (hc : c ∈ t.children id) :
    t.identityPath c = t.identityPath id ++ [(t.node c).symbol] :=
  h.upright.identityPath_child (h.attached_of_lt (lt_size_of_mem_children hc)) hc

theorem identityPath_of_follow {id : NodeId} {path : List Symbol}
    (hid : t.follow root path = some id) : t.identityPath id = path := by
  induction path using List.reverseRecOn generalizing id with
  | nil => exact Option.some.inj hid ▸ h.identityPath_root
  | append_singleton path s ih =>
    rw [follow_concat] at hid
    obtain ⟨p, hp, hid⟩ := Option.bind_eq_some_iff.1 hid
    rw [h.identityPath_child (mem_children_of_childWith hid), ih hp, symbol_of_childWith hid]

theorem follow_identityPath {id : NodeId} (hid : id < t.size) :
    t.follow root (t.identityPath id) = some id := by
  induction id using Nat.strongRecOn with
  | ind id ih =>
    rcases Nat.eq_zero_or_pos id with rfl | hpos
    · rw [show t.identityPath 0 = [] from h.identityPath_root]
      rfl
    · obtain ⟨p, hp⟩ := h.attached hpos hid
      rw [h.identityPath_child hp, follow_concat,
        ih p (h.lt_child hp) (lt_size_of_mem_children hp)]
      exact h.childWith_iff.2 ⟨hp, rfl⟩

theorem follow_inj {id : NodeId} {path path' : List Symbol} (hp : t.follow root path = some id)
    (hp' : t.follow root path' = some id) : path = path' :=
  (h.identityPath_of_follow hp).symm.trans (h.identityPath_of_follow hp')

end Grown

/-! ## Paths in a larger tree -/

/-- The first child of a symbol stays the first: new children come after the old ones. -/
theorem Linked.childWith_extends {t t' : Tree} (h : t.Linked) (he : t.Extends t') {id c : NodeId}
    {s : Symbol} (hid : id < t.size) (hc : t.childWith id s = some c) :
    t'.childWith id s = some c := by
  obtain ⟨more, hmore⟩ := he.children hid
  have hfirst : (t.children id).find? (fun d => (t'.node d).symbol = s) = some c := by
    rw [← hc]
    apply List.find?_congr
    intro d hd
    rw [he.symbol (h.child_lt hd)]
  rw [childWith, ← hmore, List.find?_append, hfirst]
  rfl

theorem Linked.follow_extends {t t' : Tree} (h : t.Linked) (he : t.Extends t') {id c : NodeId}
    {path : List Symbol} (hid : id < t.size) (hc : t.follow id path = some c) :
    t'.follow id path = some c := by
  induction path generalizing id with
  | nil => exact hc
  | cons s path ih =>
    obtain ⟨d, hd, hc⟩ := Option.bind_eq_some_iff.1 hc
    rw [follow_cons, h.childWith_extends he hid hd]
    exact ih (h.child_lt (mem_children_of_childWith hd)) hc

namespace Extends

variable {t t' : Tree}

theorem follow (he : t.Extends t') (h : t.Grown) {id c : NodeId} {path : List Symbol}
    (hid : id < t.size) (hc : t.follow id path = some c) : t'.follow id path = some c :=
  h.linked.follow_extends he hid hc

end Extends

namespace SameShape

variable {t t' : Tree}

theorem childWith (hs : t.SameShape t') (id : NodeId) (s : Symbol) :
    t'.childWith id s = t.childWith id s := by
  simp only [Tree.childWith, hs.children, hs.symbol]

theorem follow (hs : t.SameShape t') (id : NodeId) (path : List Symbol) :
    t'.follow id path = t.follow id path := by
  induction path generalizing id with
  | nil => rfl
  | cons s path ih =>
    rw [follow_cons, follow_cons, hs.childWith]
    congr 1
    funext c
    exact ih c

end SameShape

/-! ## Paths from a node that nothing leads back to -/

/-- What hangs below `top` is a tree without equal siblings. -/
structure Rooted (t : Tree) (top : NodeId) : Prop where
  linked : t.Linked
  uniqueSiblings : t.HasUniqueSiblings
  top_lt : top < t.size
  not_below : ¬ t.Below top top

theorem below_of_follow {t : Tree} {top id : NodeId} {path : List Symbol}
    (hid : t.follow top path = some id) : path = [] ∧ id = top ∨ t.Below top id := by
  induction path using List.reverseRecOn generalizing id with
  | nil => exact .inl ⟨rfl, (Option.some.inj hid).symm⟩
  | append_singleton path s ih =>
    rw [follow_concat] at hid
    obtain ⟨p, hp, hid⟩ := Option.bind_eq_some_iff.1 hid
    have hmem := mem_children_of_childWith hid
    rcases ih hp with ⟨-, rfl⟩ | hbelow
    · exact .inr (.child hmem)
    · exact .inr (.step hbelow hmem)

theorem below_of_follow_concat {t : Tree} {top id : NodeId} {path : List Symbol} {s : Symbol}
    (hid : t.follow top (path ++ [s]) = some id) : t.Below top id :=
  (below_of_follow hid).resolve_left fun h => absurd h.1 (by simp)

theorem lt_size_of_below {t : Tree} {above id : NodeId} (h : t.Below above id) : above < t.size := by
  induction h with
  | child hc => exact lt_size_of_mem_children hc
  | step _ _ ih => exact ih

/-- A new leaf lies at the end of what it is below. -/
theorem below_of_below_add {t : Tree} {parent above id : NodeId} {c : Component}
    (hp : parent < t.size) (h : (t.add parent c).Below above id) :
    t.Below above id ∨ id = t.size := by
  induction h with
  | child hc => exact (mem_children_add hp hc).imp .child And.right
  | @step mid id _ hc ih =>
    rcases mem_children_add hp hc with hold | ⟨-, rfl⟩
    · rcases ih with hmid | rfl
      · exact .inl (.step hmid hold)
      · rw [children_of_size_le (Nat.le_refl _)] at hold
        exact absurd hold List.not_mem_nil
    · exact .inr rfl

theorem SameShape.below {t t' : Tree} (hs : t.SameShape t') {above id : NodeId}
    (h : t'.Below above id) : t.Below above id := by
  induction h with
  | child hc => exact .child (hs.children _ ▸ hc)
  | step _ hc ih => exact .step ih (hs.children _ ▸ hc)

theorem Grown.rooted {t : Tree} (h : t.Grown) : t.Rooted root :=
  ⟨h.linked, h.uniqueSiblings, h.root_lt, h.acyclic root⟩

namespace Rooted

variable {t : Tree} {top : NodeId} (h : t.Rooted top)
include h

theorem follow_lt {id : NodeId} {path : List Symbol} (hid : t.follow top path = some id) :
    id < t.size := h.linked.follow_lt h.top_lt hid

theorem follow_inj {id : NodeId} {path path' : List Symbol} (hp : t.follow top path = some id)
    (hp' : t.follow top path' = some id) : path = path' := by
  induction path using List.reverseRecOn generalizing id path' with
  | nil =>
    obtain rfl := Option.some.inj hp
    rcases below_of_follow hp' with ⟨rfl, -⟩ | hbelow
    · rfl
    · exact absurd hbelow h.not_below
  | append_singleton path s ih =>
    cases path' using List.reverseRecOn with
    | nil =>
      obtain rfl := Option.some.inj hp'
      exact absurd (below_of_follow_concat hp) h.not_below
    | append_singleton path' s' =>
      rw [follow_concat] at hp hp'
      obtain ⟨p, hpath, hp⟩ := Option.bind_eq_some_iff.1 hp
      obtain ⟨p', hpath', hp'⟩ := Option.bind_eq_some_iff.1 hp'
      have hparent : some p = some p' :=
        calc some p = t.parent _ := (h.linked.parent_child (mem_children_of_childWith hp)).symm
          _ = some p' := h.linked.parent_child (mem_children_of_childWith hp')
      rw [ih hpath (Option.some.inj hparent ▸ hpath'), ← symbol_of_childWith hp,
        symbol_of_childWith hp']

theorem of_sameShape {t' : Tree} (hs : t.SameShape t') : t'.Rooted top where
  linked := h.linked.of_sameShape hs
  uniqueSiblings := hs.hasUniqueSiblings h.uniqueSiblings
  top_lt := hs.size ▸ h.top_lt
  not_below hb := h.not_below (hs.below hb)

theorem put {parent : NodeId} {c : Component} (hp : parent < t.size) :
    (t.put parent c).2.Rooted top where
  linked := h.linked.put hp
  uniqueSiblings := h.linked.uniqueSiblings_put hp h.uniqueSiblings
  top_lt := (extends_put t c hp).lt h.top_lt
  not_below hb := by
    unfold Tree.put at hb
    split at hb
    · exact h.not_below ((sameShape_uniteAt t _ _).below hb)
    · rcases below_of_below_add hp hb with hb | hsize
      · exact h.not_below hb
      · exact Nat.lt_irrefl _ (hsize ▸ h.top_lt)

end Rooted

/-! ## Paths after a step -/

theorem Linked.childWith_put {t : Tree} (h : t.Linked) {parent : NodeId} {c : Component}
    (hp : parent < t.size) :
    (t.put parent c).2.childWith parent c.symbol = some (t.put parent c).1 := by
  unfold Tree.put
  split
  · next e he =>
    rw [(sameShape_uniteAt t e c.attributes).childWith, ← findChild_eq, he]
  · next hnone =>
    have hold : (t.children parent).find?
        (fun d => ((t.add parent c).node d).symbol = c.symbol) = none := by
      rw [← hnone, findChild_eq]
      apply List.find?_congr
      intro d hd
      rw [(extends_add t c hp).symbol (h.child_lt hd)]
    rw [childWith, children_add t c hp, if_pos rfl, List.find?_append, hold]
    simp [symbol_add t c hp]

/-- A put leaves the attributes of its component on the node. -/
theorem Linked.mem_attributes_put {t : Tree} (h : t.Linked) {parent : NodeId} {c : Component}
    (hp : parent < t.size) {a : Attribute} (ha : a ∈ c.attributes) :
    a ∈ ((t.put parent c).2.node (t.put parent c).1).attributes := by
  unfold Tree.put
  split
  · next e he =>
    have hmem := mem_children_of_childWith (findChild_eq t parent c ▸ he)
    rw [node_uniteAt t e e _ (h.child_lt hmem), if_pos rfl, mem_unite]
    exact .inr ha
  · rw [node_add t parent c _ hp, if_pos rfl]
    exact ha

theorem Linked.follow_put {t : Tree} (h : t.Linked) {top parent : NodeId} {c : Component}
    {path : List Symbol} (htop : top < t.size) (hp : t.follow top path = some parent) :
    (t.put parent c).2.follow top (path ++ [c.symbol]) = some (t.put parent c).1 := by
  have hlt := h.follow_lt htop hp
  rw [follow_concat, h.follow_extends (extends_put t c hlt) htop hp]
  exact h.childWith_put hlt

namespace Rooted

variable {t : Tree} {top : NodeId} (h : t.Rooted top) {parent : NodeId} {c : Component}
  {path : List Symbol} (hp : t.follow top path = some parent)
include h hp

theorem follow_put :
    (t.put parent c).2.follow top (path ++ [c.symbol]) = some (t.put parent c).1 :=
  h.linked.follow_put h.top_lt hp

/-- A step adds at most the path of the component. -/
theorem of_follow_put {path' : List Symbol} {i : NodeId}
    (hi : (t.put parent c).2.follow top path' = some i) :
    t.follow top path' = some i ∨ path' = path ++ [c.symbol] ∧ i = (t.put parent c).1 := by
  have hlt := h.follow_lt hp
  cases hnone : t.findChild parent c with
  | some e =>
    rw [put_of_findChild hnone, (sameShape_uniteAt t e _).follow] at hi
    exact .inl hi
  | none =>
    have hself := h.follow_put hp (c := c)
    have hfollow := h.put hlt (c := c)
    rw [put_of_findChild_eq_none hnone] at hi hself hfollow ⊢
    by_cases hnew : i = t.size
    · subst hnew
      exact .inr ⟨hfollow.follow_inj hi hself, rfl⟩
    · left
      induction path' using List.reverseRecOn generalizing i with
      | nil => exact hi
      | append_singleton path' s ih =>
        rw [follow_concat] at hi ⊢
        obtain ⟨p, hp', hi⟩ := Option.bind_eq_some_iff.1 hi
        have hmem := (mem_children_add hlt (mem_children_of_childWith hi)).resolve_right
          fun h => hnew h.2
        have hplt := lt_size_of_mem_children hmem
        rw [ih hp' (Nat.ne_of_lt hplt)]
        refine h.uniqueSiblings.childWith_iff.2 ⟨hmem, ?_⟩
        rw [← (extends_add t c hlt).symbol (h.linked.child_lt hmem)]
        exact symbol_of_childWith hi

end Rooted

namespace Grown

variable {t : Tree} (h : t.Grown) {parent : NodeId} {c : Component}
include h

theorem childWith_put (hp : parent < t.size) :
    (t.put parent c).2.childWith parent c.symbol = some (t.put parent c).1 :=
  h.linked.childWith_put hp

theorem follow_put {path : List Symbol} (hp : t.follow root path = some parent) :
    (t.put parent c).2.follow root (path ++ [c.symbol]) = some (t.put parent c).1 :=
  h.rooted.follow_put hp

omit parent in
/-- The parent is one step back. -/
theorem follow_dropLast {x : List Symbol} {id p : NodeId} (hid : t.follow root x = some id)
    (hp : t.parent id = some p) : t.follow root x.dropLast = some p := by
  rcases List.eq_nil_or_concat' x with rfl | ⟨y, s, rfl⟩
  · obtain rfl : root = id := Option.some.inj hid
    exact nomatch h.parent_root.symm.trans hp
  · rw [follow_concat] at hid
    obtain ⟨q, hq, hchild⟩ := Option.bind_eq_some_iff.1 hid
    rw [h.parent_child (mem_children_of_childWith hchild)] at hp
    rw [List.dropLast_concat, hq, hp]

end Grown

end Tree

end SymbolTable
