import SymbolTable.Proofs.Tree.Path

/-!
# What a tree holds at a path

The entry at a path is the attribute list of the node there and the symbols of its children in
order. Entries join by ordered union, and one growing step joins an entry at two paths: the new
member at the parent and the attributes at the component. All that follows about building and
merging is said through entries; ids play no part in them.
-/

namespace SymbolTable

namespace Tree

structure Entry where
  attributes : List Attribute
  members : List Symbol

namespace Entry

def unite (e f : Entry) : Entry :=
  ⟨SymbolTable.unite e.attributes f.attributes, SymbolTable.unite e.members f.members⟩

/-- Ordered union of what may be absent. -/
def join : Option Entry → Option Entry → Option Entry
  | none, f => f
  | some e, none => some e
  | some e, some f => some (e.unite f)

@[simp] theorem join_none_left (f : Option Entry) : join none f = f := by cases f <;> rfl

@[simp] theorem join_none_right (e : Option Entry) : join e none = e := by cases e <;> rfl

theorem join_assoc (e f g : Option Entry) : join (join e f) g = join e (join f g) := by
  cases e <;> cases f <;> cases g <;> simp [join, unite, unite_assoc]

@[simp] theorem join_self (e : Option Entry) : join e e = e := by
  cases e <;> simp [join, unite]

@[simp] theorem isSome_join (e f : Option Entry) :
    (join e f).isSome = (e.isSome || f.isSome) := by
  cases e <;> cases f <;> rfl

/-- The attributes of an entry, none where there is no entry. -/
def attributesOf (e : Option Entry) : List Attribute := (e.map attributes).getD []

def membersOf (e : Option Entry) : List Symbol := (e.map members).getD []

/-- What is there comes first in the list. -/
theorem attributesOf_join (e f : Option Entry) :
    attributesOf (join e f) =
      if e.isSome then SymbolTable.unite (attributesOf e) (attributesOf f) else attributesOf f := by
  cases e <;> cases f <;> simp [join, attributesOf, unite]

theorem mem_attributesOf_join {e f : Option Entry} {a : Attribute} :
    a ∈ attributesOf (join e f) ↔ a ∈ attributesOf e ∨ a ∈ attributesOf f := by
  cases e <;> cases f <;> simp [attributesOf, join, unite, mem_unite]

/-- Only what starts a list has to be free of repetitions itself. -/
theorem nodup_attributesOf_join {e f : Option Entry} (he : (attributesOf e).Nodup)
    (hf : e.isSome ∨ (attributesOf f).Nodup) : (attributesOf (join e f)).Nodup := by
  cases e with
  | none =>
    rw [join_none_left]
    exact hf.resolve_left nofun
  | some e =>
    cases f with
    | none => exact he
    | some f => exact nodup_unite he _

theorem membersOf_join {e f : Option Entry} (hf : (membersOf f).Nodup) :
    membersOf (join e f) = SymbolTable.unite (membersOf e) (membersOf f) := by
  cases e with
  | none =>
    rw [join_none_left]
    exact (unite_of_nodup [] hf).symm
  | some e => cases f <;> rfl

end Entry

/-- The symbols of the children of a node, in order. -/
def members (t : Tree) (id : NodeId) : List Symbol :=
  (t.children id).map fun c => (t.node c).symbol

def entryAt (t : Tree) (id : NodeId) : Entry := ⟨(t.node id).attributes, t.members id⟩

def entryFrom (t : Tree) (id : NodeId) (path : List Symbol) : Option Entry :=
  (t.follow id path).map t.entryAt

def entry (t : Tree) (path : List Symbol) : Option Entry := t.entryFrom root path

theorem entryFrom_cons (t : Tree) (id : NodeId) (s : Symbol) (path : List Symbol) :
    t.entryFrom id (s :: path) = (t.childWith id s).bind fun c => t.entryFrom c path := by
  rw [entryFrom, follow_cons, Option.map_bind]
  rfl

theorem entryFrom_of_follow {t : Tree} {top id : NodeId} {path : List Symbol}
    (h : t.follow top path = some id) : t.entryFrom top path = some (t.entryAt id) := by
  rw [entryFrom, h]
  rfl

theorem entryFrom_of_follow_eq_none {t : Tree} {top : NodeId} {path : List Symbol}
    (h : t.follow top path = none) : t.entryFrom top path = none := by
  rw [entryFrom, h]
  rfl

theorem isSome_entryFrom (t : Tree) (top : NodeId) (path : List Symbol) :
    (t.entryFrom top path).isSome = (t.follow top path).isSome := by
  simp [entryFrom]

theorem entry_of_follow {t : Tree} {id : NodeId} {path : List Symbol}
    (h : t.follow root path = some id) : t.entry path = some (t.entryAt id) :=
  entryFrom_of_follow h

theorem entry_of_follow_eq_none {t : Tree} {path : List Symbol}
    (h : t.follow root path = none) : t.entry path = none := entryFrom_of_follow_eq_none h

theorem isSome_entry (t : Tree) (path : List Symbol) :
    (t.entry path).isSome = (t.follow root path).isSome := t.isSome_entryFrom root path

theorem isSome_entry_iff {t : Tree} {path : List Symbol} :
    (t.entry path).isSome ↔ ∃ id, t.follow root path = some id := by
  rw [isSome_entry, Option.isSome_iff_exists]

theorem mem_members {t : Tree} {id : NodeId} {path : List Symbol}
    (hid : t.follow root path = some id) {s : Symbol} :
    s ∈ t.members id ↔ (t.entry (path ++ [s])).isSome := by
  rw [isSome_entry, follow_concat, hid, Option.bind_some, Option.isSome_iff_ne_none, ne_eq,
    childWith_eq_none_iff, not_not]
  rfl

theorem mem_membersOf_entry {t : Tree} {x : List Symbol} {s : Symbol} :
    s ∈ Entry.membersOf (t.entry x) ↔ (t.entry (x ++ [s])).isSome := by
  cases hx : t.follow root x with
  | none =>
    rw [entry_of_follow_eq_none hx, isSome_entry, follow_concat, hx]
    simp [Entry.membersOf]
  | some id =>
    rw [entry_of_follow hx]
    exact mem_members hx

/-- A tree has every path above the ones that it has. -/
theorem isSome_entry_of_append {t : Tree} {x rest : List Symbol}
    (h : (t.entry (x ++ rest)).isSome) : (t.entry x).isSome := by
  rw [isSome_entry, follow_append] at h
  rw [isSome_entry]
  exact Option.isSome_of_isSome_bind h

theorem Grown.nodup_members {t : Tree} (h : t.Grown) (id : NodeId) : (t.members id).Nodup :=
  h.uniqueSiblings id

/-! ## One step -/

theorem entryAt_uniteAt (t : Tree) (id i : NodeId) (added : List Attribute) (h : id < t.size) :
    (t.modify id fun node => node.uniteAttributes added).entryAt i =
      if i = id then ⟨unite (t.node i).attributes added, t.members i⟩ else t.entryAt i := by
  have hs := sameShape_uniteAt t id added
  have hmembers : (t.modify id fun node => node.uniteAttributes added).members i =
      t.members i := by
    simp only [members, hs.children, hs.symbol]
  rw [entryAt, hmembers, node_uniteAt t id i added h]
  split <;> rfl

theorem Linked.entryAt_add {t : Tree} (h : t.Linked) {parent : NodeId} {c : Component}
    (hp : parent < t.size) {i : NodeId} (hi : i < t.size) :
    (t.add parent c).entryAt i =
      if i = parent then ⟨(t.node i).attributes, t.members i ++ [c.symbol]⟩ else t.entryAt i := by
  have hold : (t.children i).map (fun d => ((t.add parent c).node d).symbol) = t.members i :=
    List.map_congr_left fun d hd => (extends_add t c hp).symbol (h.child_lt hd)
  rw [entryAt, members, children_add t c hp, node_add t parent c i hp, if_neg (Nat.ne_of_lt hi)]
  split
  · next hip =>
    subst hip
    rw [List.map_append, hold, List.map_singleton, symbol_add t c hp]
  · rw [hold]
    rfl

namespace Rooted

variable {t : Tree} {top : NodeId} (h : t.Rooted top) {parent : NodeId} {c : Component}
  {path : List Symbol} (hp : t.follow top path = some parent)
include h hp

/-- What a step joins to the entry of a node that was there before it. -/
theorem entryAt_put {i : NodeId} (hi : i < t.size) :
    (t.put parent c).2.entryAt i = (t.entryAt i).unite
      (if i = parent then ⟨[], [c.symbol]⟩
        else if i = (t.put parent c).1 then ⟨c.attributes, []⟩ else ⟨[], []⟩) := by
  have hlt := h.follow_lt hp
  unfold Tree.put
  split
  · next e he =>
    have hmem := mem_children_of_childWith (findChild_eq t parent c ▸ he)
    simp only
    rw [entryAt_uniteAt t e i c.attributes (h.linked.child_lt hmem)]
    by_cases hip : i = parent
    · subst hip
      have hsym : c.symbol ∈ t.members i :=
        List.mem_map.2 ⟨e, hmem, symbol_of_childWith (findChild_eq t i c ▸ he)⟩
      have hne : i ≠ e := by
        rintro rfl
        have hself : t.follow top (path ++ [c.symbol]) = some i := by
          rw [follow_concat, hp]
          exact he
        exact absurd (h.follow_inj hself hp) (by simp)
      rw [if_neg hne, if_pos rfl]
      simp [Entry.unite, entryAt, addAbsent_of_mem hsym]
    · rw [if_neg hip]
      split <;> simp [Entry.unite, entryAt]
  · next hnone =>
    have hsym := childWith_eq_none_iff.1 (findChild_eq t parent c ▸ hnone)
    simp only
    rw [h.linked.entryAt_add hlt hi, if_neg (Nat.ne_of_lt hi)]
    split
    · next hip =>
      subst hip
      simp [Entry.unite, entryAt, addAbsent, members, hsym]
    · simp [Entry.unite, entryAt]

/-- A step joins one member at the parent and the attributes at the component. -/
theorem entryFrom_put (x : List Symbol) :
    (t.put parent c).2.entryFrom top x = Entry.join (t.entryFrom top x)
      (if x = path then some ⟨[], [c.symbol]⟩
        else if x = path ++ [c.symbol] then some ⟨c.attributes, []⟩ else none) := by
  have hlt := h.follow_lt hp
  have hself : (t.put parent c).2.follow top (path ++ [c.symbol]) = some (t.put parent c).1 :=
    h.follow_put hp
  have hput : (t.put parent c).2.Rooted top := h.put hlt
  cases hx : t.follow top x with
  | some i =>
    -- The node was there before: as the parent, as the component or as neither.
    have hi := h.follow_lt hx
    have hx' := h.linked.follow_extends (extends_put t c hlt) h.top_lt hx
    have hparent : i = parent ↔ x = path :=
      ⟨fun hi => h.follow_inj hx (hi ▸ hp), fun hxp => Option.some.inj (hx.symm.trans (hxp ▸ hp))⟩
    have hchild : i = (t.put parent c).1 ↔ x = path ++ [c.symbol] :=
      ⟨fun hi => hput.follow_inj hx' (hi ▸ hself),
        fun hxc => Option.some.inj (hx'.symm.trans (hxc ▸ hself))⟩
    rw [entryFrom_of_follow hx, entryFrom_of_follow hx', h.entryAt_put hp hi]
    simp only [hparent, hchild]
    split
    · rfl
    · split
      · rfl
      · simp [Entry.unite]
  | none =>
    -- Only the component can be new, and then it has no children.
    have hxp : x ≠ path := by
      rintro rfl
      rw [hp] at hx
      cases hx
    rw [entryFrom_of_follow_eq_none hx, if_neg hxp, Entry.join_none_left]
    split
    · next hxc =>
      subst hxc
      rw [entryFrom_of_follow hself]
      have hnone : t.findChild parent c = none := by
        rw [follow_concat, hp] at hx
        exact hx
      rw [put_of_findChild_eq_none hnone, entryAt, members, children,
        node_add t parent c _ hlt, if_pos rfl]
      rfl
    · next hxc =>
      rw [entryFrom]
      cases hx' : (t.put parent c).2.follow top x with
      | none => rfl
      | some i =>
        rcases h.of_follow_put hp hx' with hi | ⟨hxc', -⟩
        · rw [hx] at hi
          cases hi
        · exact absurd hxc' hxc

end Rooted

theorem Grown.entry_put {t : Tree} (h : t.Grown) {parent : NodeId} {c : Component}
    {path : List Symbol} (hp : t.follow root path = some parent) (x : List Symbol) :
    (t.put parent c).2.entry x = Entry.join (t.entry x)
      (if x = path then some ⟨[], [c.symbol]⟩
        else if x = path ++ [c.symbol] then some ⟨c.attributes, []⟩ else none) :=
  h.rooted.entryFrom_put hp x

end Tree

end SymbolTable
