import SymbolTable.Proofs.Tree.Entry
import Mathlib.Data.List.Basic

/-!
# What a search by coordinate finds

A path spells the values on it with the delimiter between them. The coordinate of a node is what its
path spells, and the search finds only nodes whose paths spell the text.
-/

namespace SymbolTable

/-- The values on a path, joined by the delimiter. -/
def spell (delimiter : List Char) (path : List Symbol) : List Char :=
  delimiter.intercalate (path.map fun s => s.value.toList)

theorem spell_singleton (delimiter : List Char) (s : Symbol) :
    spell delimiter [s] = s.value.toList := List.intercalate_singleton

theorem spell_cons (delimiter : List Char) (s : Symbol) {path : List Symbol} (h : path ≠ []) :
    spell delimiter (s :: path) = s.value.toList ++ delimiter ++ spell delimiter path :=
  List.intercalate_cons_of_ne_nil (by simpa using h)

theorem spell_append (delimiter : List Char) {path rest : List Symbol} (h : path ≠ [])
    (hrest : rest ≠ []) :
    spell delimiter (path ++ rest) =
      spell delimiter path ++ delimiter ++ spell delimiter rest := by
  induction path with
  | nil => exact absurd rfl h
  | cons s path ih =>
    cases path with
    | nil => rw [List.singleton_append, spell_cons _ _ hrest, spell_singleton]
    | cons s' path =>
      rw [List.cons_append, spell_cons _ _ (by simp), spell_cons _ _ (List.cons_ne_nil s' path),
        ih (List.cons_ne_nil s' path)]
      simp [List.append_assoc]

/-- What a path spells in front of a longer one. -/
def spellBefore (delimiter : List Char) (path : List Symbol) : List Char :=
  if path = [] then [] else spell delimiter path ++ delimiter

theorem spell_append_eq (delimiter : List Char) (path : List Symbol) {rest : List Symbol}
    (hrest : rest ≠ []) :
    spell delimiter (path ++ rest) = spellBefore delimiter path ++ spell delimiter rest := by
  unfold spellBefore
  split
  · next h => rw [h, List.nil_append, List.nil_append]
  · next h => exact spell_append delimiter h hrest

theorem toList_intercalate (delimiter : String) (path : List Symbol) :
    (delimiter.intercalate (path.map Symbol.value)).toList = spell delimiter.toList path := by
  induction path with
  | nil => simp [spell]
  | cons s path ih =>
    cases path with
    | nil => simp [spell]
    | cons s' path =>
      rw [spell_cons _ _ (List.cons_ne_nil s' path), ← ih, List.map_cons, List.map_cons,
        String.intercalate_cons_cons]
      simp

theorem findSome?_congr {α β : Type} {f g : α → Option β} {l : List α} (h : ∀ a ∈ l, f a = g a) :
    l.findSome? f = l.findSome? g := by
  induction l with
  | nil => rfl
  | cons a l ih =>
    rw [List.findSome?_cons, List.findSome?_cons, h a List.mem_cons_self,
      ih fun b hb => h b (List.mem_cons_of_mem a hb)]

namespace Tree

theorem pathValues_eq (t : Tree) (id : NodeId) :
    t.pathValues id = (t.identityPath id).map Symbol.value := by
  unfold pathValues identityPath
  rw [List.map_append, List.map_map]
  split <;> rfl

theorem coordinate_toList (t : Tree) (id : NodeId) (delimiter : String) :
    (t.coordinate id delimiter).toList = spell delimiter.toList (t.identityPath id) := by
  rw [coordinate, pathValues_eq, toList_intercalate]

/-! ## The search -/

/-- The search below `child`, itself included. -/
def locateAt (t : Tree) (delimiter : List Char) (fuel : Nat) (rest : List Char)
    (child : NodeId) : Option NodeId :=
  match (t.node child).value.toList.isPrefixOf? rest with
  | none => none
  | some [] => some child
  | some tail =>
    match delimiter.isPrefixOf? tail with
    | none => none
    | some next => t.locateWithin delimiter fuel child next

theorem locateWithin_succ (t : Tree) (delimiter : List Char) (fuel : Nat) (above : NodeId)
    (rest : List Char) :
    t.locateWithin delimiter (fuel + 1) above rest =
      (t.children above).findSome? (t.locateAt delimiter fuel rest) := rfl

section locateAt

variable {t : Tree} {delimiter : List Char} {fuel : Nat} {child : NodeId}

theorem locateAt_value :
    t.locateAt delimiter fuel (t.node child).value.toList child = some child := by
  have hstart : (t.node child).value.toList.isPrefixOf? (t.node child).value.toList = some [] :=
    List.isPrefixOf?_eq_some_iff_append_eq.2 (List.append_nil _)
  rw [locateAt, hstart]

theorem locateAt_append (hne : delimiter ≠ []) (next : List Char) :
    t.locateAt delimiter fuel ((t.node child).value.toList ++ (delimiter ++ next)) child =
      t.locateWithin delimiter fuel child next := by
  have hstart : (t.node child).value.toList.isPrefixOf?
      ((t.node child).value.toList ++ (delimiter ++ next)) = some (delimiter ++ next) :=
    List.isPrefixOf?_eq_some_iff_append_eq.2 rfl
  have hcut : delimiter.isPrefixOf? (delimiter ++ next) = some next :=
    List.isPrefixOf?_eq_some_iff_append_eq.2 rfl
  rw [locateAt, hstart]
  split
  · next h => cases h
  · next h => exact absurd (List.append_eq_nil_iff.1 (Option.some.inj h)).1 hne
  · next tail _ h =>
    obtain rfl := Option.some.inj h
    rw [hcut]

theorem locateAt_eq_none {rest : List Char}
    (h : ∀ tail, (t.node child).value.toList ++ tail = rest →
      tail ≠ [] ∧ ∀ next, delimiter ++ next ≠ tail) :
    t.locateAt delimiter fuel rest child = none := by
  unfold locateAt
  split
  · rfl
  · next hstart => exact absurd rfl (h [] (List.isPrefixOf?_eq_some_iff_append_eq.1 hstart)).1
  · next tail _ hstart =>
    have hcut := (h tail (List.isPrefixOf?_eq_some_iff_append_eq.1 hstart)).2
    split
    · rfl
    · next next hnext => exact absurd (List.isPrefixOf?_eq_some_iff_append_eq.1 hnext) (hcut next)

end locateAt

/-- The search goes along child links, so it finds nodes of the tree. -/
theorem Linked.locateWithin_lt {t : Tree} (h : t.Linked) {delimiter : List Char} {fuel : Nat}
    {above id : NodeId} {rest : List Char}
    (hid : t.locateWithin delimiter fuel above rest = some id) : id < t.size := by
  induction fuel generalizing above rest with
  | zero => cases hid
  | succ fuel ih =>
    rw [locateWithin_succ] at hid
    obtain ⟨c, hc, hid⟩ := List.exists_of_findSome?_eq_some hid
    unfold locateAt at hid
    split at hid
    · cases hid
    · exact Option.some.inj hid ▸ h.child_lt hc
    · split at hid
      · cases hid
      · exact ih hid

theorem Linked.locate_lt {t : Tree} (h : t.Linked) {text delimiter : String} {id : NodeId}
    (hid : t.locate text delimiter = some id) : id < t.size := by
  unfold locate at hid
  split at hid
  · cases hid
  · exact h.locateWithin_lt hid

namespace Grown

variable {t : Tree} (h : t.Grown) {delimiter : List Char} {fuel : Nat}
include h

omit h in
theorem locateAt_spell_of {child id : NodeId} {rest : List Char}
    (hbelow : ∀ {next}, t.locateWithin delimiter fuel child next = some id →
      ∃ path, path ≠ [] ∧ t.follow child path = some id ∧ spell delimiter path = next)
    (hid : t.locateAt delimiter fuel rest child = some id) :
    ∃ path, t.follow child path = some id ∧
      spell delimiter ((t.node child).symbol :: path) = rest := by
  unfold locateAt at hid
  split at hid
  · cases hid
  · next hprefix =>
    obtain rfl := Option.some.inj hid
    rw [List.isPrefixOf?_eq_some_iff_append_eq, List.append_nil] at hprefix
    exact ⟨[], rfl, (spell_singleton _ _).trans hprefix⟩
  · next tail hne hprefix =>
    split at hid
    · cases hid
    · next next hdelimiter =>
      obtain ⟨path, hpath, hfollow, hspell⟩ := hbelow hid
      rw [List.isPrefixOf?_eq_some_iff_append_eq] at hprefix hdelimiter
      refine ⟨path, hfollow, ?_⟩
      rw [spell_cons _ _ hpath, hspell, ← hprefix, ← hdelimiter, List.append_assoc]
      rfl

/-- What is found below a node lies on a path that spells the text. -/
theorem locateWithin_spell {above id : NodeId} {rest : List Char}
    (hid : t.locateWithin delimiter fuel above rest = some id) :
    ∃ path, path ≠ [] ∧ t.follow above path = some id ∧ spell delimiter path = rest := by
  induction fuel generalizing above rest with
  | zero => cases hid
  | succ fuel ih =>
    rw [locateWithin_succ] at hid
    obtain ⟨c, hc, hid⟩ := List.exists_of_findSome?_eq_some hid
    obtain ⟨path, hfollow, hspell⟩ := locateAt_spell_of ih hid
    refine ⟨(t.node c).symbol :: path, List.cons_ne_nil _ _, ?_, hspell⟩
    rw [follow_cons, h.childWith_iff.2 ⟨hc, rfl⟩]
    exact hfollow

theorem locateAt_spell {child id : NodeId} {rest : List Char}
    (hid : t.locateAt delimiter fuel rest child = some id) :
    ∃ path, t.follow child path = some id ∧
      spell delimiter ((t.node child).symbol :: path) = rest :=
  locateAt_spell_of h.locateWithin_spell hid

theorem locate_lt {text delimiter : String} {id : NodeId}
    (hid : t.locate text delimiter = some id) : id < t.size := h.linked.locate_lt hid

end Grown

end Tree

end SymbolTable
