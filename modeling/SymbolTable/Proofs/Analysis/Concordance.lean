import SymbolTable.Proofs.Analysis.Correspondence
import SymbolTable.Proofs.Tree.Inclusion
import SymbolTable.Proofs.Tree.Location

/-!
# Trees in concordance

Two trees are in concordance when they have the same paths and marks, and siblings whose paths lead
to one coordinate stand in the same order in both. A lookup takes the first of several candidates
only among such siblings, so trees in concordance correspond.
-/

namespace SymbolTable

open SymbolTable.Tree (root)
open SymbolTable.Tree.Entry (attributesOf membersOf)

section FirstMatch

variable {α β : Type}

/-- A first match is decided among the elements that match at all. -/
theorem findSome?_filter (f : α → Option β) (l : List α) :
    (l.filter fun a => (f a).isSome).findSome? f = l.findSome? f := by
  induction l with
  | nil => rfl
  | cons a l ih =>
    rw [List.filter_cons, List.findSome?_cons]
    cases h : f a with
    | none => simpa using ih
    | some b => simp [h]

end FirstMatch

namespace Tree

structure Concordant (delimiter : String) (t t' : Tree) : Prop where
  grown : t.Grown
  grown' : t'.Grown
  symbol_root : (t'.node root).symbol = (t.node root).symbol
  isSome : ∀ x, (t'.entry x).isSome = (t.entry x).isSome
  marked : ∀ x, anonymousMark ∈ attributesOf (t'.entry x) ↔
    anonymousMark ∈ attributesOf (t.entry x)
  /-- Siblings with paths to one coordinate below them. -/
  order : ∀ (path : List Symbol) (candidate : Symbol → Bool) (text : List Char),
    (∀ s ∈ membersOf (t.entry path), candidate s → ∃ rest, (t.entry (path ++ s :: rest)).isSome ∧
      spell delimiter.toList (path ++ s :: rest) = text) →
    (membersOf (t'.entry path)).filter candidate = (membersOf (t.entry path)).filter candidate

namespace Grown

variable {t : Tree} (h : t.Grown)
include h

theorem findSome?_children {β : Type} (id : NodeId) (f : NodeId → Option β) :
    (t.children id).findSome? f =
      (t.members id).findSome? fun s => (t.childWith id s).bind f := by
  rw [members, List.findSome?_map]
  apply findSome?_congr
  intro c hc
  have hchild : t.childWith id (t.node c).symbol = some c := h.childWith_iff.2 ⟨hc, rfl⟩
  rw [Function.comp_apply, hchild]
  rfl

theorem childWith_of_mem_members {id : NodeId} {s : Symbol} (hs : s ∈ t.members id) :
    ∃ c, t.childWith id s = some c := by
  obtain ⟨c, hc, hsym⟩ := List.mem_map.1 hs
  exact ⟨c, h.childWith_iff.2 ⟨hc, hsym⟩⟩

end Grown

namespace Concordant

variable {delimiter : String} {t t' : Tree} (h : t.Concordant delimiter t')
include h

theorem mem_members {path : List Symbol} {id id' : NodeId} (hid : t.follow root path = some id)
    (hid' : t'.follow root path = some id') {s : Symbol} :
    s ∈ t'.members id' ↔ s ∈ t.members id := by
  rw [Tree.mem_members hid, Tree.mem_members hid', h.isSome]

/-- First matches among children agree when each match leads on to a path of one coordinate. -/
theorem rel_findSome?_children {path : List Symbol} {id id' : NodeId}
    (hid : t.follow root path = some id) (hid' : t'.follow root path = some id')
    {f f' : NodeId → Option NodeId} (text : List Char)
    (hff' : ∀ {s c c'}, t.childWith id s = some c → t'.childWith id' s = some c' →
      Option.Rel (t.SamePath t') (f c) (f' c'))
    (htext : ∀ {s c}, t.childWith id s = some c → (f c).isSome →
      ∃ rest, (t.entry (path ++ s :: rest)).isSome ∧
        spell delimiter.toList (path ++ s :: rest) = text) :
    Option.Rel (t.SamePath t') ((t.children id).findSome? f) ((t'.children id').findSome? f') := by
  have hpoint : ∀ s ∈ t.members id, Option.Rel (t.SamePath t') ((t.childWith id s).bind f)
      ((t'.childWith id' s).bind f') := by
    intro s hs
    obtain ⟨c, hc⟩ := h.grown.childWith_of_mem_members hs
    obtain ⟨c', hc'⟩ := h.grown'.childWith_of_mem_members ((h.mem_members hid hid').2 hs)
    rw [hc, hc']
    exact hff' hc hc'
  have hmatch : ∀ s ∈ t.members id,
      ((t'.childWith id' s).bind f').isSome = ((t.childWith id s).bind f).isSome := by
    intro s hs
    rcases rel_cases (hpoint s hs) with ⟨hx, hx'⟩ | ⟨a, b, hx, hx', -⟩ <;> rw [hx, hx']
    rfl
  -- All children that match lead to the coordinate `text`, so both trees list them in one order.
  have horder := h.order path (fun s => ((t.childWith id s).bind f).isSome) text
    (by
      intro s hs hsome
      rw [entry_of_follow hid] at hs
      obtain ⟨c, hc⟩ := h.grown.childWith_of_mem_members hs
      rw [hc] at hsome
      exact htext hc hsome)
  rw [entry_of_follow hid, entry_of_follow hid'] at horder
  have hfilter : (t'.members id').filter (fun s => ((t'.childWith id' s).bind f').isSome) =
      (t.members id).filter fun s => ((t.childWith id s).bind f).isSome := by
    refine Eq.trans ?_ horder
    apply List.filter_congr
    intro s hs
    exact hmatch s ((h.mem_members hid hid').1 hs)
  rw [h.grown.findSome?_children, h.grown'.findSome?_children, ← findSome?_filter,
    ← findSome?_filter (fun s => (t'.childWith id' s).bind f'), hfilter]
  have hall : List.Forall₂ (fun s s' => Option.Rel (t.SamePath t') ((t.childWith id s).bind f)
      ((t'.childWith id' s').bind f'))
      ((t.members id).filter fun s => ((t.childWith id s).bind f).isSome)
      ((t.members id).filter fun s => ((t.childWith id s).bind f).isSome) :=
    List.forall₂_same.2 fun s hs => hpoint s (List.mem_of_mem_filter hs)
  exact rel_findSome? hall fun hrel => hrel

theorem marked_of_samePath {id id' : NodeId} (hid : t.SamePath t' id id') :
    anonymousMark ∈ (t'.node id').attributes ↔ anonymousMark ∈ (t.node id).attributes := by
  obtain ⟨path, hp, hp'⟩ := hid
  rw [← attributesOf_of_follow hp, ← attributesOf_of_follow hp']
  exact h.marked path

theorem member {id id' : NodeId} (hid : t.SamePath t' id id') {accept : Component → Bool}
    (haccept : NameProbe accept) :
    Option.Rel (t.SamePath t') ((t.children id).find? fun c => accept (t.node c))
      ((t'.children id').find? fun c => accept (t'.node c)) := by
  obtain ⟨path, hp, hp'⟩ := hid
  obtain ⟨name, hname⟩ := haccept.name
  rw [List.find?_eq_findSome?_guard, List.find?_eq_findSome?_guard]
  apply h.rel_findSome?_children hp hp' (spellBefore delimiter.toList path ++ name.toList)
  · intro s c c' hc hc'
    have hpath := follow_of_childWith hp hc
    have hpath' := follow_of_childWith hp' hc'
    have hsame : t.SamePath t' c c' := ⟨_, hpath, hpath'⟩
    have hsymbol := symbol_eq_of_follow h.symbol_root hpath hpath'
    have hboth := haccept.congr hsymbol (h.marked_of_samePath hsame)
    simp only [Option.guard, hboth]
    split
    · exact .some hsame
    · exact .none
  · intro s c hc hsome
    have hvalue : s.value = name := by
      rw [← symbol_of_childWith hc]
      exact hname _ (by simpa using hsome)
    refine ⟨[], ?_, ?_⟩
    · rw [← Tree.mem_members hp, ← symbol_of_childWith hc]
      exact List.mem_map_of_mem (mem_children_of_childWith hc)
    · rw [spell_append_eq _ _ (List.cons_ne_nil s []), spell_singleton, hvalue]

/-- The induction is on the height of the subtree, which both fuels bound. -/
theorem locateWithin {fuel fuel' : Nat} {path : List Symbol} {id id' : NodeId}
    (hf : t.size ≤ id + fuel) (hf' : t'.size ≤ id' + fuel') (hid : t.follow root path = some id)
    (hid' : t'.follow root path = some id') (rest : List Char) :
    Option.Rel (t.SamePath t') (t.locateWithin delimiter.toList fuel id rest)
      (t'.locateWithin delimiter.toList fuel' id' rest) := by
  induction fuel generalizing fuel' path id id' rest with
  | zero => exact absurd (h.grown.follow_lt h.grown.root_lt hid) (Nat.not_lt_of_le hf)
  | succ fuel ih =>
    cases fuel' with
    | zero => exact absurd (h.grown'.follow_lt h.grown'.root_lt hid') (Nat.not_lt_of_le hf')
    | succ fuel' =>
      rw [locateWithin_succ, locateWithin_succ]
      apply h.rel_findSome?_children hid hid' (spellBefore delimiter.toList path ++ rest)
      · intro s c c' hc hc'
        have hpath := follow_of_childWith hid hc
        have hpath' := follow_of_childWith hid' hc'
        have hlt := h.grown.lt_child (mem_children_of_childWith hc)
        have hlt' := h.grown'.lt_child (mem_children_of_childWith hc')
        have hvalue : (t'.node c').value = (t.node c).value :=
          congrArg Symbol.value (symbol_eq_of_follow h.symbol_root hpath hpath')
        unfold locateAt
        rw [hvalue]
        cases (t.node c).value.toList.isPrefixOf? rest with
        | none => exact .none
        | some tail =>
          cases tail with
          | nil => exact .some ⟨_, hpath, hpath'⟩
          | cons head tail =>
            simp only
            cases delimiter.toList.isPrefixOf? (head :: tail) with
            | none => exact .none
            | some next => exact ih (fuel_child hf hlt) (fuel_child hf' hlt') hpath hpath' next
      · intro s c hc hsome
        obtain ⟨found, hfound⟩ := Option.isSome_iff_exists.1 hsome
        obtain ⟨below, hfollow, hspell⟩ := h.grown.locateAt_spell hfound
        rw [symbol_of_childWith hc] at hspell
        refine ⟨below, ?_, ?_⟩
        · rw [isSome_entry, follow_append, hid, Option.bind_some, follow_cons, hc,
            Option.bind_some, hfollow]
          rfl
        · rw [spell_append_eq _ _ (List.cons_ne_nil s below), hspell]

theorem corresponds : t.Corresponds delimiter t' where
  grown := h.grown
  grown' := h.grown'
  symbol_root := h.symbol_root
  marked := h.marked_of_samePath
  locate text := by
    unfold locate
    split
    · exact .none
    · exact h.locateWithin (Nat.le_add_left _ _) (Nat.le_add_left _ _) (follow_nil t root)
        (follow_nil t' root) text.toList
  member hid _ haccept := h.member hid haccept

end Concordant

end Tree

end SymbolTable
