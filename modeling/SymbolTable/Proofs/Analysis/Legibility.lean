import SymbolTable.Proofs.Analysis.Interchange
import SymbolTable.Proofs.Analysis.OwnPackage

/-!
# Coordinates that tell types apart

Lookups take the first of several candidates. When no two components that a type name may lead to or
through share a coordinate, there is one candidate at most, and the order of siblings plays no part:
trees with the same entries give the same answers.
-/

namespace SymbolTable

open SymbolTable.Tree (root)
open SymbolTable.Tree.Entry (attributesOf)

/-- A test of a type lookup: it fixes the name, takes types and type parameters only, and reads of a
type no more than its symbol and the mark of anonymous classes. -/
structure TypeProbe (accept : Component → Bool) : Prop where
  name : ∃ name, ∀ c, accept c → c.value = name
  namesType : ∀ c, accept c → c.kind.NamesType
  congr : ∀ {c c' : Component}, c'.symbol = c.symbol → (c.kind.isTypeDeclaration = true →
    (anonymousMark ∈ c'.attributes ↔ anonymousMark ∈ c.attributes)) → accept c' = accept c

namespace TypeProbe

theorem isNamedType (name : String) : TypeProbe (·.isNamedType name) where
  name := (nameProbe_isNamedType name).name
  namesType _ h := .inl (Component.isTypeDeclaration_of_isNamedType h)
  congr {c c'} hsymbol hmarked := by
    have hkind : c'.kind = c.kind := congrArg Symbol.kind hsymbol
    by_cases htype : c.kind.isTypeDeclaration = true
    · exact Component.isNamedType_congr hsymbol (hmarked htype) name
    · simp only [Component.isNamedType, hkind, htype, Bool.and_false, Bool.false_and]

theorem acceptsMember (name : String) : TypeProbe (Scope.acceptsMember name) where
  name := (nameProbe_typeOrParameter name).name
  namesType _ h := (Scope.namesType_of_acceptsMember h).1
  congr {c c'} hsymbol hmarked := by
    have hkind : c'.kind = c.kind := congrArg Symbol.kind hsymbol
    have hvalue : c'.value = c.value := congrArg Symbol.value hsymbol
    simp only [Scope.acceptsMember, (isNamedType name).congr hsymbol hmarked,
      Component.isTypeParameter, hkind, hvalue]

theorem typeDeclaration (name : String) :
    TypeProbe fun c => c.value = name && c.kind.isTypeDeclaration where
  name := (nameProbe_typeDeclaration name).name
  namesType _ h := .inl (Bool.and_eq_true _ _ ▸ h).2
  congr {c c'} hsymbol _ := by
    have hkind : c'.kind = c.kind := congrArg Symbol.kind hsymbol
    have hvalue : c'.value = c.value := congrArg Symbol.value hsymbol
    simp only [hkind, hvalue]

end TypeProbe

namespace Tree

/-! ## Legible trees -/

/-- Neither a type nor a component that types can be looked up in. -/
def Inert (t : Tree) (id : NodeId) : Prop :=
  ¬ (t.node id).kind.NamesType ∧ ∀ c ∈ t.children id, ¬ (t.node c).kind.NamesType

instance (kind : ComponentKind) : Decidable kind.NamesType := inferInstanceAs (Decidable (_ ∨ _))

instance (t : Tree) (id : NodeId) : Decidable (t.Inert id) := inferInstanceAs (Decidable (_ ∧ _))

/-- A component that is not inert has a coordinate of its own. -/
structure Legible (t : Tree) (delimiter : String) : Prop where
  spelled : ∀ i < t.size, i ≠ root → t.coordinate i delimiter = "" → t.Inert i
  apart : ∀ i < t.size, ∀ j < t.size, i ≠ root → j ≠ root →
    t.coordinate i delimiter = t.coordinate j delimiter → i = j ∨ t.Inert i ∧ t.Inert j

theorem Grown.coordinate_of_follow {t : Tree} (h : t.Grown) {x : List Symbol} {id : NodeId}
    (hid : t.follow root x = some id) (delimiter : String) :
    t.coordinate id delimiter = delimiter.intercalate (x.map Symbol.value) := by
  rw [coordinate, pathValues_eq, h.identityPath_of_follow hid]

theorem Grown.ne_root_of_follow {t : Tree} (h : t.Grown) {x : List Symbol} {id : NodeId}
    (hid : t.follow root x = some id) : id ≠ root ↔ x ≠ [] := by
  refine not_congr ⟨?_, ?_⟩
  · rintro rfl
    exact h.follow_inj hid rfl
  · rintro rfl
    exact (Option.some.inj hid).symm

/-- What is found by a coordinate is a component with it. -/
theorem Grown.of_locate {t : Tree} (h : t.Grown) {text delimiter : String} {id : NodeId}
    (hid : t.locate text delimiter = some id) :
    id ≠ root ∧ text ≠ "" ∧ t.coordinate id delimiter = text := by
  rw [h.locate_eq, Option.ite_none_left_eq_some] at hid
  have hbelow := (mem_preorder_iff h.acyclic).1 (List.mem_of_find?_eq_some hid.2)
  refine ⟨?_, hid.1, by simpa using List.find?_some hid.2⟩
  rintro rfl
  exact h.acyclic root hbelow

/-- Whether a component is inert shows in the paths of the tree. -/
theorem inert_iff {t : Tree} {x : List Symbol} {id : NodeId} (hid : t.follow root x = some id) :
    t.Inert id ↔ ¬ (t.node id).kind.NamesType ∧
      ∀ s, (t.entry (x ++ [s])).isSome → ¬ s.kind.NamesType := by
  refine and_congr_right fun _ => ⟨fun h s hs => ?_, fun h c hc => ?_⟩
  · rw [← mem_members hid] at hs
    obtain ⟨c, hc, rfl⟩ := List.mem_map.1 hs
    exact h c hc
  · refine h (t.node c).symbol ?_
    rw [← mem_members hid]
    exact List.mem_map_of_mem hc

namespace Legible

variable {t : Tree} {delimiter : String} (h : t.Legible delimiter) (ht : t.Grown)
include h ht

/-- Types and type parameters of one name, below one component, are one. -/
theorem child_eq {id c d : NodeId} (hc : c ∈ t.children id) (hd : d ∈ t.children id)
    (hkind : (t.node c).kind.NamesType) (hvalue : (t.node d).value = (t.node c).value) :
    d = c := by
  have hcoordinate : t.coordinate d delimiter = t.coordinate c delimiter := by
    rw [coordinate, coordinate, pathValues_eq, pathValues_eq, ht.identityPath_child hc,
      ht.identityPath_child hd, List.map_append, List.map_append]
    exact congrArg (fun v => delimiter.intercalate (_ ++ [v])) hvalue
  have hne : ∀ {c}, c ∈ t.children id → c ≠ root := fun hc hroot =>
    Nat.not_lt_zero _ (hroot ▸ ht.lt_child hc)
  rcases h.apart d (ht.child_lt hd) c (ht.child_lt hc) (hne hd) (hne hc) hcoordinate with heq | hinert
  · exact heq
  · exact absurd hkind hinert.2.1

/-- At most one child passes the test of a type lookup. -/
theorem find?_children {accept : Component → Bool} (haccept : TypeProbe accept) {id c : NodeId}
    (hc : c ∈ t.children id) (hfits : accept (t.node c)) :
    (t.children id).find? (fun d => accept (t.node d)) = some c := by
  obtain ⟨d, hd⟩ := Option.isSome_iff_exists.1 (List.find?_isSome.2 ⟨c, hc, hfits⟩ :
    ((t.children id).find? fun d => accept (t.node d)).isSome)
  obtain ⟨name, hname⟩ := haccept.name
  have hdfits : accept (t.node d) = true := List.find?_some (p := fun d => accept (t.node d)) hd
  have hvalue := (hname _ hdfits).trans (hname _ hfits).symm
  rw [hd, h.child_eq ht hc (List.mem_of_find?_eq_some hd) (haccept.namesType _ hfits) hvalue]

/-- By its coordinate a component is found, or an inert one in the place of an inert one. -/
theorem locate {id : NodeId} (hlt : id < t.size) (hroot : id ≠ root)
    (hne : t.coordinate id delimiter ≠ "") :
    ∃ j, t.locate (t.coordinate id delimiter) delimiter = some j ∧
      (j = id ∨ t.Inert id ∧ t.Inert j) := by
  have hsome : (t.locate (t.coordinate id delimiter) delimiter).isSome := by
    rw [ht.locate_eq, if_neg hne, List.find?_isSome]
    exact ⟨id, ht.mem_preorder (Nat.pos_of_ne_zero hroot) hlt, decide_eq_true rfl⟩
  obtain ⟨j, hj⟩ := Option.isSome_iff_exists.1 hsome
  obtain ⟨hjroot, -, hcoordinate⟩ := ht.of_locate hj
  exact ⟨j, hj, (h.apart id hlt j (ht.locate_lt hj) hroot hjroot hcoordinate.symm).imp_left Eq.symm⟩

end Legible

/-! ## Trees with the same entries -/

/-- Trees with the same entries whose coordinates are legible. -/
structure Twins (delimiter : String) (t t' : Tree) : Prop where
  grown : t.Grown
  grown' : t'.Grown
  symbol_root : (t'.node root).symbol = (t.node root).symbol
  entries : t.SameEntries t'
  legible : t.Legible delimiter

namespace Twins

variable {delimiter : String} {t t' : Tree} (h : t.Twins delimiter t')
include h

theorem exists_samePath' {id' : NodeId} (hid' : id' < t'.size) :
    ∃ id, t.SamePath t' id id' := by
  have hself := h.grown'.follow_identityPath hid'
  have hsome : (t.entry (t'.identityPath id')).isSome := by
    rw [← h.entries.isSome]
    exact isSome_entry_iff.2 ⟨id', hself⟩
  obtain ⟨id, hid⟩ := isSome_entry_iff.1 hsome
  exact ⟨id, _, hid, hself⟩

theorem exists_samePath {id : NodeId} (hid : id < t.size) : ∃ id', t.SamePath t' id id' := by
  have hself := h.grown.follow_identityPath hid
  have hsome : (t'.entry (t.identityPath id)).isSome := by
    rw [h.entries.isSome]
    exact isSome_entry_iff.2 ⟨id, hself⟩
  obtain ⟨id', hid'⟩ := isSome_entry_iff.1 hsome
  exact ⟨id', _, hself, hid'⟩

variable {id id' : NodeId} (hid : t.SamePath t' id id')
include hid

theorem symbol : (t'.node id').symbol = (t.node id).symbol := by
  obtain ⟨x, hx, hx'⟩ := hid
  exact symbol_eq_of_follow h.symbol_root hx hx'

theorem attributes : (t'.node id').attributes = (t.node id).attributes := by
  obtain ⟨x, hx, hx'⟩ := hid
  rw [← attributesOf_of_follow hx, ← attributesOf_of_follow hx']
  exact h.entries.attributes x

theorem accept_eq {accept : Component → Bool} (haccept : TypeProbe accept) :
    accept (t'.node id') = accept (t.node id) :=
  haccept.congr (h.symbol hid) fun _ => by rw [h.attributes hid]

theorem qualifiedName (nested : String) : t'.qualifiedName id' nested = t.qualifiedName id nested := by
  obtain ⟨x, hx, hx'⟩ := hid
  exact qualifiedName_eq_of_follow h.grown h.grown' h.symbol_root hx hx' nested

theorem coordinate : t'.coordinate id' delimiter = t.coordinate id delimiter := by
  obtain ⟨x, hx, hx'⟩ := hid
  rw [h.grown.coordinate_of_follow hx, h.grown'.coordinate_of_follow hx']

theorem inert_iff : t'.Inert id' ↔ t.Inert id := by
  have hkind : (t'.node id').kind = (t.node id).kind := congrArg Symbol.kind (h.symbol hid)
  obtain ⟨x, hx, hx'⟩ := hid
  rw [Tree.inert_iff hx, Tree.inert_iff hx', hkind]
  simp only [h.entries.isSome]

theorem ne_root_iff : id' ≠ root ↔ id ≠ root := by
  obtain ⟨x, hx, hx'⟩ := hid
  rw [h.grown.ne_root_of_follow hx, h.grown'.ne_root_of_follow hx']

theorem exists_child {c : NodeId} (hc : c ∈ t.children id) :
    ∃ c' ∈ t'.children id', t.SamePath t' c c' := by
  obtain ⟨x, hx, hx'⟩ := hid
  have hpath := follow_of_childWith hx (h.grown.childWith_iff.2 ⟨hc, rfl⟩)
  have hsome : (t'.entry (x ++ [(t.node c).symbol])).isSome := by
    rw [h.entries.isSome]
    exact isSome_entry_iff.2 ⟨c, hpath⟩
  obtain ⟨c', hc'⟩ := isSome_entry_iff.1 hsome
  refine ⟨c', ?_, _, hpath, hc'⟩
  rw [follow_concat, hx'] at hc'
  exact mem_children_of_childWith hc'

end Twins

/-- Legibility does not depend on the order of siblings. -/
theorem Twins.symm {delimiter : String} {t t' : Tree} (h : t.Twins delimiter t') :
    t'.Twins delimiter t where
  grown := h.grown'
  grown' := h.grown
  symbol_root := h.symbol_root.symm
  entries := h.entries.symm
  legible := by
    refine ⟨fun i' hi' hroot hempty => ?_, fun i' hi' j' hj' hiroot hjroot heq => ?_⟩
    · obtain ⟨i, hi⟩ := h.exists_samePath' hi'
      have ⟨x, hx, _⟩ := hi
      rw [h.coordinate hi] at hempty
      exact (h.inert_iff hi).2 (h.legible.spelled i (h.grown.follow_lt h.grown.root_lt hx)
        ((h.ne_root_iff hi).1 hroot) hempty)
    · obtain ⟨i, hi⟩ := h.exists_samePath' hi'
      obtain ⟨j, hj⟩ := h.exists_samePath' hj'
      have ⟨x, hx, hx'⟩ := hi
      have ⟨y, hy, hy'⟩ := hj
      rw [h.coordinate hi, h.coordinate hj] at heq
      rcases h.legible.apart i (h.grown.follow_lt h.grown.root_lt hx) j
        (h.grown.follow_lt h.grown.root_lt hy) ((h.ne_root_iff hi).1 hiroot)
        ((h.ne_root_iff hj).1 hjroot) heq with rfl | hinert
      · obtain rfl := h.grown.follow_inj hx hy
        exact .inl (Option.some.inj (hx'.symm.trans hy'))
      · exact .inr (hinert.imp (h.inert_iff hi).2 (h.inert_iff hj).2)

namespace Twins

variable {delimiter : String} {t t' : Tree} (h : t.Twins delimiter t')
include h

/-- The one child that passes the test of a type lookup has the same path in both trees. -/
theorem member {id id' : NodeId} (hid : t.SamePath t' id id') {accept : Component → Bool}
    (haccept : TypeProbe accept) :
    Option.Rel (t.SamePath t') ((t.children id).find? fun c => accept (t.node c))
      ((t'.children id').find? fun c => accept (t'.node c)) := by
  have ⟨x, hx, hx'⟩ := hid
  cases hfound : (t.children id).find? fun c => accept (t.node c) with
  | some c =>
    have hfits : accept (t.node c) = true := List.find?_some (p := fun c => accept (t.node c)) hfound
    obtain ⟨c', hc', hsame⟩ := h.exists_child hid (List.mem_of_find?_eq_some hfound)
    have hfits' := (h.accept_eq hsame haccept).trans hfits
    rw [h.symm.legible.find?_children h.grown' haccept hc' hfits']
    exact .some hsame
  | none =>
    have hnone : (t'.children id').find? (fun c => accept (t'.node c)) = none := by
      rw [List.find?_eq_none] at hfound ⊢
      intro c' hc' hfits'
      obtain ⟨c, hc, y, hy', hy⟩ := h.symm.exists_child ⟨x, hx', hx⟩ hc'
      exact hfound c hc ((h.accept_eq ⟨y, hy, hy'⟩ haccept).symm.trans hfits')
    rw [hnone]
    exact .none

/-- A coordinate leads to the same path in both trees, or to inert components. -/
theorem locate (text : String) :
    Option.Rel (fun i i' => t.SamePath t' i i' ∨ t.Inert i ∧ t'.Inert i')
      (t.locate text delimiter) (t'.locate text delimiter) := by
  cases hfound : t.locate text delimiter with
  | some i =>
    obtain ⟨hroot, hne, rfl⟩ := h.grown.of_locate hfound
    obtain ⟨i', hi⟩ := h.exists_samePath (h.grown.locate_lt hfound)
    have ⟨x, _, hx'⟩ := hi
    have hlocate := h.symm.legible.locate h.grown' (h.grown'.follow_lt h.grown'.root_lt hx')
      ((h.ne_root_iff hi).2 hroot)
    rw [h.coordinate hi] at hlocate
    obtain ⟨j', hj', hsame⟩ := hlocate hne
    rw [hj']
    refine .some ?_
    rcases hsame with rfl | ⟨hinert, hinert'⟩
    · exact .inl hi
    · exact .inr ⟨(h.inert_iff hi).1 hinert, hinert'⟩
  | none =>
    cases hfound' : t'.locate text delimiter with
    | none => exact .none
    | some i' =>
      obtain ⟨hroot, hne, rfl⟩ := h.grown'.of_locate hfound'
      obtain ⟨i, hi⟩ := h.exists_samePath' (h.grown'.locate_lt hfound')
      have ⟨x, hx, _⟩ := hi
      rw [h.coordinate hi] at hne hfound
      obtain ⟨j, hj, -⟩ := h.legible.locate h.grown (h.grown.follow_lt h.grown.root_lt hx)
        ((h.ne_root_iff hi).1 hroot) hne
      rw [hfound] at hj
      cases hj

end Twins

end Tree

end SymbolTable
