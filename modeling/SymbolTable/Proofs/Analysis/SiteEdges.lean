import SymbolTable.Proofs.Analysis.Exposure
import SymbolTable.Proofs.Analysis.Sites

/-!
# The edges of a site

Which edges a heading leads to can be read off the heading, given what its type texts mean: the
edges of its type to supertypes, and those of its type parameters to their bounds. Relating a
declaration adds these edges to the tree and nothing else.
-/

namespace SymbolTable

open SymbolTable.Tree (root)
open SymbolTable.Tree.Entry (attributesOf)

/-- What type texts mean at paths. -/
abbrev Reader := List Symbol → String → Option (String × ComponentKind)

/-- An edge of the component at a path. -/
structure PathEdge where
  path : List Symbol
  edge : Attribute

namespace Reader

variable (reads : Reader)

/-- The edge of the component at `y` to what a text means at `x`. -/
def edge (x y : List Symbol) (kind : AttributeKind) (text : String) : List PathEdge :=
  ((reads x text).map fun found => (⟨y, kind, found.1⟩ : PathEdge)).toList

/-- The first bound of a type parameter is extended and the others are implemented. -/
def bounds (x y : List Symbol) : List String → List PathEdge
  | [] => []
  | first :: rest => reads.edge x y .extendsType first ++ rest.flatMap (reads.edge x y .implementsType)

def parameters (x : List Symbol) (ps : List TypeParameterDecl) : List PathEdge :=
  ps.flatMap fun p => reads.bounds x (x ++ [(typeParameterComponent p).symbol]) p.bounds

/-- An anonymous class extends the class that it names, or implements the interface. -/
def instantiated (x : List Symbol) (name : String) : List PathEdge :=
  match reads x.dropLast name with
  | some (name, .interfaceType) => [⟨x, .implementsType, name⟩]
  | some (name, _) => [⟨x, .extendsType, name⟩]
  | none => []

def superclass (nested : String) (x : List Symbol) : Option String → List PathEdge
  | some text => reads.edge x x .extendsType text
  | none => if qualify nested x = objectName then [] else [⟨x, .extendsType, objectName⟩]

def supertypes (nested : String) (x : List Symbol) (h : TypeHeader) : List PathEdge :=
  match h.kind with
  | .classType =>
    if h.anonymous then reads.instantiated x h.name
    else reads.superclass nested x h.superclass ++
      h.interfaces.flatMap (reads.edge x x .implementsType)
  | .interfaceType => h.interfaces.flatMap (reads.edge x x .implementsType)
  | .enumType =>
    (if qualify nested x = enumName then [] else [⟨x, .implementsType, enumName⟩]) ++
      h.interfaces.flatMap (reads.edge x x .implementsType)
  | .annotationType => []

/-- The edges that the heading of a site leads to. -/
def edges (nested : String) (site : Site) : List PathEdge :=
  match site.heading with
  | .type h => reads.supertypes nested site.path h ++ reads.parameters site.path h.typeParameters
  | .callable h => reads.parameters site.path h.typeParameters

end Reader

namespace Scope

/-- The step from `s` to `s'` adds the edges. -/
structure Gains (s : Scope) (edges : List PathEdge) (s' : Scope) : Prop where
  marks : s.Marks s'
  mem_iff : ∀ (y : List Symbol) (a : Attribute), a ∈ attributesOf (s'.tree.entry y) ↔
    a ∈ attributesOf (s.tree.entry y) ∨ ⟨y, a⟩ ∈ edges

namespace Gains

variable {s s' s'' : Scope} {edges more : List PathEdge}

theorem refl (s : Scope) : s.Gains [] s := ⟨.none, fun _ _ => by simp⟩

theorem trans (h : s.Gains edges s') (h' : s'.Gains more s'') : s.Gains (edges ++ more) s'' := by
  refine ⟨h.marks.trans h'.marks, fun y a => ?_⟩
  rw [h'.mem_iff, h.mem_iff, List.mem_append, or_assoc]

theorem mark (hgrown : s.tree.Grown) {y : List Symbol} {id : NodeId}
    (hid : s.tree.follow root y = some id) {kind : AttributeKind} (value : String)
    (hkind : kind ≠ .localClass) : s.Gains [⟨y, kind, value⟩] (s.mark id kind value) := by
  have hmarks : s.Marks (s.mark id kind value) := .one s id value hkind
  refine ⟨hmarks, fun x a => ?_⟩
  have hfollow := hmarks.alike.tree.sameShape.follow root x
  rw [List.mem_singleton, PathEdge.mk.injEq]
  cases hx : s.tree.follow root x with
  | none =>
    have hne : x ≠ y := by
      rintro rfl
      rw [hid] at hx
      cases hx
    rw [hx] at hfollow
    simp [Tree.entry_of_follow_eq_none hfollow, Tree.entry_of_follow_eq_none hx, hne]
  | some i =>
    rw [hx] at hfollow
    rw [Tree.attributesOf_of_follow hfollow, Tree.attributesOf_of_follow hx, Scope.mark,
      Tree.node_modify _ _ _ _ (hgrown.follow_lt hgrown.root_lt hid)]
    by_cases heq : i = id
    · obtain rfl := hgrown.follow_inj hx (heq ▸ hid)
      rw [if_pos heq, Component.addAttributeIfAbsent_eq, mem_addAbsent, eq_self, true_and]
    · have hne : x ≠ y := by
        rintro rfl
        exact heq (Option.some.inj (hx.symm.trans hid))
      rw [if_neg heq]
      simp [hne]

end Gains

/-! ## Relating -/

/-- The cursor is at the path, and type texts mean there what the reader says, however many
attributes are added. -/
structure ReadsAs (s : Scope) (app : Application) (reads : Reader) (x : List Symbol) : Prop where
  grown : s.tree.Grown
  cursor : s.At x
  resolves : ∀ s', s.Marks s' → ∀ text, s'.resolveType app s'.cursor text = reads x text

namespace ReadsAs

variable {s s' : Scope} {app : Application} {reads : Reader} {x y : List Symbol}

theorem of_marks (h : s.ReadsAs app reads x) (hs : s.Marks s') : s'.ReadsAs app reads x where
  grown := h.grown.of_sameShape hs.alike.tree.sameShape
  cursor := by
    rw [At, hs.alike.tree.sameShape.follow, hs.alike.cursor]
    exact h.cursor
  resolves s'' hs' := h.resolves s'' (hs.trans hs')

theorem gains_relate (h : s.ReadsAs app reads x) {id : NodeId}
    (hid : s.tree.follow root y = some id) {kind : AttributeKind} (hkind : kind.IsEdge)
    (text : String) : s.Gains (reads.edge x y kind text) (s.relate app id kind text) := by
  rw [relate, h.resolves s .none, Reader.edge]
  cases reads x text with
  | none => exact .refl s
  | some found => exact .mark h.grown hid found.1 hkind.ne_localClass

theorem gains_relateAll (h : s.ReadsAs app reads x) {id : NodeId}
    (hid : s.tree.follow root y = some id) {kind : AttributeKind} (hkind : kind.IsEdge)
    (texts : List String) :
    s.Gains (texts.flatMap (reads.edge x y kind)) (s.relateAll app id kind texts) := by
  induction texts generalizing s with
  | nil => exact .refl s
  | cons text texts ih =>
    have hfirst := h.gains_relate hid hkind text
    rw [relateAll_cons, List.flatMap_cons]
    refine hfirst.trans (ih (h.of_marks hfirst.marks) ?_)
    rw [hfirst.marks.alike.tree.sameShape.follow]
    exact hid

theorem gains_relateBounds (h : s.ReadsAs app reads x) {id : NodeId}
    (hid : s.tree.follow root y = some id) (bounds : List String) :
    s.Gains (reads.bounds x y bounds) (s.relateBounds app id bounds) := by
  cases bounds with
  | nil => exact .refl s
  | cons first rest =>
    have hfirst := h.gains_relate hid (.inl rfl : AttributeKind.IsEdge .extendsType) first
    refine hfirst.trans ((h.of_marks hfirst.marks).gains_relateAll ?_ (.inr rfl) rest)
    rw [hfirst.marks.alike.tree.sameShape.follow]
    exact hid

theorem gains_attachBounds (h : s.ReadsAs app reads x) (ps : List TypeParameterDecl)
    (hps : ∀ p ∈ ps,
      (s.tree.follow root (x ++ [(typeParameterComponent p).symbol])).isSome) :
    s.Gains (reads.parameters x ps) (s.attachBounds app s.cursor ps) := by
  rw [attachBounds]
  generalize hcursor : s.cursor = owner
  induction ps generalizing s with
  | nil => exact .refl s
  | cons p ps ih =>
    obtain ⟨hp, hps⟩ := List.forall_mem_cons.1 hps
    obtain ⟨id, hid⟩ := Option.isSome_iff_exists.1 hp
    have hchild : s.tree.findChild owner { kind := .typeParameter, value := p.name } = some id := by
      have hself := hid
      rw [Tree.follow_concat, h.cursor, Option.bind_some, hcursor, symbol_typeParameterComponent]
        at hself
      exact hself
    have hfirst := h.gains_relateBounds hid p.bounds
    have halike := hfirst.marks.alike
    rw [List.foldl_cons, hchild, Reader.parameters, List.flatMap_cons]
    refine hfirst.trans (ih (h.of_marks hfirst.marks) (fun q hq => ?_) (halike.cursor.trans hcursor))
    rw [halike.tree.sameShape.follow]
    exact hps q hq

section Supertypes

variable {nested : String} (hnested : app.naming.nestedSeparator = nested) (hx : x ≠ [])
include hnested hx

theorem qualified_eq (h : s.ReadsAs app reads x) :
    s.qualified app s.cursor = qualify nested x := by
  rw [qualified, hnested]
  exact h.grown.qualifiedName_of_follow nested h.cursor hx

theorem gains_attachSuperclass (h : s.ReadsAs app reads x) (superclass : Option String) :
    s.Gains (reads.superclass nested x superclass)
      (s.attachSuperclass app s.cursor superclass) := by
  cases superclass with
  | some text => exact h.gains_relate h.cursor (.inl rfl) text
  | none =>
    simp only [attachSuperclass, Reader.superclass, h.qualified_eq hnested hx]
    by_cases hobject : qualify nested x = objectName
    · rw [if_pos hobject, if_pos hobject]
      exact .refl s
    · rw [if_neg hobject, if_neg hobject]
      exact .mark h.grown h.cursor objectName (by decide)

omit hnested hx in
theorem gains_attachInstantiated (h : s.ReadsAs app reads x) {name : String}
    (houter : s.resolveType app ((s.tree.parent s.cursor).getD s.cursor) name =
      reads x.dropLast name) :
    s.Gains (reads.instantiated x name) (s.attachInstantiated app s.cursor name) := by
  rw [attachInstantiated, houter, Reader.instantiated]
  cases reads x.dropLast name with
  | none => exact .refl s
  | some found =>
    obtain ⟨name, kind⟩ := found
    by_cases hinterface : kind = .interfaceType
    · rw [hinterface]
      exact .mark h.grown h.cursor name (by decide)
    · simp only
      exact .mark h.grown h.cursor name (by decide)

theorem gains_attachRelationships (h : s.ReadsAs app reads x) (header : TypeHeader)
    (houter : header.anonymous = true →
      s.resolveType app ((s.tree.parent s.cursor).getD s.cursor) header.name =
        reads x.dropLast header.name) :
    s.Gains (reads.supertypes nested x header) (s.attachRelationships app s.cursor header) := by
  have himplements : AttributeKind.IsEdge .implementsType := .inr rfl
  have hinterfaces : ∀ {s' : Scope}, s.Marks s' →
      s'.Gains (header.interfaces.flatMap (reads.edge x x .implementsType))
        (s'.relateAll app s.cursor .implementsType header.interfaces) := by
    intro s' hs'
    refine (h.of_marks hs').gains_relateAll ?_ himplements _
    rw [hs'.alike.tree.sameShape.follow]
    exact h.cursor
  cases hkind : header.kind with
  | classType =>
    simp only [attachRelationships, Reader.supertypes, hkind]
    by_cases hanonymous : header.anonymous = true
    · rw [if_pos hanonymous, if_pos hanonymous]
      exact h.gains_attachInstantiated (houter hanonymous)
    · have hsuper := h.gains_attachSuperclass hnested hx header.superclass
      rw [if_neg hanonymous, if_neg hanonymous]
      exact hsuper.trans (hinterfaces hsuper.marks)
  | interfaceType =>
    simp only [attachRelationships, Reader.supertypes, hkind]
    exact hinterfaces .none
  | enumType =>
    simp only [attachRelationships, Reader.supertypes, hkind, h.qualified_eq hnested hx]
    by_cases hself : qualify nested x = enumName
    · rw [if_pos hself, if_pos hself]
      exact hinterfaces .none
    · have hmark : s.Gains [⟨x, .implementsType, enumName⟩]
          (s.mark s.cursor .implementsType enumName) :=
        .mark h.grown h.cursor enumName (by decide)
      rw [if_neg hself, if_neg hself]
      exact hmark.trans (hinterfaces hmark.marks)
  | annotationType =>
    simp only [attachRelationships, Reader.supertypes, hkind]
    exact .refl s

/-- Relating a type adds the edges of its heading. -/
theorem gains_relateType (h : s.ReadsAs app reads x) (header : TypeHeader)
    (houter : header.anonymous = true →
      s.resolveType app ((s.tree.parent s.cursor).getD s.cursor) header.name =
        reads x.dropLast header.name)
    (hps : ∀ p ∈ header.typeParameters,
      (s.tree.follow root (x ++ [(typeParameterComponent p).symbol])).isSome) :
    s.Gains (reads.edges nested ⟨x, .type header⟩)
      (s.relateType app .structural s.cursor header) := by
  have hsupertypes := h.gains_attachRelationships hnested hx header houter
  have halike := hsupertypes.marks.alike
  have hbounds := (h.of_marks hsupertypes.marks).gains_attachBounds header.typeParameters
    fun p hp => by
      rw [halike.tree.sameShape.follow]
      exact hps p hp
  rw [halike.cursor] at hbounds
  exact hsupertypes.trans hbounds

omit hnested hx in
theorem gains_relateCallable (h : s.ReadsAs app reads x) (header : CallableHeader)
    (hps : ∀ p ∈ header.typeParameters,
      (s.tree.follow root (x ++ [(typeParameterComponent p).symbol])).isSome) :
    s.Gains (reads.edges nested ⟨x, .callable header⟩)
      (s.relateCallable app .structural s.cursor header) :=
  h.gains_attachBounds header.typeParameters hps

end Supertypes

end ReadsAs

end Scope

end SymbolTable
