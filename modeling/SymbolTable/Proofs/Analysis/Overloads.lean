import SymbolTable.Proofs.Analysis.CursorPath
import SymbolTable.Proofs.Analysis.Session
import SymbolTable.Proofs.Declaration.Signature
import SymbolTable.Proofs.Tree.Absorption

/-!
# Overloads stay apart

Constructors and methods that a body declares are told apart by their signatures, and so by their
parameter lists. Each has a component of its own below the component of the body: in the tree of the
unit, in every tree that this one is merged into, and after all merges that follow.
-/

namespace SymbolTable

open SymbolTable.Tree (root)

/-! ## Callables of a body -/

/-- The constructor or method that a member is. -/
def Member.callable? : Member → Option (ComponentKind × CallableDecl)
  | .constructor d => some (.constructor, d)
  | .method d => some (.method, d)
  | .type _ | .field _ | .enumConstant _ => none

namespace CompilationUnit

/-- The members are the body of a type or of an enum constant, at any depth of the unit; its
component has the given path. -/
inductive HasBody (naming : Naming) (u : CompilationUnit) : List Symbol → List Member → Prop
  | topLevel {d : TypeDecl} (hd : d ∈ u.types) :
      HasBody naming u (u.packagePath naming ++ [d.header.symbol]) d.members
  | memberType {x : List Symbol} {ms : List Member} {d : TypeDecl} (h : HasBody naming u x ms)
      (hd : .type d ∈ ms) : HasBody naming u (x ++ [d.header.symbol]) d.members
  | constantBody {x : List Symbol} {ms body : List Member} {d : ConstantDecl}
      (h : HasBody naming u x ms) (hd : .enumConstant d ∈ ms) (hb : d.body = some body) :
      HasBody naming u (x ++ [d.header.symbol]) body
  | localType {x : List Symbol} {ms : List Member} {m : Member} {kind : ComponentKind}
      {c : CallableDecl} {d : TypeDecl} (h : HasBody naming u x ms) (hm : m ∈ ms)
      (hc : m.callable? = some (kind, c)) (hd : d ∈ c.localTypes) :
      HasBody naming u (x ++ [c.header.symbol kind] ++ [d.header.symbol]) d.members

/-- A body with the given path declares the constructor or method. -/
def DeclaresCallable (naming : Naming) (u : CompilationUnit) (x : List Symbol) (kind : ComponentKind)
    (h : CallableHeader) : Prop :=
  ∃ ms m c, u.HasBody naming x ms ∧ m ∈ ms ∧ m.callable? = some (kind, c) ∧ c.header = h

end CompilationUnit

/-! ## They are placed -/

section Placements

variable {file : Option Attribute} {outer : List Symbol} {imports : List Component}

theorem TypeDecl.placements_subset {d : TypeDecl} {ds : List TypeDecl} (hd : d ∈ ds) :
    d.placements file outer imports ⊆ TypeDecl.placementsOfList file outer imports ds := by
  induction ds with
  | nil => cases hd
  | cons first rest ih =>
    rw [TypeDecl.placementsOfList]
    rcases List.mem_cons.1 hd with rfl | hd
    · exact List.subset_append_left _ _
    · exact List.Subset.trans (ih hd) (List.subset_append_right _ _)

theorem Member.placements_subset {m : Member} {ms : List Member} (hm : m ∈ ms) :
    m.placements file outer ⊆ Member.placementsOfList file outer ms := by
  induction ms with
  | nil => cases hm
  | cons first rest ih =>
    rw [Member.placementsOfList]
    rcases List.mem_cons.1 hm with rfl | hm
    · exact List.subset_append_left _ _
    · exact List.Subset.trans (ih hm) (List.subset_append_right _ _)

theorem TypeDecl.members_subset (d : TypeDecl) :
    Member.placementsOfList file (outer ++ [d.header.symbol]) d.members ⊆
      d.placements file outer imports := by
  obtain ⟨h, members⟩ := d
  rw [TypeDecl.placements, TypeHeader.symbol_component]
  refine List.subset_cons_of_subset _ (List.subset_append_of_subset_left _ ?_)
  exact List.subset_append_right _ _

theorem ConstantDecl.body_subset {d : ConstantDecl} {body : List Member} (hb : d.body = some body) :
    Member.placementsOfList file (outer ++ [d.header.symbol]) body ⊆
      d.placements file outer := by
  obtain ⟨h, _ | members⟩ := d
  · cases hb
  · obtain rfl : members = body := Option.some.inj hb
    rw [ConstantDecl.placements, Scope.symbol_constantComponent]
    exact List.subset_cons_of_subset _ (List.subset_append_left _ _)

theorem CallableDecl.localTypes_subset (c : CallableDecl) (kind : ComponentKind) :
    TypeDecl.placementsOfList file (outer ++ [c.header.symbol kind]) [] c.localTypes ⊆
      c.placements file outer kind := by
  obtain ⟨h, localTypes⟩ := c
  rw [CallableDecl.placements, Scope.symbol_callableComponent]
  exact List.subset_cons_of_subset _ (List.subset_append_right _ _)

theorem Member.placements_of_callable {m : Member} {kind : ComponentKind} {c : CallableDecl}
    (hc : m.callable? = some (kind, c)) : m.placements file outer = c.placements file outer kind := by
  cases m <;> cases hc <;> rw [Member.placements]

end Placements

namespace CompilationUnit

variable {naming : Naming} {u : CompilationUnit} {x : List Symbol}

theorem HasBody.placements_subset {ms : List Member} (h : u.HasBody naming x ms) :
    Member.placementsOfList u.source x ms ⊆ u.placements naming := by
  induction h with
  | topLevel hd =>
    exact List.Subset.trans (TypeDecl.members_subset _)
      (List.Subset.trans (TypeDecl.placements_subset hd) (List.subset_append_right _ _))
  | memberType _ hd ih =>
    refine List.Subset.trans ?_ (List.Subset.trans (Member.placements_subset hd) ih)
    rw [Member.placements]
    exact TypeDecl.members_subset _
  | constantBody _ hd hb ih =>
    refine List.Subset.trans ?_ (List.Subset.trans (Member.placements_subset hd) ih)
    rw [Member.placements]
    exact ConstantDecl.body_subset hb
  | localType _ hm hc hd ih =>
    refine List.Subset.trans ?_ (List.Subset.trans (Member.placements_subset hm) ih)
    rw [Member.placements_of_callable hc]
    exact List.Subset.trans (TypeDecl.members_subset _)
      (List.Subset.trans (TypeDecl.placements_subset hd) (CallableDecl.localTypes_subset _ _))

theorem DeclaresCallable.mem_placements {kind : ComponentKind} {h : CallableHeader}
    (hdeclares : u.DeclaresCallable naming x kind h) :
    ⟨x, Scope.callableComponent kind h, false⟩ ∈ u.placements naming := by
  obtain ⟨ms, m, ⟨header, localTypes⟩, hbody, hm, hc, rfl⟩ := hdeclares
  refine hbody.placements_subset (Member.placements_subset hm ?_)
  rw [Member.placements_of_callable hc, CallableDecl.placements]
  exact List.mem_cons_self

theorem DeclaresCallable.exists_follow_skeleton {kind : ComponentKind} {h : CallableHeader}
    (hdeclares : u.DeclaresCallable naming x kind h) :
    ∃ id, (u.skeleton naming).follow root (x ++ [h.symbol kind]) = some id := by
  obtain ⟨id, hid, -⟩ := (u.builds_placements {} { naming }).placed _ hdeclares.mem_placements rfl
  rw [Placement.path, Scope.symbol_callableComponent] at hid
  exact ⟨id, hid⟩

/-- In either phase the callable has a component in the tree of the unit. -/
theorem DeclaresCallable.exists_follow {kind : ComponentKind} {h : CallableHeader}
    {app : Application} (hdeclares : u.DeclaresCallable app.naming x kind h) (s : Scope)
    (phase : Phase) :
    ∃ id, (s.build app phase u).1.follow root (x ++ [h.symbol kind]) = some id := by
  rw [(u.alike_skeleton s app phase).sameShape.follow]
  exact hdeclares.exists_follow_skeleton

theorem DeclaresCallable.exists_follow_analyze {kind : ComponentKind} {h : CallableHeader}
    (hdeclares : u.DeclaresCallable naming x kind h) (libraries : List Library)
    {units : List CompilationUnit} (hu : u ∈ units) :
    ∃ id, (analyze naming libraries units).1.components.follow root (x ++ [h.symbol kind]) =
      some id :=
  Tree.isSome_entry_iff.1 ((isSome_entry_analyze naming libraries units x _).2
    ⟨u, hu, Tree.isSome_entry_iff.2 hdeclares.exists_follow_skeleton⟩)

end CompilationUnit

/-! ## Children apart -/

namespace Tree

/-- The path leads to a node with two different children of the two symbols. -/
def KeepsApart (t : Tree) (top : NodeId) (path : List Symbol) (s s' : Symbol) : Prop :=
  ∃ id i j, t.follow top path = some id ∧ i ∈ t.children id ∧ j ∈ t.children id ∧ i ≠ j ∧
    (t.node i).symbol = s ∧ (t.node j).symbol = s'

theorem keepsApart_of_follow {t : Tree} {top i j : NodeId} {path : List Symbol} {s s' : Symbol}
    (hi : t.follow top (path ++ [s]) = some i) (hj : t.follow top (path ++ [s']) = some j)
    (hne : s ≠ s') : t.KeepsApart top path s s' := by
  rw [follow_concat] at hi hj
  obtain ⟨id, hid, hi⟩ := Option.bind_eq_some_iff.1 hi
  rw [hid, Option.bind_some] at hj
  have hsi := symbol_of_childWith hi
  have hsj := symbol_of_childWith hj
  refine ⟨id, i, j, hid, mem_children_of_childWith hi, mem_children_of_childWith hj, ?_, hsi, hsj⟩
  rintro rfl
  exact hne (hsi.symm.trans hsj)

/-- What a tree can become by merges, of any trees at any of its nodes. -/
inductive MergesTo (t : Tree) : Tree → Prop
  | refl : MergesTo t t
  | mergeAt {t' : Tree} {target : NodeId} (source : Tree) (id : NodeId) (h : MergesTo t t')
      (htarget : target < t'.size) : MergesTo t (t'.mergeAt target source id)

theorem MergesTo.extends {t t' : Tree} (h : t.MergesTo t') (hlinked : t.Linked) :
    t'.Linked ∧ t.Extends t' := by
  induction h with
  | refl => exact ⟨hlinked, Extends.refl t⟩
  | mergeAt source id _ htarget ih =>
    obtain ⟨hlinked', hext⟩ := linked_mergeAt source id ih.1 htarget
    exact ⟨hlinked', ih.2.trans hext⟩

/-- A path of a tree leads on after the tree was merged and after all merges that follow. -/
theorem exists_follow_of_mergesTo {t t' source : Tree} {target j : NodeId} {path : List Symbol}
    (hsource : source.Grown) (hlinked : t.Linked) (htarget : target < t.size)
    (hj : source.follow root path = some j)
    (hmerges : (t.mergeAt target source root).MergesTo t') :
    ∃ i, t'.follow target path = some i := by
  obtain ⟨hlinked', hext⟩ := linked_mergeAt source root hlinked htarget
  obtain ⟨i, hi, -⟩ :=
    absorbs_mergeAt hsource.acyclic hsource.uniqueSiblings root hlinked htarget path j hj
  exact ⟨i, hlinked'.follow_extends (hmerges.extends hlinked').2 (hext.lt htarget) hi⟩

end Tree

/-! ## Overloads -/

/-- Two constructors or methods with plain parameter types have one signature just when they have
the same parameters. If they do not, then wherever a unit declares both in the body of one type they
have two components: in the tree of the unit, in any tree with this one merged into it and whatever
is merged after that, and in the result of every run over the unit. -/
theorem overloads_apart {c d : CallableHeader} (hc : c.IsPlain) (hd : d.IsPlain) :
    (c.signature = d.signature ↔ c.SameParameters d) ∧
    (¬ c.SameParameters d → ∀ (naming : Naming) (u : CompilationUnit) (x : List Symbol)
      (kind : ComponentKind), u.DeclaresCallable naming x kind c →
      u.DeclaresCallable naming x kind d →
      (∀ (app : Application) (s : Scope) (phase : Phase), app.naming = naming →
        (s.build app phase u).1.KeepsApart root x (c.symbol kind) (d.symbol kind) ∧
        ∀ (t t' : Tree) (target : NodeId), t.Linked → target < t.size →
          (t.mergeAt target (s.build app phase u).1 root).MergesTo t' →
          t'.KeepsApart target x (c.symbol kind) (d.symbol kind)) ∧
      ∀ (libraries : List Library) (units : List CompilationUnit), u ∈ units →
        (analyze naming libraries units).1.components.KeepsApart root x (c.symbol kind)
          (d.symbol kind)) := by
  have hsignature := CallableHeader.signature_eq_iff hc hd
  refine ⟨hsignature, fun hdiffer naming u x kind hdeclc hdecld => ?_⟩
  have hne : c.symbol kind ≠ d.symbol kind := fun hsame =>
    hdiffer (hsignature.1 (Option.some.inj (congrArg Symbol.signature hsame)))
  refine ⟨?_, ?_⟩
  · rintro app s phase rfl
    obtain ⟨i, hi⟩ := hdeclc.exists_follow s phase
    obtain ⟨j, hj⟩ := hdecld.exists_follow s phase
    refine ⟨Tree.keepsApart_of_follow hi hj hne, fun t t' target hlinked htarget hmerges => ?_⟩
    have hgrown : (s.build app phase u).1.Grown :=
      (u.grown_skeleton app.naming).of_sameShape (u.alike_skeleton s app phase).sameShape
    obtain ⟨i', hi'⟩ := Tree.exists_follow_of_mergesTo hgrown hlinked htarget hi hmerges
    obtain ⟨j', hj'⟩ := Tree.exists_follow_of_mergesTo hgrown hlinked htarget hj hmerges
    exact Tree.keepsApart_of_follow hi' hj' hne
  · intro libraries units hu
    obtain ⟨i, hi⟩ := hdeclc.exists_follow_analyze libraries hu
    obtain ⟨j, hj⟩ := hdecld.exists_follow_analyze libraries hu
    exact Tree.keepsApart_of_follow hi hj hne

/-! Two methods of one name -/

/-- A method with one parameter. -/
def overload (declaredType : String) (variadic : Bool) : CallableHeader where
  name := "m"
  modifiers := []
  typeParameters := []
  parameters := [⟨"a", [], declaredType, variadic, default⟩]
  returnType := some "void"
  span := default

def overloadedType : TypeDecl :=
  .mk ⟨.classType, "A", [], [], none, [], false, default⟩
    [.method (.mk (overload "Map<String, Integer>" false) []),
      .method (.mk (overload "int" true) [])]

def overloadedUnit : CompilationUnit where
  sourceName := "A.java"
  package := some ⟨["p"], default⟩
  imports := []
  types := [overloadedType]

theorem declares_overload {declaredType : String} {variadic : Bool}
    (h : .method (.mk (overload declaredType variadic) []) ∈ overloadedType.members) :
    overloadedUnit.DeclaresCallable {} [packageSymbol "p", ⟨.classType, "A", none⟩] .method
      (overload declaredType variadic) := by
  have hbody : overloadedUnit.HasBody {} [packageSymbol "p", ⟨.classType, "A", none⟩]
      overloadedType.members :=
    @CompilationUnit.HasBody.topLevel {} overloadedUnit overloadedType (List.mem_singleton_self _)
  exact ⟨_, _, _, hbody, h, rfl, rfl⟩

theorem overloads_apart_mapAndInts :
    (overload "Map<String, Integer>" false).IsPlain ∧ (overload "int" true).IsPlain ∧
      ¬ (overload "Map<String, Integer>" false).SameParameters (overload "int" true) ∧
      (analyze {} [] [overloadedUnit]).1.components.KeepsApart root
        [packageSymbol "p", ⟨.classType, "A", none⟩]
        ⟨.method, "m", some "(Map<String,Integer>)"⟩ ⟨.method, "m", some "(int...)"⟩ := by
  have hmap : (overload "Map<String, Integer>" false).IsPlain := by decide +kernel
  have hints : (overload "int" true).IsPlain := by decide +kernel
  have hdiffer : ¬ (overload "Map<String, Integer>" false).SameParameters (overload "int" true) := by
    rintro (_ | ⟨⟨-, hvariadic⟩, -⟩)
    cases hvariadic
  have hapart := ((overloads_apart hmap hints).2 hdiffer {} overloadedUnit _ .method
    (declares_overload List.mem_cons_self)
    (declares_overload (List.mem_cons_of_mem _ List.mem_cons_self))).2 [] [overloadedUnit]
    (List.mem_singleton_self _)
  have hfirst : (overload "Map<String, Integer>" false).symbol .method =
      ⟨.method, "m", some "(Map<String,Integer>)"⟩ := by decide +kernel
  have hsecond : (overload "int" true).symbol .method = ⟨.method, "m", some "(int...)"⟩ := by
    decide +kernel
  rw [hfirst, hsecond] at hapart
  exact ⟨hmap, hints, hdiffer, hapart⟩

end SymbolTable
