import SymbolTable.Application.Visibility
import SymbolTable.Proofs.Tree.WayUp

/-!
# What is around a component

The package of a component, the types around it, its ancestors of some kind and the ancestors that
pass a filter are found by walks of their own. In a tree whose parent links have no cycles they all
go along one chain, the component and its parents below the root, whether or not the component is
attached.
-/

namespace SymbolTable

namespace Application

/-- The components around `r` below the root, nearest first. -/
def enclosing (app : Application) (r : ComponentRef) : List ComponentRef :=
  ((app.tree r.origin).parents r.id).map fun id => ⟨r.origin, id⟩

/-- Every search upwards from `r` looks at `r` and at the components around it, in this order, or at
the latter alone. The outermost of them is the last one. -/
structure SearchesOneChain (app : Application) (r : ComponentRef) : Prop where
  enclosing_step : app.enclosing r =
    match app.parent r with
    | none => []
    | some p => if (app.get p).kind = .root then [] else p :: app.enclosing p
  lineage : ∀ accept, app.lineage r accept true =
    (r :: app.enclosing r).filter fun a => accept (app.get a)
  containingType : app.containingType r =
    ((app.enclosing r).find? fun a => (app.get a).kind.isTypeDeclaration).elim
      (.error (.notEnclosed (app.get r))) .ok
  containingType_fails : (∃ e, app.containingType r = .error e) ↔
    ∀ a ∈ app.enclosing r, ¬ (app.get a).kind.isTypeDeclaration
  topLevelType : app.topLevelType r =
    ((r :: app.enclosing r).filter fun a => (app.get a).kind.isTypeDeclaration).getLast?.elim
      (.error (.notInside (app.get r))) .ok
  topLevelType_fails : (∃ e, app.topLevelType r = .error e) ↔
    ∀ a ∈ r :: app.enclosing r, ¬ (app.get a).kind.isTypeDeclaration
  packageOf : app.packageOf r =
    (((r :: app.enclosing r).filter fun a => (app.get a).kind = .package).map
      fun a => (app.get a).value).reverse
  ancestorOfKind : ∀ kind ≠ .root,
    ((app.tree r.origin).findAncestor r.id fun c => c.kind = kind).map (ComponentRef.mk r.origin) =
      (app.enclosing r).find? fun a => (app.get a).kind = kind

variable (app : Application) (r : ComponentRef)

theorem isTypeDeclaration_of_root (c : Component) (h : c.kind = .root) :
    c.kind.isTypeDeclaration = false := by
  rw [h]
  rfl

theorem exists_error_elim_iff {ε α : Type} (found : Option α) (e : ε) :
    (∃ e', found.elim (.error e) .ok = (.error e' : Except ε α)) ↔ found = none := by
  cases found <;> simp

/-- A filter on the chain of references is one on the chain of their nodes. -/
theorem filter_chain (accept : Component → Bool) :
    (r :: app.enclosing r).filter (fun a => accept (app.get a)) =
      ((r.id :: (app.tree r.origin).parents r.id).filter
        fun a => accept ((app.tree r.origin).node a)).map (ComponentRef.mk r.origin) := by
  have hchain : r :: app.enclosing r =
      (r.id :: (app.tree r.origin).parents r.id).map (ComponentRef.mk r.origin) := rfl
  rw [hchain, List.filter_map]
  rfl

theorem find?_enclosing (accept : Component → Bool) :
    (app.enclosing r).find? (fun a => accept (app.get a)) =
      (((app.tree r.origin).parents r.id).find?
        fun a => accept ((app.tree r.origin).node a)).map (ComponentRef.mk r.origin) := by
  rw [enclosing, List.find?_map]
  rfl

/-- The package is read off the chain, outermost first, without a walk. -/
theorem packageOf_eq : app.packageOf r =
    (((r :: app.enclosing r).filter fun a => (app.get a).kind = .package).map
      fun a => (app.get a).value).reverse := by
  rw [filter_chain app r fun c => decide (c.kind = .package), List.map_map, packageOf,
    ← List.reverse_cons, List.filter_reverse, List.map_reverse]
  rfl

section Climbable

variable {app r} (h : (app.tree r.origin).Climbable r.id)
  (hroot : ∀ i < (app.tree r.origin).size, ((app.tree r.origin).node i).kind = .root →
    (app.tree r.origin).parent i = none)
include h

/-- The chain goes on until a component has no parent or one of kind `root`. -/
theorem enclosing_eq : app.enclosing r =
    match app.parent r with
    | none => []
    | some p => if (app.get p).kind = .root then [] else p :: app.enclosing p := by
  rw [enclosing, parent, h.climbsFreely.parents]
  cases (app.tree r.origin).parent r.id with
  | none => rfl
  | some p =>
    by_cases hkind : ((app.tree r.origin).node p).kind = .root
    · simp [get, hkind]
    · simp [get, hkind, enclosing]

theorem lineage_eq_filter (accept : Component → Bool) :
    app.lineage r accept true = (r :: app.enclosing r).filter fun a => accept (app.get a) := by
  rw [filter_chain, lineage, h.lineage_eq]

include hroot

theorem containingType_eq : app.containingType r =
    ((app.enclosing r).find? fun a => (app.get a).kind.isTypeDeclaration).elim
      (.error (.notEnclosed (app.get r))) .ok := by
  rw [find?_enclosing app r (·.kind.isTypeDeclaration), containingType,
    h.findAncestor_eq_find?_parents hroot isTypeDeclaration_of_root]
  cases ((app.tree r.origin).parents r.id).find? _ <;> rfl

theorem topLevelType_eq_getLast? : app.topLevelType r =
    ((r :: app.enclosing r).filter fun a => (app.get a).kind.isTypeDeclaration).getLast?.elim
      (.error (.notInside (app.get r))) .ok := by
  rw [filter_chain app r (·.kind.isTypeDeclaration), List.getLast?_map, topLevelType,
    h.outermost_eq_getLast?_parents hroot isTypeDeclaration_of_root]
  cases (List.filter _ (r.id :: (app.tree r.origin).parents r.id)).getLast? <;> rfl

end Climbable

/-- In a tree without cycles in which the root has no parent and neither has any other node of kind
`root`, all searches upwards from a component, attached or not, see the chain of the component and
its parents. That the root has no parent is an assumption of its own: without cycles it may still
link up to a node that hangs nowhere. -/
theorem searches_one_chain (h : (app.tree r.origin).AcyclicParents)
    (hroot : ∀ i < (app.tree r.origin).size, ((app.tree r.origin).node i).kind = .root →
      (app.tree r.origin).parent i = none)
    (hid : r.id < (app.tree r.origin).size) : app.SearchesOneChain r := by
  have hclimb := h.climbable hid
  have hcontaining := containingType_eq hclimb hroot
  have htop := topLevelType_eq_getLast? hclimb hroot
  refine {
    enclosing_step := enclosing_eq hclimb
    lineage := lineage_eq_filter hclimb
    containingType := hcontaining
    containingType_fails := ?_
    topLevelType := htop
    topLevelType_fails := ?_
    packageOf := packageOf_eq app r
    ancestorOfKind := fun kind hkind => ?_ }
  · rw [hcontaining, exists_error_elim_iff, List.find?_eq_none]
  · rw [htop, exists_error_elim_iff, List.getLast?_eq_none_iff, List.filter_eq_nil_iff]
  · have hrefuse : ∀ c : Component, c.kind = .root → decide (c.kind = kind) = false :=
      fun c hc => decide_eq_false fun hck => hkind (hck.symm.trans hc)
    rw [hclimb.findAncestor_eq_find?_parents hroot hrefuse,
      find?_enclosing app r fun c => decide (c.kind = kind)]

/-- A method of a class nested in a class of the package `p`, and a field of a class that hangs
nowhere. -/
def nestedApplication : Application where
  naming := {}
  components := ⟨#[
    { kind := .root, value := "ROOT", children := [1] },
    { kind := .package, value := "p", children := [2], parent := some 0 },
    { kind := .classType, value := "A", children := [3], parent := some 1 },
    { kind := .classType, value := "In", children := [4], parent := some 2 },
    { kind := .method, value := "m", parent := some 3 },
    { kind := .classType, value := "B", children := [6] },
    { kind := .field, value := "f", parent := some 5 }]⟩

theorem searches_one_chain_nested :
    nestedApplication.components.AcyclicParents ∧
    (∀ i < nestedApplication.components.size,
      (nestedApplication.components.node i).kind = .root →
        nestedApplication.components.parent i = none) ∧
    4 < nestedApplication.components.size ∧ 6 < nestedApplication.components.size ∧
    nestedApplication.SearchesOneChain (.program 4) ∧
    nestedApplication.SearchesOneChain (.program 6) := by
  have hacyclic : nestedApplication.components.AcyclicParents :=
    Tree.acyclicParents_of_rank (fun id => id) (by decide)
  have hroot : ∀ i < nestedApplication.components.size,
      (nestedApplication.components.node i).kind = .root →
        nestedApplication.components.parent i = none := by decide
  exact ⟨hacyclic, hroot, by decide, by decide,
    searches_one_chain nestedApplication (.program 4) hacyclic hroot (by decide),
    searches_one_chain nestedApplication (.program 6) hacyclic hroot (by decide)⟩

end Application

end SymbolTable
