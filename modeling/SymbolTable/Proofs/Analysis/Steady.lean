import SymbolTable.Proofs.Analysis.Skeleton

/-!
# Placements find their place

A placement below a path that the tree lacks does nothing. The placements of a unit come in an order
in which this never happens: each one lies below the path of an earlier one. So what a tree has at a
path in the end can be read off the list, one placement at a time.
-/

namespace SymbolTable

open SymbolTable.Tree (root)

/-- Each placement finds its outer path when its turn comes. -/
inductive Tree.Steady : Tree → List Placement → Prop
  | nil {t : Tree} : Steady t []
  | cons {t : Tree} {p : Placement} {pls : List Placement} (hkind : p.component.kind ≠ .root)
      (hp : (t.follow root p.outer).isSome) (h : Steady (t.place p) pls) : Steady t (p :: pls)

namespace Tree

theorem Grown.extends_place {t : Tree} (h : t.Grown) (p : Placement) : t.Extends (t.place p) := by
  rcases t.place_cases p with heq | ⟨id, hid, heq⟩
  · rw [heq]
    exact Extends.refl t
  · rw [heq]
    exact extends_put t _ (h.follow_lt h.root_lt hid)

theorem Extends.isSome_follow {t t' : Tree} (he : t.Extends t') (h : t.Grown) {x : List Symbol}
    (hx : (t.follow root x).isSome) : (t'.follow root x).isSome := by
  obtain ⟨id, hid⟩ := Option.isSome_iff_exists.1 hx
  exact Option.isSome_iff_exists.2 ⟨id, he.follow h h.root_lt hid⟩

namespace Steady

variable {t : Tree} {pls more : List Placement}

theorem grown_extends (hs : t.Steady pls) (h : t.Grown) :
    (pls.foldl place t).Grown ∧ t.Extends (pls.foldl place t) := by
  induction hs with
  | nil => exact ⟨h, Extends.refl _⟩
  | cons hkind _ _ ih =>
    obtain ⟨hgrown, hextends⟩ := ih (h.place hkind)
    exact ⟨hgrown, (h.extends_place _).trans hextends⟩

theorem append (hs : t.Steady pls) (hmore : (pls.foldl place t).Steady more) :
    t.Steady (pls ++ more) := by
  induction hs with
  | nil => exact hmore
  | cons hkind hp _ ih => exact .cons hkind hp (ih hmore)

end Steady

end Tree

/-! ## Placements below a path -/

/-- The placements find their places in every tree that has the path. -/
def SteadyAt (outer : List Symbol) (pls : List Placement) : Prop :=
  ∀ t : Tree, t.Grown → (∀ p ∈ pls, p.component.kind ≠ .root) →
    (t.follow root outer).isSome → t.Steady pls

namespace SteadyAt

variable {outer : List Symbol} {pls more : List Placement}

theorem nil : SteadyAt outer [] := fun _ _ _ _ => .nil

theorem append (h : SteadyAt outer pls) (hmore : SteadyAt outer more) :
    SteadyAt outer (pls ++ more) := by
  intro t ht hkinds hx
  have hs := h t ht (fun p hp => hkinds p (List.mem_append_left more hp)) hx
  obtain ⟨hgrown, hextends⟩ := hs.grown_extends ht
  exact hs.append (hmore _ hgrown (fun p hp => hkinds p (List.mem_append_right pls hp))
    (hextends.isSome_follow ht hx))

theorem one (c : Component) (fallback : Bool) : SteadyAt outer [⟨outer, c, fallback⟩] :=
  fun _ _ hkinds hx => .cons (hkinds _ (List.mem_singleton_self _)) hx .nil

theorem map {α : Type} (f : α → Component) (as : List α) :
    SteadyAt outer (as.map fun a => ⟨outer, f a, false⟩) := by
  induction as with
  | nil => exact nil
  | cons a as ih => exact (one (f a) false).append ih

/-- A component is there for what is placed below it. -/
theorem below {c : Component} (h : SteadyAt (outer ++ [c.symbol]) pls) :
    SteadyAt outer (⟨outer, c, false⟩ :: pls) := by
  intro t ht hkinds hx
  have hkind := hkinds _ List.mem_cons_self
  obtain ⟨id, hid⟩ := Option.isSome_iff_exists.1 hx
  have hplace : t.place ⟨outer, c, false⟩ = (t.put id c).2 := by simp [Tree.place, hid]
  refine .cons hkind hx (h _ (ht.place hkind) (fun p hp => hkinds p (.tail _ hp)) ?_)
  rw [hplace, ht.follow_put hid]
  rfl

end SteadyAt

section Syntax

variable (file : Option Attribute)

theorem TypeHeader.steady_closing (h : TypeHeader) (here : List Symbol) :
    SteadyAt here (h.closing here) := by
  unfold closing
  cases h.kind with
  | classType => exact .one _ true
  | enumType => exact .one _ true
  | interfaceType => exact .nil
  | annotationType => exact .nil

mutual
theorem TypeDecl.steady (outer : List Symbol) (imports : List Component) :
    ∀ d : TypeDecl, SteadyAt outer (d.placements file outer imports)
  | .mk h members => by
    rw [TypeDecl.placements]
    refine .below (.append (.append (.append ?_ ?_) ?_) ?_)
    · exact .map id imports
    · exact .map typeParameterComponent h.typeParameters
    · exact Member.steadyList _ members
    · exact h.steady_closing _

theorem TypeDecl.steadyList (outer : List Symbol) (imports : List Component) :
    ∀ ds : List TypeDecl, SteadyAt outer (TypeDecl.placementsOfList file outer imports ds)
  | [] => by
    rw [TypeDecl.placementsOfList]
    exact .nil
  | d :: rest => by
    rw [TypeDecl.placementsOfList]
    exact .append (TypeDecl.steady outer imports d) (TypeDecl.steadyList outer imports rest)

theorem Member.steady (outer : List Symbol) :
    ∀ m : Member, SteadyAt outer (m.placements file outer)
  | .type d => by
    rw [Member.placements]
    exact TypeDecl.steady outer [] d
  | .constructor d => by
    rw [Member.placements]
    exact CallableDecl.steady outer .constructor d
  | .method d => by
    rw [Member.placements]
    exact CallableDecl.steady outer .method d
  | .field f => by
    rw [Member.placements]
    exact .map (Scope.fieldComponent f) f.names
  | .enumConstant d => by
    rw [Member.placements]
    exact ConstantDecl.steady outer d

theorem Member.steadyList (outer : List Symbol) :
    ∀ ms : List Member, SteadyAt outer (Member.placementsOfList file outer ms)
  | [] => by
    rw [Member.placementsOfList]
    exact .nil
  | m :: rest => by
    rw [Member.placementsOfList]
    exact .append (Member.steady outer m) (Member.steadyList outer rest)

theorem CallableDecl.steady (outer : List Symbol) (kind : ComponentKind) :
    ∀ d : CallableDecl, SteadyAt outer (d.placements file outer kind)
  | .mk h localTypes => by
    rw [CallableDecl.placements]
    refine .below (.append (.append ?_ ?_) ?_)
    · exact .map typeParameterComponent h.typeParameters
    · exact .map Scope.parameterComponent h.parameters
    · exact TypeDecl.steadyList _ [] localTypes

theorem ConstantDecl.steady (outer : List Symbol) :
    ∀ d : ConstantDecl, SteadyAt outer (d.placements file outer)
  | .mk h none => by
    rw [ConstantDecl.placements]
    exact .below (.one _ true)
  | .mk h (some body) => by
    rw [ConstantDecl.placements]
    exact .below (.append (Member.steadyList _ body) (.one _ true))
end

end Syntax

/-- Packages are there for what is placed below the last of them. -/
theorem steady_packagePlacements (outer : List Symbol) (names : List String)
    {pls : List Placement} (h : SteadyAt (outer ++ names.map packageSymbol) pls) :
    SteadyAt outer (packagePlacements outer names ++ pls) := by
  induction names generalizing outer with
  | nil =>
    rw [List.map_nil, List.append_nil] at h
    exact h
  | cons name names ih =>
    rw [packagePlacements, List.cons_append]
    rw [List.map_cons, List.append_cons] at h
    exact .below (ih _ h)

theorem CompilationUnit.steady_placements (naming : Naming) (u : CompilationUnit) :
    Tree.empty.Steady (u.placements naming) := by
  have htypes := TypeDecl.steadyList u.source (u.packagePath naming) (u.listedImports naming)
    u.types
  have hroot : SteadyAt [] (u.placements naming) := by
    rw [placements, CompilationUnit.packagePlacements]
    cases hp : u.package with
    | some p =>
      have hpath : u.packagePath naming = [] ++ p.segments.map packageSymbol := by
        rw [packagePath, hp]
        rfl
      rw [hpath] at htypes ⊢
      exact steady_packagePlacements [] p.segments htypes
    | none =>
      by_cases ht : u.types = []
      · rw [ht, TypeDecl.placementsOfList]
        exact .nil
      · have hpath : u.packagePath naming = [] ++ [packageSymbol naming.defaultPackage] := by
          rw [packagePath, hp]
          rfl
        simp only [List.isEmpty_iff, ht, if_false]
        rw [hpath] at htypes ⊢
        exact .below htypes
  exact hroot _ Tree.grown_empty (u.kind_placements naming) rfl

end SymbolTable
