import SymbolTable.Proofs.Analysis.DeclaredTypes

/-!
# The bodies that a unit closes

The body of a type or of an enum constant may declare constructors, and when it closes a class, an
enum or a constant gets a default constructor unless it has one. Read path by path, the constructor
placements of a unit are those of its bodies, one body after the other: bodies at one path never lie
in each other.
-/

namespace SymbolTable

open SymbolTable.Tree (root)

/-- Whether declarations of the kind get a default constructor. -/
def ComponentKind.closes : ComponentKind → Bool
  | .classType | .enumType | .enumConstant => true
  | _ => false

/-- The body of a type or an enum constant: whose it is, and which constructors it declares. -/
structure DeclaredBody where
  outer : List Symbol
  symbol : Symbol
  constructors : List CallableHeader

def constructorPlacement (here : List Symbol) (h : CallableHeader) : Placement :=
  ⟨here, Scope.callableComponent .constructor h, false⟩

/-- What closing a declaration of the symbol places below it. -/
def closingPlacements (here : List Symbol) (s : Symbol) : List Placement :=
  if s.kind.closes then [⟨here, defaultConstructor s.value, true⟩] else []

namespace DeclaredBody

def path (b : DeclaredBody) : List Symbol := b.outer ++ [b.symbol]

/-- The constructors of the body, then the default one. -/
def placements (b : DeclaredBody) : List Placement :=
  b.constructors.map (constructorPlacement b.path) ++ closingPlacements b.path b.symbol

end DeclaredBody

def Member.constructors : Member → List CallableHeader
  | .constructor d => [d.header]
  | .type _ | .method _ | .field _ | .enumConstant _ => []

mutual
def TypeDecl.bodies (outer : List Symbol) : TypeDecl → List DeclaredBody
  | .mk h members =>
    ⟨outer, h.symbol, members.flatMap Member.constructors⟩ ::
      Member.bodiesOfList (outer ++ [h.symbol]) members

def TypeDecl.bodiesOfList (outer : List Symbol) : List TypeDecl → List DeclaredBody
  | [] => []
  | d :: rest => d.bodies outer ++ TypeDecl.bodiesOfList outer rest

def Member.bodies (outer : List Symbol) : Member → List DeclaredBody
  | .type d => d.bodies outer
  | .constructor d => d.bodies outer .constructor
  | .method d => d.bodies outer .method
  | .field _ => []
  | .enumConstant d => d.bodies outer

def Member.bodiesOfList (outer : List Symbol) : List Member → List DeclaredBody
  | [] => []
  | m :: rest => m.bodies outer ++ Member.bodiesOfList outer rest

def CallableDecl.bodies (outer : List Symbol) (kind : ComponentKind) :
    CallableDecl → List DeclaredBody
  | .mk h localTypes => TypeDecl.bodiesOfList (outer ++ [⟨kind, h.name, some h.signature⟩]) localTypes

def ConstantDecl.bodies (outer : List Symbol) : ConstantDecl → List DeclaredBody
  | .mk h none => [⟨outer, ⟨.enumConstant, h.name, none⟩, []⟩]
  | .mk h (some body) =>
    ⟨outer, ⟨.enumConstant, h.name, none⟩, body.flatMap Member.constructors⟩ ::
      Member.bodiesOfList (outer ++ [⟨.enumConstant, h.name, none⟩]) body
end

/-- The bodies of a unit at any depth, in the order of their declarations. -/
def CompilationUnit.declaredBodies (naming : Naming) (u : CompilationUnit) : List DeclaredBody :=
  TypeDecl.bodiesOfList (u.packagePath naming) u.types

/-! ## Bodies lie below the path around them -/

mutual
theorem TypeDecl.prefix_bodies (outer : List Symbol) :
    ∀ d : TypeDecl, ∀ b ∈ d.bodies outer, outer <+: b.outer
  | .mk h members, b, hb => by
    rw [TypeDecl.bodies, List.mem_cons] at hb
    rcases hb with rfl | hb
    · exact List.prefix_rfl
    · exact (List.prefix_append _ _).trans (Member.prefix_bodiesOfList _ members b hb)

theorem TypeDecl.prefix_bodiesOfList (outer : List Symbol) :
    ∀ ds : List TypeDecl, ∀ b ∈ TypeDecl.bodiesOfList outer ds, outer <+: b.outer
  | [], b, hb => by
    rw [TypeDecl.bodiesOfList] at hb
    exact absurd hb List.not_mem_nil
  | d :: rest, b, hb => by
    rw [TypeDecl.bodiesOfList, List.mem_append] at hb
    rcases hb with hb | hb
    · exact TypeDecl.prefix_bodies outer d b hb
    · exact TypeDecl.prefix_bodiesOfList outer rest b hb

theorem Member.prefix_bodies (outer : List Symbol) :
    ∀ m : Member, ∀ b ∈ m.bodies outer, outer <+: b.outer
  | .type d, b, hb => by
    rw [Member.bodies] at hb
    exact TypeDecl.prefix_bodies outer d b hb
  | .constructor d, b, hb => by
    rw [Member.bodies] at hb
    exact CallableDecl.prefix_bodies outer .constructor d b hb
  | .method d, b, hb => by
    rw [Member.bodies] at hb
    exact CallableDecl.prefix_bodies outer .method d b hb
  | .field _, b, hb => by
    rw [Member.bodies] at hb
    exact absurd hb List.not_mem_nil
  | .enumConstant d, b, hb => by
    rw [Member.bodies] at hb
    exact ConstantDecl.prefix_bodies outer d b hb

theorem Member.prefix_bodiesOfList (outer : List Symbol) :
    ∀ ms : List Member, ∀ b ∈ Member.bodiesOfList outer ms, outer <+: b.outer
  | [], b, hb => by
    rw [Member.bodiesOfList] at hb
    exact absurd hb List.not_mem_nil
  | m :: rest, b, hb => by
    rw [Member.bodiesOfList, List.mem_append] at hb
    rcases hb with hb | hb
    · exact Member.prefix_bodies outer m b hb
    · exact Member.prefix_bodiesOfList outer rest b hb

theorem CallableDecl.prefix_bodies (outer : List Symbol) (kind : ComponentKind) :
    ∀ d : CallableDecl, ∀ b ∈ d.bodies outer kind, outer <+: b.outer
  | .mk h localTypes, b, hb => by
    rw [CallableDecl.bodies] at hb
    exact (List.prefix_append _ _).trans (TypeDecl.prefix_bodiesOfList _ localTypes b hb)

theorem ConstantDecl.prefix_bodies (outer : List Symbol) :
    ∀ d : ConstantDecl, ∀ b ∈ d.bodies outer, outer <+: b.outer
  | .mk h none, b, hb => by
    rw [ConstantDecl.bodies, List.mem_singleton] at hb
    subst hb
    exact List.prefix_rfl
  | .mk h (some body), b, hb => by
    rw [ConstantDecl.bodies, List.mem_cons] at hb
    rcases hb with rfl | hb
    · exact List.prefix_rfl
    · exact (List.prefix_append _ _).trans (Member.prefix_bodiesOfList _ body b hb)
end

/-- The bodies at a path. -/
def bodiesAt (x : List Symbol) (bodies : List DeclaredBody) : List DeclaredBody :=
  bodies.filter (·.path = x)

theorem bodiesAt_append (x : List Symbol) (bs cs : List DeclaredBody) :
    bodiesAt x (bs ++ cs) = bodiesAt x bs ++ bodiesAt x cs := List.filter_append ..

theorem bodiesAt_cons (x : List Symbol) (b : DeclaredBody) (bs : List DeclaredBody) :
    bodiesAt x (b :: bs) = if b.path = x then b :: bodiesAt x bs else bodiesAt x bs := by
  simp [bodiesAt, List.filter_cons]

theorem bodiesAt_of_prefix {x : List Symbol} {bodies : List DeclaredBody}
    (h : ∀ b ∈ bodies, x <+: b.outer) : bodiesAt x bodies = [] := by
  rw [bodiesAt, List.filter_eq_nil_iff]
  intro b hb hpath
  rw [decide_eq_true_eq] at hpath
  have hlong := (h b hb).length_le
  rw [← hpath, DeclaredBody.path, List.length_append, List.length_singleton] at hlong
  exact Nat.not_succ_le_self _ hlong

/-! ## Constructor placements, path by path -/

def Placement.isConstructorAt (x : List Symbol) (p : Placement) : Bool :=
  p.outer = x && p.component.kind.isConstructor

theorem filter_isConstructorAt_of_kind {x : List Symbol} {pls : List Placement}
    (h : ∀ p ∈ pls, p.component.kind.isConstructor = false) :
    pls.filter (·.isConstructorAt x) = [] := by
  rw [List.filter_eq_nil_iff]
  intro p hp
  simp [Placement.isConstructorAt, h p hp]

theorem filter_isConstructorAt_map {α : Type} (x outer : List Symbol) (f : α → Component)
    (as : List α) (h : ∀ a ∈ as, (f a).symbol.kind.isConstructor = false) :
    (as.map fun a => (⟨outer, f a, false⟩ : Placement)).filter (·.isConstructorAt x) = [] :=
  filter_isConstructorAt_of_kind (List.forall_mem_map.2 h)

theorem filter_isConstructorAt_cons {x : List Symbol} {p : Placement} {pls : List Placement}
    (h : p.component.symbol.kind.isConstructor = false) :
    (p :: pls).filter (·.isConstructorAt x) = pls.filter (·.isConstructorAt x) := by
  have hp : p.isConstructorAt x = false := by
    rw [Placement.isConstructorAt, show p.component.kind.isConstructor = false from h,
      Bool.and_false]
  rw [List.filter_cons, hp]
  rfl

theorem filter_closingPlacements (x here : List Symbol) (s : Symbol) :
    (closingPlacements here s).filter (·.isConstructorAt x) =
      if here = x then closingPlacements here s else [] := by
  unfold closingPlacements
  by_cases hx : here = x
  · rw [if_pos hx]
    split
    · exact List.filter_eq_self.2 fun p hp => by
        rw [List.mem_singleton.1 hp, Placement.isConstructorAt, decide_eq_true hx]
        rfl
    · rfl
  · rw [if_neg hx]
    split
    · exact List.filter_eq_nil_iff.2 fun p hp => by
        simp [List.mem_singleton.1 hp, Placement.isConstructorAt, hx]
    · rfl

theorem filter_constructorPlacement (x outer : List Symbol) (h : CallableHeader) :
    [constructorPlacement outer h].filter (·.isConstructorAt x) =
      if outer = x then [h].map (constructorPlacement x) else [] := by
  have hkind := Scope.kind_callableComponent .constructor h
  by_cases hx : outer = x
  · subst hx
    simp [constructorPlacement, Placement.isConstructorAt, hkind, ComponentKind.isConstructor]
  · simp [constructorPlacement, Placement.isConstructorAt, hx]

/-- A body has the constructors of its members and its own closing, and nothing of what lies in
it. -/
theorem filter_closing {x outer : List Symbol} {s : Symbol} {pls : List Placement}
    {headers : List CallableHeader} {bodies : List DeclaredBody}
    (hpls : pls.filter (·.isConstructorAt x) =
      (if outer ++ [s] = x then headers.map (constructorPlacement x) else []) ++
        (bodiesAt x bodies).flatMap (·.placements))
    (hbodies : ∀ b ∈ bodies, outer ++ [s] <+: b.outer) :
    (pls ++ closingPlacements (outer ++ [s]) s).filter (·.isConstructorAt x) =
      (bodiesAt x (⟨outer, s, headers⟩ :: bodies)).flatMap (·.placements) := by
  rw [List.filter_append, hpls, filter_closingPlacements, bodiesAt_cons, DeclaredBody.path]
  by_cases hx : outer ++ [s] = x
  · subst hx
    simp only [if_true, bodiesAt_of_prefix hbodies, List.flatMap_nil, List.append_nil,
      List.flatMap_cons]
    rfl
  · simp only [if_neg hx, List.nil_append, List.append_nil]

section Syntax

variable (file : Option Attribute) (x : List Symbol)

theorem TypeHeader.closing_eq (h : TypeHeader) (here : List Symbol) :
    h.closing here = closingPlacements here h.symbol := by
  unfold closing closingPlacements TypeHeader.symbol
  cases h.kind <;> rfl

mutual
theorem TypeDecl.filter_constructors {imports : List Component}
    (himports : ∀ i ∈ imports, i.kind.isConstructor = false) (outer : List Symbol) :
    ∀ d : TypeDecl, (d.placements file outer imports).filter (·.isConstructorAt x) =
      (bodiesAt x (d.bodies outer)).flatMap (·.placements)
  | .mk h members => by
    have hself : (h.component file).symbol.kind.isConstructor = false := by
      rw [h.symbol_component, TypeHeader.symbol]
      cases h.kind <;> rfl
    have hlisted := filter_isConstructorAt_map x (outer ++ [h.symbol]) id imports himports
    have hparameters := filter_isConstructorAt_map x (outer ++ [h.symbol]) typeParameterComponent
      h.typeParameters fun p _ => by rw [symbol_typeParameterComponent]; rfl
    rw [TypeDecl.placements, TypeDecl.bodies, h.symbol_component,
      filter_isConstructorAt_cons hself, h.closing_eq]
    refine filter_closing ?_ (Member.prefix_bodiesOfList _ members)
    rw [List.filter_append, List.filter_append, hparameters, List.append_nil,
      Member.filter_constructorsOfList (outer ++ [h.symbol]) members]
    exact congrArg (· ++ _) hlisted

theorem TypeDecl.filter_constructorsOfList {imports : List Component}
    (himports : ∀ i ∈ imports, i.kind.isConstructor = false) (outer : List Symbol) :
    ∀ ds : List TypeDecl,
      (TypeDecl.placementsOfList file outer imports ds).filter (·.isConstructorAt x) =
        (bodiesAt x (TypeDecl.bodiesOfList outer ds)).flatMap (·.placements)
  | [] => by
    rw [TypeDecl.placementsOfList, TypeDecl.bodiesOfList]
    rfl
  | d :: rest => by
    rw [TypeDecl.placementsOfList, TypeDecl.bodiesOfList, List.filter_append, bodiesAt_append,
      List.flatMap_append, TypeDecl.filter_constructors himports outer d,
      TypeDecl.filter_constructorsOfList himports outer rest]

theorem Member.filter_constructors (outer : List Symbol) :
    ∀ m : Member, (m.placements file outer).filter (·.isConstructorAt x) =
      (if outer = x then m.constructors.map (constructorPlacement x) else []) ++
        (bodiesAt x (m.bodies outer)).flatMap (·.placements)
  | .type d => by
    rw [Member.placements, Member.bodies, Member.constructors]
    simpa using TypeDecl.filter_constructors (fun _ hi => absurd hi List.not_mem_nil) outer d
  | .constructor d => by
    rw [Member.placements, Member.bodies, Member.constructors]
    rw [CallableDecl.filter_constructors outer .constructor d]
    exact congrArg (· ++ _) (filter_constructorPlacement x outer d.header)
  | .method d => by
    rw [Member.placements, Member.bodies, Member.constructors]
    rw [CallableDecl.filter_constructors outer .method d, filter_isConstructorAt_cons]
    · simp
    · rw [Scope.symbol_callableComponent]
      rfl
  | .field f => by
    rw [Member.placements, Member.bodies, Member.constructors]
    simpa [bodiesAt] using filter_isConstructorAt_map x outer (Scope.fieldComponent f) f.names
      fun name _ => by rw [Scope.symbol_fieldComponent]; rfl
  | .enumConstant d => by
    rw [Member.placements, Member.bodies, Member.constructors]
    simpa using ConstantDecl.filter_constructors outer d

theorem Member.filter_constructorsOfList (outer : List Symbol) :
    ∀ ms : List Member, (Member.placementsOfList file outer ms).filter (·.isConstructorAt x) =
      (if outer = x then (ms.flatMap Member.constructors).map (constructorPlacement x) else []) ++
        (bodiesAt x (Member.bodiesOfList outer ms)).flatMap (·.placements)
  | [] => by
    rw [Member.placementsOfList, Member.bodiesOfList]
    simp [bodiesAt]
  | m :: rest => by
    rw [Member.placementsOfList, Member.bodiesOfList, List.filter_append, bodiesAt_append,
      Member.filter_constructors outer m, Member.filter_constructorsOfList outer rest]
    by_cases hx : outer = x
    · have hnone := bodiesAt_of_prefix (Member.prefix_bodies outer m)
      subst hx
      simp [hnone]
    · simp [hx]

theorem CallableDecl.filter_constructors (outer : List Symbol) (kind : ComponentKind) :
    ∀ d : CallableDecl, (d.placements file outer kind).filter (·.isConstructorAt x) =
      [(⟨outer, Scope.callableComponent kind d.header, false⟩ : Placement)].filter
          (·.isConstructorAt x) ++
        (bodiesAt x (d.bodies outer kind)).flatMap (·.placements)
  | .mk h localTypes => by
    have hparameters := filter_isConstructorAt_map x (outer ++ [⟨kind, h.name, some h.signature⟩])
      typeParameterComponent h.typeParameters fun p _ => by
        rw [symbol_typeParameterComponent]; rfl
    have hformal := filter_isConstructorAt_map x (outer ++ [⟨kind, h.name, some h.signature⟩])
      Scope.parameterComponent h.parameters fun p _ => by
        rw [Scope.symbol_parameterComponent]; rfl
    rw [CallableDecl.placements, CallableDecl.bodies, Scope.symbol_callableComponent,
      ← List.singleton_append, List.filter_append, List.filter_append, List.filter_append,
      hparameters, hformal,
      TypeDecl.filter_constructorsOfList (fun _ hi => absurd hi List.not_mem_nil) _ localTypes]
    rfl

theorem ConstantDecl.filter_constructors (outer : List Symbol) :
    ∀ d : ConstantDecl, (d.placements file outer).filter (·.isConstructorAt x) =
      (bodiesAt x (d.bodies outer)).flatMap (·.placements)
  | .mk h none => by
    have hself : (Scope.constantComponent h).symbol.kind.isConstructor = false := by
      rw [Scope.symbol_constantComponent]
      rfl
    rw [ConstantDecl.placements, ConstantDecl.bodies, Scope.symbol_constantComponent,
      filter_isConstructorAt_cons hself]
    have hbody : ([] : List Placement).filter (·.isConstructorAt x) =
        (if outer ++ [⟨.enumConstant, h.name, none⟩] = x then
          ([] : List CallableHeader).map (constructorPlacement x) else []) ++
          (bodiesAt x []).flatMap (·.placements) := by simp [bodiesAt]
    exact filter_closing hbody fun _ hb => absurd hb List.not_mem_nil
  | .mk h (some body) => by
    have hself : (Scope.constantComponent h).symbol.kind.isConstructor = false := by
      rw [Scope.symbol_constantComponent]
      rfl
    rw [ConstantDecl.placements, ConstantDecl.bodies, Scope.symbol_constantComponent,
      filter_isConstructorAt_cons hself]
    exact filter_closing (Member.filter_constructorsOfList _ body)
      (Member.prefix_bodiesOfList _ body)
end

end Syntax

theorem CompilationUnit.filter_constructors (naming : Naming) (u : CompilationUnit)
    (x : List Symbol) : (u.placements naming).filter (·.isConstructorAt x) =
      (bodiesAt x (u.declaredBodies naming)).flatMap (·.placements) := by
  have hpackages : (u.packagePlacements naming).filter (·.isConstructorAt x) = [] := by
    apply filter_isConstructorAt_of_kind
    intro p hp
    rw [(u.package_of_mem naming p hp).1]
    rfl
  have himports : ∀ i ∈ u.listedImports naming, i.kind.isConstructor = false := by
    intro i hi
    obtain ⟨kind, hkind⟩ := u.kind_listedImports naming i hi
    rw [hkind]
    rfl
  rw [placements, List.filter_append, hpackages, List.nil_append,
    TypeDecl.filter_constructorsOfList u.source x himports, declaredBodies]

end SymbolTable
