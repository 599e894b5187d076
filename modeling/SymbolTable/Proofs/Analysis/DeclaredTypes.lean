import SymbolTable.Proofs.Analysis.Session

/-!
# The types that a unit declares

Type declarations occur below packages, in types, in the bodies of enum constants and in callables,
to any depth. Each one is listed with the path of the declaration around it; among the placements of
the unit these are exactly the ones whose component is a type.
-/

namespace SymbolTable

open SymbolTable.Tree (root)

def TypeHeader.symbol (h : TypeHeader) : Symbol := ⟨h.kind.componentKind, h.name, none⟩

/-- A type declaration and the path of the declaration around it. -/
structure DeclaredType where
  outer : List Symbol
  header : TypeHeader

def DeclaredType.path (d : DeclaredType) : List Symbol := d.outer ++ [d.header.symbol]

mutual
def TypeDecl.declared (outer : List Symbol) : TypeDecl → List DeclaredType
  | .mk h members => ⟨outer, h⟩ :: Member.declaredOfList (outer ++ [h.symbol]) members

def TypeDecl.declaredOfList (outer : List Symbol) : List TypeDecl → List DeclaredType
  | [] => []
  | d :: rest => d.declared outer ++ TypeDecl.declaredOfList outer rest

def Member.declared (outer : List Symbol) : Member → List DeclaredType
  | .type d => d.declared outer
  | .constructor d => d.declared outer .constructor
  | .method d => d.declared outer .method
  | .field _ => []
  | .enumConstant d => d.declared outer

def Member.declaredOfList (outer : List Symbol) : List Member → List DeclaredType
  | [] => []
  | m :: rest => m.declared outer ++ Member.declaredOfList outer rest

def CallableDecl.declared (outer : List Symbol) (kind : ComponentKind) :
    CallableDecl → List DeclaredType
  | .mk h localTypes =>
    TypeDecl.declaredOfList (outer ++ [⟨kind, h.name, some h.signature⟩]) localTypes

def ConstantDecl.declared (outer : List Symbol) : ConstantDecl → List DeclaredType
  | .mk _ none => []
  | .mk h (some body) => Member.declaredOfList (outer ++ [⟨.enumConstant, h.name, none⟩]) body
end

/-- The types of a unit at any depth, named or anonymous. -/
def CompilationUnit.declaredTypes (naming : Naming) (u : CompilationUnit) : List DeclaredType :=
  TypeDecl.declaredOfList (u.packagePath naming) u.types

/-! ## Their placements -/

def Placement.isType (p : Placement) : Bool := p.component.kind.isTypeDeclaration

theorem TypeHeader.symbol_component (file : Option Attribute) (h : TypeHeader) :
    (h.component file).symbol = h.symbol := Scope.symbol_typeComponent _ h

def DeclaredType.placement (file : Option Attribute) (d : DeclaredType) : Placement :=
  ⟨d.outer, d.header.component file, false⟩

theorem DeclaredType.path_placement (file : Option Attribute) (d : DeclaredType) :
    (d.placement file).path = d.path := by
  rw [Placement.path, placement, d.header.symbol_component]
  rfl

theorem DeclaredType.isType_placement (file : Option Attribute) (d : DeclaredType) :
    (d.placement file).isType = true := by
  have hkind : (d.header.component file).kind = d.header.kind.componentKind :=
    Scope.kind_typeComponent _ d.header
  rw [Placement.isType, placement, hkind]
  cases d.header.kind <;> rfl

theorem filter_isType_of_kind {pls : List Placement}
    (h : ∀ p ∈ pls, p.component.kind.isTypeDeclaration = false) :
    pls.filter Placement.isType = [] := by
  rw [List.filter_eq_nil_iff]
  intro p hp hisType
  rw [Placement.isType, h p hp] at hisType
  cases hisType

theorem filter_isType_map {α : Type} (outer : List Symbol) (f : α → Component) (as : List α)
    (h : ∀ a, (f a).symbol.kind.isTypeDeclaration = false) :
    (as.map fun a => (⟨outer, f a, false⟩ : Placement)).filter Placement.isType = [] := by
  apply filter_isType_of_kind
  intro p hp
  obtain ⟨a, -, rfl⟩ := List.mem_map.1 hp
  exact h a

theorem TypeHeader.filter_closing (h : TypeHeader) (here : List Symbol) :
    (h.closing here).filter Placement.isType = [] := by
  unfold closing
  cases h.kind <;> rfl

theorem not_isType_constant (outer : List Symbol) (h : ConstantHeader) :
    ¬ (⟨outer, Scope.constantComponent h, false⟩ : Placement).isType := by
  rw [Placement.isType, Scope.kind_constantComponent]
  nofun

section Syntax

variable (file : Option Attribute)

mutual
theorem TypeDecl.filter_placements {imports : List Component}
    (himports : ∀ i ∈ imports, i.kind.isTypeDeclaration = false) (outer : List Symbol) :
    ∀ d : TypeDecl, (d.placements file outer imports).filter Placement.isType =
      (d.declared outer).map (·.placement file)
  | .mk h members => by
    have hself : (⟨outer, h.component file, false⟩ : Placement).isType = true :=
      DeclaredType.isType_placement file ⟨outer, h⟩
    have hlisted : (imports.map fun i => (⟨outer ++ [h.symbol], i, false⟩ : Placement)).filter
        Placement.isType = [] := by
      apply filter_isType_of_kind
      intro p hp
      obtain ⟨i, hi, rfl⟩ := List.mem_map.1 hp
      exact himports i hi
    have hparameters := filter_isType_map (outer ++ [h.symbol]) typeParameterComponent
      h.typeParameters fun p => by rw [symbol_typeParameterComponent]; rfl
    rw [TypeDecl.placements, TypeDecl.declared, h.symbol_component, List.map_cons,
      List.filter_cons_of_pos hself, List.filter_append, List.filter_append, List.filter_append,
      hlisted, hparameters, Member.filter_placementsOfList (outer ++ [h.symbol]) members,
      h.filter_closing, List.append_nil]
    rfl

theorem TypeDecl.filter_placementsOfList {imports : List Component}
    (himports : ∀ i ∈ imports, i.kind.isTypeDeclaration = false) (outer : List Symbol) :
    ∀ ds : List TypeDecl,
      (TypeDecl.placementsOfList file outer imports ds).filter Placement.isType =
        (TypeDecl.declaredOfList outer ds).map (·.placement file)
  | [] => by
    rw [TypeDecl.placementsOfList, TypeDecl.declaredOfList]
    rfl
  | d :: rest => by
    rw [TypeDecl.placementsOfList, TypeDecl.declaredOfList, List.filter_append, List.map_append,
      TypeDecl.filter_placements himports outer d,
      TypeDecl.filter_placementsOfList himports outer rest]

theorem Member.filter_placements (outer : List Symbol) :
    ∀ m : Member, (m.placements file outer).filter Placement.isType =
      (m.declared outer).map (·.placement file)
  | .type d => by
    rw [Member.placements, Member.declared]
    exact TypeDecl.filter_placements (fun _ hi => absurd hi List.not_mem_nil) outer d
  | .constructor d => by
    rw [Member.placements, Member.declared]
    exact CallableDecl.filter_placements outer .constructor rfl d
  | .method d => by
    rw [Member.placements, Member.declared]
    exact CallableDecl.filter_placements outer .method rfl d
  | .field f => by
    rw [Member.placements, Member.declared]
    exact filter_isType_map outer (Scope.fieldComponent f) f.names fun name => by
      rw [Scope.symbol_fieldComponent]; rfl
  | .enumConstant d => by
    rw [Member.placements, Member.declared]
    exact ConstantDecl.filter_placements outer d

theorem Member.filter_placementsOfList (outer : List Symbol) :
    ∀ ms : List Member, (Member.placementsOfList file outer ms).filter Placement.isType =
      (Member.declaredOfList outer ms).map (·.placement file)
  | [] => by
    rw [Member.placementsOfList, Member.declaredOfList]
    rfl
  | m :: rest => by
    rw [Member.placementsOfList, Member.declaredOfList, List.filter_append, List.map_append,
      Member.filter_placements outer m, Member.filter_placementsOfList outer rest]

theorem CallableDecl.filter_placements (outer : List Symbol) (kind : ComponentKind)
    (hkind : kind.isTypeDeclaration = false) :
    ∀ d : CallableDecl, (d.placements file outer kind).filter Placement.isType =
      (d.declared outer kind).map (·.placement file)
  | .mk h localTypes => by
    have hself : ¬ (⟨outer, Scope.callableComponent kind h, false⟩ : Placement).isType := by
      rw [Placement.isType, Scope.kind_callableComponent, hkind]
      nofun
    have hparameters := filter_isType_map (outer ++ [⟨kind, h.name, some h.signature⟩])
      typeParameterComponent h.typeParameters fun p => by rw [symbol_typeParameterComponent]; rfl
    have hformal := filter_isType_map (outer ++ [⟨kind, h.name, some h.signature⟩])
      Scope.parameterComponent h.parameters fun p => by rw [Scope.symbol_parameterComponent]; rfl
    rw [CallableDecl.placements, CallableDecl.declared, Scope.symbol_callableComponent,
      List.filter_cons_of_neg hself, List.filter_append, List.filter_append, hparameters, hformal,
      TypeDecl.filter_placementsOfList (fun _ hi => absurd hi List.not_mem_nil) _ localTypes]
    rfl

theorem ConstantDecl.filter_placements (outer : List Symbol) :
    ∀ d : ConstantDecl, (d.placements file outer).filter Placement.isType =
      (d.declared outer).map (·.placement file)
  | .mk h none => by
    rw [ConstantDecl.placements, ConstantDecl.declared,
      List.filter_cons_of_neg (not_isType_constant outer h)]
    rfl
  | .mk h (some body) => by
    rw [ConstantDecl.placements, ConstantDecl.declared, Scope.symbol_constantComponent,
      List.filter_cons_of_neg (not_isType_constant outer h), List.filter_append,
      Member.filter_placementsOfList _ body]
    exact List.append_nil _
end

end Syntax

namespace CompilationUnit

variable (naming : Naming) (u : CompilationUnit)

theorem filter_placements : (u.placements naming).filter Placement.isType =
    (u.declaredTypes naming).map (·.placement u.source) := by
  have hpackages : (u.packagePlacements naming).filter Placement.isType = [] := by
    apply filter_isType_of_kind
    intro p hp
    rw [(u.package_of_mem naming p hp).1]
    rfl
  have himports : ∀ i ∈ u.listedImports naming, i.kind.isTypeDeclaration = false := by
    intro i hi
    obtain ⟨kind, hkind⟩ := u.kind_listedImports naming i hi
    rw [hkind]
    rfl
  rw [placements, List.filter_append, hpackages, List.nil_append,
    TypeDecl.filter_placementsOfList u.source himports, declaredTypes]

theorem placement_of_isType {p : Placement} (hp : p ∈ u.placements naming)
    (htype : p.isType = true) : ∃ d ∈ u.declaredTypes naming, p = d.placement u.source := by
  have hmem := List.mem_filter.2 ⟨hp, htype⟩
  rw [filter_placements] at hmem
  obtain ⟨d, hd, rfl⟩ := List.mem_map.1 hmem
  exact ⟨d, hd, rfl⟩

theorem placement_mem {d : DeclaredType} (hd : d ∈ u.declaredTypes naming) :
    d.placement u.source ∈ u.placements naming := by
  have hmem : d.placement u.source ∈ (u.declaredTypes naming).map (·.placement u.source) :=
    List.mem_map_of_mem hd
  rw [← filter_placements] at hmem
  exact List.mem_of_mem_filter hmem

/-- The skeleton has a node for each type, with the attributes of its declaration. -/
theorem placed_declaredType {d : DeclaredType} (hd : d ∈ u.declaredTypes naming) :
    ∃ id, (u.skeleton naming).follow root d.path = some id ∧
      ∀ a ∈ (d.header.component u.source).attributes,
        a ∈ ((u.skeleton naming).node id).attributes := by
  have hplaced := (u.builds_placements {} { naming }).placed _ (u.placement_mem naming hd) rfl
  rwa [d.path_placement] at hplaced

end CompilationUnit

end SymbolTable
