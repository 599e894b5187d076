import SymbolTable.Proofs.Analysis.Declared
import SymbolTable.Proofs.Analysis.Lockstep
import SymbolTable.Proofs.Tree.Entry

/-!
# The declaration phase as a list of placements

What a unit declares can be read off its syntax: each declaration puts one component below the path
of the declaration around it. A type or constant without constructor gets a default one, which is
the only placement that looks at the tree. `runs_*` say that walking a construct is running its
placements, with the cursor back where it was.
-/

namespace SymbolTable

structure Placement where
  outer : List Symbol
  component : Component
  /-- Left out below a node that has a constructor. -/
  fallback : Bool := false

namespace Placement

def path (p : Placement) : List Symbol := p.outer ++ [p.component.symbol]

end Placement

def Tree.hasConstructor (t : Tree) (id : NodeId) : Bool :=
  (t.children id).any fun c => (t.node c).kind.isConstructor

def Tree.place (t : Tree) (p : Placement) : Tree :=
  match t.follow root p.outer with
  | some id => if p.fallback && t.hasConstructor id then t else (t.put id p.component).2
  | none => t

/-! ## The placements of a unit -/

def TypeHeader.component (file : Option Attribute) (h : TypeHeader) : Component :=
  ({ file : Scope }).typeComponent h

def typeParameterComponent (p : TypeParameterDecl) : Component :=
  Component.withSpan { kind := .typeParameter, value := p.name } p.span

@[simp] theorem symbol_typeParameterComponent (p : TypeParameterDecl) :
    (typeParameterComponent p).symbol = ⟨.typeParameter, p.name, none⟩ := by
  rw [typeParameterComponent, Component.symbol_withSpan]
  rfl

def defaultConstructor (owner : String) : Component :=
  { kind := .defaultConstructor, value := owner, signature := some "()",
    attributes := [⟨.modifier, publicWord⟩] }

def packageComponent (name : String) (attributes : List Attribute) : Component :=
  { kind := .package, value := name, attributes }

def packageSymbol (name : String) : Symbol := ⟨.package, name, none⟩

/-- Classes and enums end with a default constructor. -/
def TypeHeader.closing (h : TypeHeader) (here : List Symbol) : List Placement :=
  match h.kind with
  | .classType | .enumType => [⟨here, defaultConstructor h.name, true⟩]
  | .interfaceType | .annotationType => []

mutual
def TypeDecl.placements (file : Option Attribute) (outer : List Symbol)
    (imports : List Component) : TypeDecl → List Placement
  | .mk h members =>
    let here := outer ++ [(h.component file).symbol]
    ⟨outer, h.component file, false⟩ ::
      (imports.map (fun i => ⟨here, i, false⟩) ++
        h.typeParameters.map (fun p => ⟨here, typeParameterComponent p, false⟩) ++
        Member.placementsOfList file here members ++ h.closing here)

def TypeDecl.placementsOfList (file : Option Attribute) (outer : List Symbol)
    (imports : List Component) : List TypeDecl → List Placement
  | [] => []
  | d :: rest => d.placements file outer imports ++ TypeDecl.placementsOfList file outer imports rest

def Member.placements (file : Option Attribute) (outer : List Symbol) : Member → List Placement
  | .type d => d.placements file outer []
  | .constructor d => d.placements file outer .constructor
  | .method d => d.placements file outer .method
  | .field f => f.names.map fun name => ⟨outer, Scope.fieldComponent f name, false⟩
  | .enumConstant d => d.placements file outer

def Member.placementsOfList (file : Option Attribute) (outer : List Symbol) :
    List Member → List Placement
  | [] => []
  | m :: rest => m.placements file outer ++ Member.placementsOfList file outer rest

def CallableDecl.placements (file : Option Attribute) (outer : List Symbol)
    (kind : ComponentKind) : CallableDecl → List Placement
  | .mk h localTypes =>
    let here := outer ++ [(Scope.callableComponent kind h).symbol]
    ⟨outer, Scope.callableComponent kind h, false⟩ ::
      (h.typeParameters.map (fun p => ⟨here, typeParameterComponent p, false⟩) ++
        h.parameters.map (fun p => ⟨here, Scope.parameterComponent p, false⟩) ++
        TypeDecl.placementsOfList file here [] localTypes)

def ConstantDecl.placements (file : Option Attribute) (outer : List Symbol) :
    ConstantDecl → List Placement
  | .mk h none =>
    let here := outer ++ [(Scope.constantComponent h).symbol]
    [⟨outer, Scope.constantComponent h, false⟩, ⟨here, defaultConstructor h.name, true⟩]
  | .mk h (some body) =>
    let here := outer ++ [(Scope.constantComponent h).symbol]
    ⟨outer, Scope.constantComponent h, false⟩ ::
      (Member.placementsOfList file here body ++ [⟨here, defaultConstructor h.name, true⟩])
end

theorem TypeDecl.placementsOfList_append (file : Option Attribute) (outer : List Symbol)
    (imports : List Component) (ds ds' : List TypeDecl) :
    placementsOfList file outer imports (ds ++ ds') =
      placementsOfList file outer imports ds ++ placementsOfList file outer imports ds' := by
  induction ds with
  | nil => rfl
  | cons d ds ih =>
    rw [List.cons_append, placementsOfList, placementsOfList, ih, List.append_assoc]

def packagePlacements (outer : List Symbol) : List String → List Placement
  | [] => []
  | name :: rest =>
    ⟨outer, packageComponent name [], false⟩ ::
      packagePlacements (outer ++ [packageSymbol name]) rest

/-- Appends a component unless its symbol is recorded. -/
def recordImport (known : List Component) (c : Component) : List Component :=
  if known.any fun k => k.sameSymbol c then known else known ++ [c]

theorem mem_or_eq_of_mem_recordImport {known : List Component} {c d : Component}
    (h : d ∈ recordImport known c) : d ∈ known ∨ d = c := by
  unfold recordImport at h
  split at h
  · exact .inl h
  · exact (List.mem_append.1 h).imp_right List.mem_singleton.1

namespace CompilationUnit

def source (u : CompilationUnit) : Option Attribute := some ⟨.sourceName, u.fileName⟩

/-- The imports of a unit without repetition. -/
def importComponents (u : CompilationUnit) : List Component :=
  u.imports.foldl (fun known i => recordImport known (Scope.importComponent i)) []

/-- The path of the package that the types of a unit lie in. -/
def packagePath (naming : Naming) (u : CompilationUnit) : List Symbol :=
  match u.package with
  | some p => p.segments.map packageSymbol
  | none => [packageSymbol naming.defaultPackage]

/-- Types in a package list the imports, types directly at the root do not. -/
def listedImports (naming : Naming) (u : CompilationUnit) : List Component :=
  if u.packagePath naming = [] then [] else u.importComponents

/-- A unit without package and types declares nothing, not even the default package. -/
def packagePlacements (naming : Naming) (u : CompilationUnit) : List Placement :=
  match u.package with
  | some p => SymbolTable.packagePlacements [] p.segments
  | none =>
    if u.types.isEmpty then []
    else [⟨[], packageComponent naming.defaultPackage u.source.toList, false⟩]

def placements (naming : Naming) (u : CompilationUnit) : List Placement :=
  u.packagePlacements naming ++
    TypeDecl.placementsOfList u.source (u.packagePath naming) (u.listedImports naming) u.types

end CompilationUnit

end SymbolTable
