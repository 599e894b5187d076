import SymbolTable.Application.Basic

/-!
# Enclosing declarations and access

The package and the types around a component, and the access check of the language: whether a
component may be named from another place.
-/

namespace SymbolTable

/-- A component outside of every type was asked for its type. -/
inductive EnclosureError where
  | notEnclosed (component : Component)
  | notInside (component : Component)
  deriving DecidableEq, Repr

def EnclosureError.message : EnclosureError → String
  | .notEnclosed c => "no type declaration encloses " ++ c.display
  | .notInside c => c.display ++ " is not inside a type declaration"

/-- The words of access modifiers. -/
def publicWord : String := "public"
def protectedWord : String := "protected"
def privateWord : String := "private"

namespace Application

/-- The values of the packages around `r`, outermost first; a package is around itself. -/
def packageOf (app : Application) (r : ComponentRef) : List String :=
  let t := app.tree r.origin
  (((t.parents r.id).reverse ++ [r.id]).filter fun id => (t.node id).kind = .package).map
    fun id => (t.node id).value

/-- The nearest type declaration strictly around `r`. -/
def containingType (app : Application) (r : ComponentRef) : Except EnclosureError ComponentRef :=
  match (app.tree r.origin).findAncestor r.id (·.kind.isTypeDeclaration) with
  | some id => .ok ⟨r.origin, id⟩
  | none => .error (.notEnclosed (app.get r))

/-- The outermost type declaration around `r`, or `r` itself. -/
def topLevelType (app : Application) (r : ComponentRef) : Except EnclosureError ComponentRef :=
  match (app.tree r.origin).outermost r.id (·.kind.isTypeDeclaration) with
  | some id => .ok ⟨r.origin, id⟩
  | none => .error (.notInside (app.get r))

def samePackage (app : Application) (a b : ComponentRef) : Bool :=
  app.packageOf a = app.packageOf b

/-- Whether `target` may be named from `place`. Packages and public components always may; protected
ones within the package or along inheritance; private ones and type parameters within the outermost
type, which both sides need to have; all others within the package. -/
def isVisible (app : Application) (target place : ComponentRef) (inheriting : Bool) :
    Except EnclosureError Bool :=
  let c := app.get target
  if c.kind = .package ∨ c.hasModifier publicWord then .ok true
  else if c.hasModifier protectedWord then .ok (inheriting || app.samePackage target place)
  else if c.hasModifier privateWord ∨ c.kind = .typeParameter then do
    let own ← app.topLevelType target
    let other ← app.topLevelType place
    return app.coordinate own = app.coordinate other
  else .ok (app.samePackage target place)

/-- Those that `accept` takes among `r` and, with `climb`, its ancestors below the root. -/
def lineage (app : Application) (r : ComponentRef) (accept : Component → Bool) (climb : Bool) :
    List ComponentRef :=
  ((app.tree r.origin).lineage r.id accept climb).map fun id => ⟨r.origin, id⟩

end Application

end SymbolTable
