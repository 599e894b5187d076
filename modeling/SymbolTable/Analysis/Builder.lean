import SymbolTable.Analysis.Resolution
import SymbolTable.Application.Visibility
import SymbolTable.Declaration.Event

/-!
# Building the tree of a file

The tree of a file is a fold over the events of its unit. The declaration phase creates the
components; the structural phase creates the same components and also resolves supertypes and bounds
against the application.
-/

namespace SymbolTable

inductive Phase where
  | declaration
  | structural
  deriving DecidableEq, Repr, Inhabited

namespace Phase

/-- Both phases in the order they run. -/
def all : List Phase := [.declaration, .structural]

def attachesRelationships : Phase → Bool
  | .declaration => false
  | .structural => true

def display : Phase → String
  | .declaration => "declaration"
  | .structural => "structure"

end Phase

def objectName : String := "java.lang.Object"
def enumName : String := "java.lang.Enum"
def staticWord : String := "static"
def finalWord : String := "final"

def TypeKind.componentKind : TypeKind → ComponentKind
  | .classType => .classType
  | .interfaceType => .interfaceType
  | .enumType => .enumType
  | .annotationType => .annotationType

/-! ## Attributes of declarations -/

namespace Component

def withSpan (c : Component) (s : Span) : Component :=
  c.addAttributes
    [⟨.startLine, toString s.startLine⟩, ⟨.startColumn, toString s.startColumn⟩,
      ⟨.stopLine, toString s.stopLine⟩, ⟨.stopColumn, toString s.stopColumn⟩]

/-- An annotation is told from a keyword by its first character. -/
def modifierAttribute (text : String) : Attribute :=
  if text.toList.head? = some '@' then ⟨.annotated, text⟩ else ⟨.modifier, text⟩

def withModifiers (c : Component) (modifiers : List String) : Component :=
  c.addAttributes (modifiers.map modifierAttribute)

def hasAccessModifier (c : Component) : Bool :=
  c.hasModifier publicWord || c.hasModifier protectedWord || c.hasModifier privateWord

/-- Adds `public` to a component without access modifier. -/
def withDefaultAccess (c : Component) : Component :=
  if c.hasAccessModifier then c else c.addAttribute ⟨.modifier, publicWord⟩

end Component

/-- The modifiers of constants. -/
def constantModifiers : List String := [publicWord, staticWord, finalWord]

/-! ## Steps on the scope -/

namespace Scope

/-- Puts `c` below `parent`: into the child of the same symbol, whose attributes are united with
those of `c`, or as a new child. Gives the id of that child. -/
def put (s : Scope) (parent : NodeId) (c : Component) : NodeId × Scope :=
  match s.tree.findChild parent c with
  | some existing =>
    (existing,
      { s with tree := s.tree.modify existing fun node => node.uniteAttributes c.attributes })
  | none => (s.tree.size, { s with tree := s.tree.add parent c })

def putHere (s : Scope) (c : Component) : NodeId × Scope := s.put s.cursor c

/-- Puts `c` below the cursor and moves the cursor to it. -/
def enter (s : Scope) (c : Component) : NodeId × Scope :=
  let (id, s) := s.putHere c
  (id, s.moveTo id)

def mark (s : Scope) (id : NodeId) (kind : AttributeKind) (value : String) : Scope :=
  { s with tree := s.tree.modify id fun node => node.addAttributeIfAbsent ⟨kind, value⟩ }

def qualified (s : Scope) (app : Application) (id : NodeId) : String :=
  s.tree.qualifiedName id app.naming.nestedSeparator

/-- Opens the component with the given coordinate as a container, if there is one. -/
def openPackage (s : Scope) (app : Application) (coordinate : String) : Scope :=
  match app.find coordinate with
  | some r => s.addContainer r
  | none => s

/-- Enters the default package unless the file has a package. -/
def ensurePackage (s : Scope) (app : Application) : Scope :=
  if s.hasPackage then s
  else
    let name := app.naming.defaultPackage
    let (_, s) := s.enter { kind := .package, value := name, attributes := s.file.toList }
    { s with hasPackage := true }.openPackage app name

def declareTypeParameters (s : Scope) (owner : NodeId) (parameters : List TypeParameterDecl) :
    Scope :=
  parameters.foldl
    (fun s p =>
      (s.put owner (Component.withSpan { kind := .typeParameter, value := p.name } p.span)).2)
    s

/-- Adds a public constructor without parameters to an owner that has no constructor. -/
def ensureDefaultConstructor (s : Scope) (owner : NodeId) : Scope :=
  if (s.tree.children owner).any fun c => (s.tree.node c).kind.isConstructor then s
  else
    (s.put owner
      { kind := .defaultConstructor, value := (s.tree.node owner).value, signature := some "()",
        attributes := [⟨.modifier, publicWord⟩] }).2

/-! ## Relationships -/

/-- Marks `id` with the type that `text` names, seen from the cursor; unknown types are left out. -/
def relate (s : Scope) (app : Application) (id : NodeId) (kind : AttributeKind) (text : String) :
    Scope :=
  match s.resolveType app s.cursor text with
  | some (name, _) => s.mark id kind name
  | none => s

def relateAll (s : Scope) (app : Application) (id : NodeId) (kind : AttributeKind)
    (texts : List String) : Scope :=
  texts.foldl (fun s text => s.relate app id kind text) s

/-- The first bound of a type parameter is extended and the others are implemented. -/
def relateBounds (s : Scope) (app : Application) (id : NodeId) : List String → Scope
  | [] => s
  | first :: rest => (s.relate app id .extendsType first).relateAll app id .implementsType rest

def attachBounds (s : Scope) (app : Application) (owner : NodeId)
    (parameters : List TypeParameterDecl) : Scope :=
  parameters.foldl
    (fun s p =>
      match s.tree.findChild owner { kind := .typeParameter, value := p.name } with
      | some id => s.relateBounds app id p.bounds
      | none => s)
    s

/-- The edge of an anonymous class to the type it instantiates, seen from outside of the class. -/
def attachInstantiated (s : Scope) (app : Application) (id : NodeId) (name : String) : Scope :=
  match s.resolveType app ((s.tree.parent id).getD id) name with
  | some (name, .interfaceType) => s.mark id .implementsType name
  | some (name, _) => s.mark id .extendsType name
  | none => s

/-- The edge of a named class to its superclass; without an `extends` clause to the root of all
classes, unless it is that root. -/
def attachSuperclass (s : Scope) (app : Application) (id : NodeId) (superclass : Option String) :
    Scope :=
  match superclass with
  | some text => s.relate app id .extendsType text
  | none =>
    if s.qualified app id = objectName then s else s.mark id .extendsType objectName

def attachRelationships (s : Scope) (app : Application) (id : NodeId) (h : TypeHeader) : Scope :=
  match h.kind with
  | .classType =>
    if h.anonymous then s.attachInstantiated app id h.name
    else (s.attachSuperclass app id h.superclass).relateAll app id .implementsType h.interfaces
  | .interfaceType => s.relateAll app id .implementsType h.interfaces
  | .enumType =>
    (if s.qualified app id = enumName then s
      else s.mark id .implementsType enumName).relateAll app id .implementsType h.interfaces
  | .annotationType => s

/-! ## Events -/

def enterPackage (s : Scope) (app : Application) (p : PackageDecl) : Scope :=
  let s := p.segments.foldl (fun s segment => (s.enter { kind := .package, value := segment }).2) s
  { s with hasPackage := true }.openPackage app (app.naming.delimiter.intercalate p.segments)

def enterImport (s : Scope) (app : Application) (i : ImportDecl) : Scope :=
  let kind := ImportKind.classify i.isStatic i.onDemand
  let s := (s.addImport { kind := .importOf kind, value := i.path }).1
  match app.find (app.naming.coordinateOf i.path) with
  | some r => if kind.isOnDemand then s.addContainer r else (s.addVisible r).1
  | none => s

def typeComponent (s : Scope) (h : TypeHeader) : Component :=
  let c : Component :=
    { kind := h.kind.componentKind, value := h.name, attributes := s.file.toList }
  let c := (c.withSpan h.span).withModifiers h.modifiers
  if h.anonymous then c.addAttribute anonymousMark else c.withDefaultAccess

/-- Types directly in a package get a copy of each import of the file. -/
def enterType (s : Scope) (app : Application) (phase : Phase) (h : TypeHeader) : Scope :=
  let s := s.ensurePackage app
  let topLevel := (s.tree.node s.cursor).kind = .package
  let (id, s) := s.putHere (s.typeComponent h)
  let s := if topLevel then s.imports.foldl (fun s i => (s.put id i).2) s else s
  let s := (s.declareTypeParameters id h.typeParameters).moveTo id
  if phase.attachesRelationships then
    (s.attachRelationships app id h).attachBounds app id h.typeParameters
  else s

def exitTypeBody (s : Scope) (h : TypeHeader) : Scope :=
  match h.kind with
  | .classType | .enumType => s.ensureDefaultConstructor s.cursor
  | .interfaceType | .annotationType => s

def constantComponent (h : ConstantHeader) : Component :=
  ((Component.withSpan { kind := .enumConstant, value := h.name } h.span).withModifiers
    h.modifiers).addAttributes (constantModifiers.map fun m => ⟨.modifier, m⟩)

def enterConstant (s : Scope) (app : Application) (phase : Phase) (h : ConstantHeader) : Scope :=
  let owner := s.cursor
  let (id, s) := s.enter (constantComponent h)
  if phase.attachesRelationships then s.mark id .declaredType (s.qualified app owner) else s

def exitConstant (s : Scope) : Scope := (s.ensureDefaultConstructor s.cursor).ascend

def callableComponent (kind : ComponentKind) (h : CallableHeader) : Component :=
  let c : Component := { kind, value := h.name, signature := some h.signature }
  ((c.withSpan h.span).withModifiers h.modifiers).addAttributes
    (h.returnType.toList.map fun text => ⟨.returnType, Text.normalizeBlanks text⟩)

def enterCallable (s : Scope) (app : Application) (phase : Phase) (kind : ComponentKind)
    (h : CallableHeader) : Scope :=
  let (id, s) := s.putHere (callableComponent kind h)
  let s := (s.declareTypeParameters id h.typeParameters).moveTo id
  if phase.attachesRelationships then s.attachBounds app id h.typeParameters else s

def parameterComponent (p : ParameterDecl) : Component :=
  let c : Component :=
    { kind := .parameter, value := p.name,
      attributes := [⟨.declaredType, Text.normalizeBlanks p.declaredType⟩] }
  ((if p.variadic then c.addAttribute ⟨.variadic, "true"⟩ else c).withSpan p.span).withModifiers
    p.modifiers

def fieldComponent (f : FieldDecl) (name : String) : Component :=
  let c := ((Component.withSpan { kind := .field, value := name } f.span).withModifiers
    f.modifiers).addAttribute ⟨.declaredType, Text.normalizeBlanks f.declaredType⟩
  if f.constant then c.uniteAttributes (constantModifiers.map fun m => ⟨.modifier, m⟩) else c

def step (app : Application) (phase : Phase) (s : Scope) : Event → Scope
  | .enterUnit u => { s with file := some ⟨.sourceName, u.fileName⟩ }
  | .exitUnit _ => s
  | .enterPackage p => s.enterPackage app p
  | .enterImport i => s.enterImport app i
  | .enterType d => s.enterType app phase d.header
  | .exitTypeBody d => s.exitTypeBody d.header
  | .exitType _ => s.ascend
  | .enterConstant d => s.enterConstant app phase d.header
  | .exitConstant _ => s.exitConstant
  | .enterConstructor d => s.enterCallable app phase .constructor d.header
  | .exitConstructor _ => s.ascend
  | .enterMethod d => s.enterCallable app phase .method d.header
  | .exitMethod _ => s.ascend
  | .enterParameter p => (s.putHere (parameterComponent p)).2
  | .enterField f => f.names.foldl (fun s name => (s.putHere (fieldComponent f name)).2) s

/-- Walks a unit once. The scope is fully reset first, so it may be reused for any file. -/
def walk (s : Scope) (app : Application) (phase : Phase) (u : CompilationUnit) : Scope :=
  u.events.foldl (step app phase) (s.fullReset.seed app)

/-- The tree of a unit, and the scope that is left. -/
def build (s : Scope) (app : Application) (phase : Phase) (u : CompilationUnit) : Tree × Scope :=
  (s.walk app phase u).takeTree

end Scope

end SymbolTable
