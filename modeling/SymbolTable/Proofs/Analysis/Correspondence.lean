import SymbolTable.Proofs.Analysis.Lockstep
import SymbolTable.Proofs.Tree.QualifiedName
import Mathlib.Data.List.Forall2

/-!
# Corresponding applications

Two applications correspond when their trees have the same paths and the lookups of an analysis find
the same paths in both. Ids may differ. Resolution sees ids only through such lookups, so it gives
the same names in corresponding applications, and a walk builds the same tree.
-/

namespace SymbolTable

open SymbolTable.Tree (root)

/-! ## Related options -/

section Rel

variable {α β γ δ : Type} {R : α → β → Prop} {S : γ → δ → Prop} {x : Option α} {y : Option β}

theorem rel_cases (h : Option.Rel R x y) :
    x = none ∧ y = none ∨ ∃ a b, x = some a ∧ y = some b ∧ R a b := by
  cases h with
  | none => exact .inl ⟨rfl, rfl⟩
  | some hab => exact .inr ⟨_, _, rfl, rfl, hab⟩

theorem rel_map (h : Option.Rel R x y) {f : α → γ} {g : β → δ}
    (hfg : ∀ {a b}, R a b → S (f a) (g b)) : Option.Rel S (x.map f) (y.map g) := by
  cases h with
  | none => exact .none
  | some hab => exact .some (hfg hab)

theorem rel_bind (h : Option.Rel R x y) {f : α → Option γ} {g : β → Option δ}
    (hfg : ∀ {a b}, R a b → Option.Rel S (f a) (g b)) :
    Option.Rel S (x.bind f) (y.bind g) := by
  cases h with
  | none => exact .none
  | some hab => exact hfg hab

theorem rel_or {x' : Option α} {y' : Option β} (h : Option.Rel R x y)
    (h' : Option.Rel R x' y') : Option.Rel R (x.or x') (y.or y') := by
  cases h with
  | none => exact h'
  | some hab => exact .some hab

theorem rel_refl {R : α → α → Prop} (h : ∀ a, R a a) (x : Option α) : Option.Rel R x x := by
  cases x with
  | none => exact .none
  | some a => exact .some (h a)

theorem rel_filterMap {ι : Type} {f : ι → Option α} {g : ι → Option β}
    (hfg : ∀ i, Option.Rel R (f i) (g i)) (is : List ι) :
    List.Forall₂ R (is.filterMap f) (is.filterMap g) := by
  induction is with
  | nil => exact .nil
  | cons i is ih =>
    rw [List.filterMap_cons, List.filterMap_cons]
    rcases rel_cases (hfg i) with ⟨hx, hx'⟩ | ⟨a, b, hx, hx', hab⟩
    · rw [hx, hx']
      exact ih
    · rw [hx, hx']
      exact .cons hab ih

theorem rel_find? {as : List α} {bs : List β} (h : List.Forall₂ R as bs) {f : α → Bool}
    {g : β → Bool} (hfg : ∀ {a b}, R a b → g b = f a) :
    Option.Rel R (as.find? f) (bs.find? g) := by
  induction h with
  | nil => exact .none
  | @cons a b as bs hab _ ih =>
    rw [List.find?_cons, List.find?_cons, hfg hab]
    split
    · exact .some hab
    · exact ih

theorem rel_findSome? {as : List α} {bs : List β} (h : List.Forall₂ R as bs)
    {f : α → Option γ} {g : β → Option δ} (hfg : ∀ {a b}, R a b → Option.Rel S (f a) (g b)) :
    Option.Rel S (as.findSome? f) (bs.findSome? g) := by
  induction h with
  | nil => exact .none
  | @cons a b as bs hab _ ih =>
    rw [List.findSome?_cons, List.findSome?_cons]
    rcases rel_cases (hfg hab) with ⟨hx, hx'⟩ | ⟨c, d, hx, hx', hcd⟩
    · rw [hx, hx']
      exact ih
    · rw [hx, hx']
      exact .some hcd

end Rel

/-! ## Probes -/

/-- A test that a name lookup makes: it fixes the name and reads no more than the symbol and the
mark of anonymous classes. -/
structure NameProbe (accept : Component → Bool) : Prop where
  name : ∃ name, ∀ c, accept c → c.value = name
  congr : ∀ {c c' : Component}, c'.symbol = c.symbol →
    (anonymousMark ∈ c'.attributes ↔ anonymousMark ∈ c.attributes) → accept c' = accept c

namespace Component

theorem hasAttribute_iff {c : Component} {kind : AttributeKind} {value : String} :
    c.hasAttribute kind value ↔ (⟨kind, value⟩ : Attribute) ∈ c.attributes := by
  simp only [hasAttribute, List.any_eq_true, decide_eq_true_eq]
  constructor
  · rintro ⟨⟨k, v⟩, ha, rfl, rfl⟩
    exact ha
  · exact fun h => ⟨_, h, rfl, rfl⟩

theorem isNamedType_congr {c c' : Component} (hsymbol : c'.symbol = c.symbol)
    (hmarked : anonymousMark ∈ c'.attributes ↔ anonymousMark ∈ c.attributes) (name : String) :
    c'.isNamedType name = c.isNamedType name := by
  have hkind : c'.kind = c.kind := congrArg Symbol.kind hsymbol
  have hvalue : c'.value = c.value := congrArg Symbol.value hsymbol
  have hmark : c'.hasAttribute anonymousMark.kind anonymousMark.value =
      c.hasAttribute anonymousMark.kind anonymousMark.value := by
    rw [Bool.eq_iff_iff, hasAttribute_iff, hasAttribute_iff]
    exact hmarked
  rw [isNamedType, isNamedType, hkind, hvalue, hmark]

end Component

theorem nameProbe_isNamedType (name : String) : NameProbe (·.isNamedType name) where
  name := ⟨name, fun c h => by simp [Component.isNamedType] at h; exact h.1.1⟩
  congr hsymbol hmarked := Component.isNamedType_congr hsymbol hmarked name

theorem nameProbe_typeOrParameter (name : String) :
    NameProbe fun c => c.isNamedType name || c.isTypeParameter name where
  name := by
    refine ⟨name, fun c h => ?_⟩
    simp [Component.isNamedType, Component.isTypeParameter] at h
    rcases h with h | h
    · exact h.1.1
    · exact h.2
  congr hsymbol hmarked := by
    have hkind := congrArg Symbol.kind hsymbol
    have hvalue := congrArg Symbol.value hsymbol
    simp only [Component.symbol] at hkind hvalue
    simp only [Component.isTypeParameter, Component.isNamedType_congr hsymbol hmarked, hkind,
      hvalue]

theorem nameProbe_typeDeclaration (name : String) :
    NameProbe fun c => c.value = name && c.kind.isTypeDeclaration where
  name := ⟨name, fun c h => by simp at h; exact h.1⟩
  congr hsymbol _ := by
    have hkind := congrArg Symbol.kind hsymbol
    have hvalue := congrArg Symbol.value hsymbol
    simp only [Component.symbol] at hkind hvalue
    rw [hkind, hvalue]

/-! ## Corresponding trees -/

namespace Tree

/-- The nodes have the same path. -/
def SamePath (t t' : Tree) (id id' : NodeId) : Prop :=
  ∃ path, t.follow root path = some id ∧ t'.follow root path = some id'

structure Corresponds (delimiter : String) (t t' : Tree) : Prop where
  grown : t.Grown
  grown' : t'.Grown
  symbol_root : (t'.node root).symbol = (t.node root).symbol
  marked : ∀ {id id'}, t.SamePath t' id id' →
    (anonymousMark ∈ (t'.node id').attributes ↔ anonymousMark ∈ (t.node id).attributes)
  locate : ∀ text, Option.Rel (t.SamePath t') (t.locate text delimiter) (t'.locate text delimiter)
  member : ∀ {id id'}, t.SamePath t' id id' → ∀ {accept}, NameProbe accept →
    Option.Rel (t.SamePath t') ((t.children id).find? fun c => accept (t.node c))
      ((t'.children id').find? fun c => accept (t'.node c))

namespace Corresponds

variable {delimiter : String} {t t' : Tree} (h : t.Corresponds delimiter t') {id id' : NodeId}
include h

theorem symbol (hid : t.SamePath t' id id') : (t'.node id').symbol = (t.node id).symbol := by
  obtain ⟨path, hp, hp'⟩ := hid
  exact symbol_eq_of_follow h.symbol_root hp hp'

theorem injective {j j' : NodeId} (hid : t.SamePath t' id id') (hj : t.SamePath t' j j') :
    id = j ↔ id' = j' := by
  obtain ⟨path, hp, hp'⟩ := hid
  obtain ⟨path', hq, hq'⟩ := hj
  constructor
  · rintro rfl
    obtain rfl := h.grown.follow_inj hp hq
    exact Option.some.inj (hp'.symm.trans hq')
  · rintro rfl
    obtain rfl := h.grown'.follow_inj hp' hq'
    exact Option.some.inj (hp.symm.trans hq)

theorem qualifiedName (hid : t.SamePath t' id id') (nested : String) :
    t'.qualifiedName id' nested = t.qualifiedName id nested := by
  obtain ⟨path, hp, hp'⟩ := hid
  exact qualifiedName_eq_of_follow h.grown h.grown' h.symbol_root hp hp' nested

end Corresponds

end Tree

/-! ## Corresponding applications -/

/-- The applications differ in the order in which their trees grew. -/
structure Application.Corresponds (app app' : Application) : Prop where
  naming : app'.naming = app.naming
  libraries : app'.libraries = app.libraries
  program : app.components.Corresponds app.naming.delimiter app'.components

/-- References to nodes at one path of the program, or to one node of a library. -/
inductive SameRef (app app' : Application) : ComponentRef → ComponentRef → Prop
  | program {id id' : NodeId} : app.components.SamePath app'.components id id' →
      SameRef app app' ⟨.program, id⟩ ⟨.program, id'⟩
  | library (index : Nat) (id : NodeId) :
      SameRef app app' ⟨.library index, id⟩ ⟨.library index, id⟩

namespace Application.Corresponds

variable {app app' : Application} (h : app.Corresponds app') {r r' : ComponentRef}
include h

theorem tree_library (index : Nat) : app'.tree (.library index) = app.tree (.library index) := by
  simp only [tree, h.libraries]

theorem symbol (hr : SameRef app app' r r') : (app'.get r').symbol = (app.get r).symbol := by
  cases hr with
  | program hid => exact h.program.symbol hid
  | library index id => rw [get, get, h.tree_library]

theorem kind (hr : SameRef app app' r r') : (app'.get r').kind = (app.get r).kind :=
  congrArg Symbol.kind (h.symbol hr)

theorem qualifiedName (hr : SameRef app app' r r') :
    app'.qualifiedName r' = app.qualifiedName r := by
  unfold Application.qualifiedName
  rw [h.naming]
  cases hr with
  | program hid => exact h.program.qualifiedName hid _
  | library index id => rw [h.tree_library]

theorem accept_eq (hr : SameRef app app' r r') {accept : Component → Bool}
    (ha : NameProbe accept) : accept (app'.get r') = accept (app.get r) := by
  cases hr with
  | program hid => exact ha.congr (h.program.symbol hid) (h.program.marked hid)
  | library index id => rw [get, get, h.tree_library]

theorem injective {q q' : ComponentRef} (hr : SameRef app app' r r')
    (hq : SameRef app app' q q') : r = q ↔ r' = q' := by
  cases hr with
  | program hid =>
    cases hq with
    | program hj => simpa using h.program.injective hid hj
    | library => simp
  | library =>
    cases hq with
    | program => simp
    | library => rfl

theorem findInProgram (text : String) :
    Option.Rel (app.components.SamePath app'.components) (app.findInProgram text)
      (app'.findInProgram text) := by
  unfold Application.findInProgram
  rw [h.naming]
  exact h.program.locate text

theorem findInLibraries (text : String) :
    Option.Rel (SameRef app app') (app.findInLibraries text) (app'.findInLibraries text) := by
  have heq : app'.findInLibraries text = app.findInLibraries text := by
    simp only [Application.findInLibraries, h.libraries, h.naming]
  rw [heq]
  cases hfound : app.findInLibraries text with
  | none => exact .none
  | some r =>
    obtain ⟨⟨l, i⟩, -, hl⟩ := List.exists_of_findSome?_eq_some hfound
    obtain ⟨id, -, rfl⟩ := Option.map_eq_some_iff.1 hl
    exact .some (.library i id)

theorem find (text : String) :
    Option.Rel (SameRef app app') (app.find text) (app'.find text) := by
  unfold Application.find
  rcases rel_cases (h.findInProgram text) with ⟨hx, hx'⟩ | ⟨id, id', hx, hx', hid⟩
  · rw [hx, hx']
    exact h.findInLibraries text
  · rw [hx, hx']
    exact .some (.program hid)

/-- Children of corresponding components that a name lookup accepts. -/
theorem member (hr : SameRef app app' r r') {accept : Component → Bool}
    (ha : NameProbe accept) :
    Option.Rel (SameRef app app') ((app.children r).find? fun c => accept (app.get c))
      ((app'.children r').find? fun c => accept (app'.get c)) := by
  unfold children
  rw [List.find?_map, List.find?_map]
  cases hr with
  | program hid => exact rel_map (h.program.member hid ha) fun hc => .program hc
  | library index id =>
    have hlibrary : ((app'.tree (.library index)).children id).find?
        ((fun c => accept (app'.get c)) ∘ fun id => ⟨.library index, id⟩) =
        ((app.tree (.library index)).children id).find?
          ((fun c => accept (app.get c)) ∘ fun id => ⟨.library index, id⟩) := by
      simp only [Function.comp_def, get, h.tree_library]
    rw [hlibrary]
    exact rel_map (rel_refl (fun _ => rfl) _) fun hc => hc ▸ .library index _

end Application.Corresponds

/-! ## Resolution -/

/-- One node of the file, or corresponding components. -/
inductive SameResolved (app app' : Application) : Resolved → Resolved → Prop
  | inFile (id : NodeId) : SameResolved app app' (.inFile id) (.inFile id)
  | known {r r' : ComponentRef} : SameRef app app' r r' →
      SameResolved app app' (.known r) (.known r')

/-- The scopes of two walks at the same point, in corresponding applications. -/
structure Scope.Agrees (app app' : Application) (s s' : Scope) : Prop where
  tree : s'.tree = s.tree
  cursor : s'.cursor = s.cursor
  file : s'.file = s.file
  hasPackage : s'.hasPackage = s.hasPackage
  imports : s'.imports = s.imports
  visible : List.Forall₂ (SameRef app app') s.visible s'.visible
  containers : List.Forall₂ (SameRef app app') s.containers s'.containers

namespace Scope.Agrees

variable {app app' : Application} (h : app.Corresponds app') {s s' : Scope}
  (hs : s.Agrees app app' s')
include h hs

theorem findVisible (name : String) :
    Option.Rel (SameRef app app') (s.findVisible app name (·.kind.isTypeDeclaration))
      (s'.findVisible app' name (·.kind.isTypeDeclaration)) := by
  have hprobe := nameProbe_typeDeclaration name
  have hvisible := rel_find? hs.visible fun hr => h.accept_eq hr hprobe
  have hcontainers := rel_findSome? hs.containers fun hr => h.member hr hprobe
  unfold Scope.findVisible
  rcases rel_cases hvisible with ⟨hx, hx'⟩ | ⟨a, b, hx, hx', hab⟩
  · simp only [hx, hx']
    exact hcontainers
  · simp only [hx, hx']
    exact .some hab

omit h in
theorem fileMember (id : NodeId) (accept : Component → Bool) :
    Option.Rel (SameResolved app app') (s.fileMember id accept) (s'.fileMember id accept) := by
  unfold Scope.fileMember
  rw [hs.tree]
  exact rel_map (rel_refl (fun _ => rfl) _) fun hc => hc ▸ .inFile _

theorem programMember (id : NodeId) {accept : Component → Bool} (ha : NameProbe accept) :
    Option.Rel (SameResolved app app') (s.programMember app id accept)
      (s'.programMember app' id accept) := by
  have hscope : Option.Rel (SameRef app app') (s.programScope app id)
      (s'.programScope app' id) := by
    unfold programScope
    rw [hs.tree, h.naming]
    exact rel_map (h.findInProgram _) fun hid => .program hid
  unfold Scope.programMember
  rcases rel_cases hscope with ⟨hx, hx'⟩ | ⟨a, b, hx, hx', hab⟩
  · rw [hx, hx']
    exact .none
  · rw [hx, hx']
    exact rel_map (h.member hab ha) .known

theorem resolveEnclosing (name : String) (fuel : Nat) (id : NodeId) :
    Option.Rel (SameResolved app app') (s.resolveEnclosing app name fuel id)
      (s'.resolveEnclosing app' name fuel id) := by
  induction fuel generalizing id with
  | zero => exact .none
  | succ fuel ih =>
    have hfile := hs.fileMember id fun c => c.isNamedType name || c.isTypeParameter name
    have hprogram := hs.programMember h id (nameProbe_typeOrParameter name)
    simp only [Scope.resolveEnclosing, hs.tree]
    split
    · exact .none
    · exact hs.fileMember id _
    · rcases rel_cases hfile with ⟨hx, hx'⟩ | ⟨a, b, hx, hx', hab⟩
      · simp only [hx, hx']
        rcases rel_cases hprogram with ⟨hy, hy'⟩ | ⟨a, b, hy, hy', hab⟩
        · simp only [hy, hy']
          split
          · exact .some (.inFile id)
          · split
            · exact ih _
            · exact .none
        · simp only [hy, hy']
          exact .some hab
      · simp only [hx, hx']
        exact .some hab

theorem resolveSimple (place : NodeId) (name : String) :
    Option.Rel (SameResolved app app') (s.resolveSimple app place name)
      (s'.resolveSimple app' place name) := by
  have henclosing := hs.resolveEnclosing h name s.tree.size place
  unfold Scope.resolveSimple
  rw [hs.tree]
  rcases rel_cases henclosing with ⟨hx, hx'⟩ | ⟨a, b, hx, hx', hab⟩
  · rw [hx, hx']
    exact rel_map (hs.findVisible h name) .known
  · rw [hx, hx']
    exact .some hab

theorem memberType {scope scope' : Resolved} (hscope : SameResolved app app' scope scope')
    (name : String) :
    Option.Rel (SameResolved app app') (s.memberType app scope name)
      (s'.memberType app' scope' name) := by
  have hprobe := nameProbe_isNamedType name
  unfold Scope.memberType
  cases hscope with
  | inFile id =>
    rcases rel_cases (hs.fileMember id (·.isNamedType name)) with ⟨hx, hx'⟩ | ⟨a, b, hx, hx', hab⟩
    · simp only [hx, hx']
      exact hs.programMember h id hprobe
    · simp only [hx, hx']
      exact .some hab
  | known hr => exact rel_map (h.member hr hprobe) .known

theorem resolveChain (place : NodeId) (first : String) (rest : List String) :
    Option.Rel (SameResolved app app') (s.resolveChain app place first rest)
      (s'.resolveChain app' place first rest) := by
  have hrest : ∀ (rest : List String) {scope scope' : Resolved},
      SameResolved app app' scope scope' → Option.Rel (SameResolved app app')
        (rest.foldlM (fun scope segment => s.memberType app scope segment) scope)
        (rest.foldlM (fun scope segment => s'.memberType app' scope segment) scope') := by
    intro rest
    induction rest with
    | nil => exact fun hscope => .some hscope
    | cons segment rest ih =>
      intro scope scope' hscope
      exact rel_bind (hs.memberType h hscope segment) ih
  exact rel_bind (hs.resolveSimple h place first) (hrest rest)

theorem describe {r r' : Resolved} (hr : SameResolved app app' r r') :
    s'.describe app' r' = s.describe app r := by
  unfold Scope.describe
  cases hr with
  | inFile id => simp only [hs.tree, h.naming]
  | known hr => simp only [h.qualifiedName hr, h.kind hr]

omit hs in
theorem resolveQualified (name : String) :
    Option.Rel (SameRef app app') (Scope.resolveQualified app name)
      (Scope.resolveQualified app' name) := by
  unfold Scope.resolveQualified
  rw [h.naming]
  rcases rel_cases (h.find (app.naming.coordinateOf name)) with ⟨hx, hx'⟩ | ⟨a, b, hx, hx', hab⟩
  · rw [hx, hx']
    exact .none
  · rw [hx, hx', Option.filter_some, Option.filter_some, h.kind hab]
    split
    · exact .some hab
    · exact .none

theorem resolveType (place : NodeId) (text : String) :
    s'.resolveType app' place text = s.resolveType app place text := by
  unfold Scope.resolveType
  simp only
  split
  · rfl
  · next first rest _ =>
    rcases rel_cases (hs.resolveChain h place first rest) with ⟨hx, hx'⟩ | ⟨a, b, hx, hx', hab⟩
    · have hqualified := resolveQualified h (TypeText.erase text)
      simp only [hx, hx']
      split
      · rfl
      · rcases rel_cases hqualified with ⟨hy, hy'⟩ | ⟨a, b, hy, hy', hab⟩
        · rw [hy, hy']
          rfl
        · rw [hy, hy', Option.map_some, Option.map_some, hs.describe h (.known hab)]
    · simp only [hx, hx', hs.describe h hab]

/-! ### Relating -/

omit h in
theorem mark (id : NodeId) (kind : AttributeKind) (value : String) :
    (s.mark id kind value).Agrees app app' (s'.mark id kind value) := by
  refine ⟨?_, hs.cursor, hs.file, hs.hasPackage, hs.imports, hs.visible, hs.containers⟩
  simp only [Scope.mark, hs.tree]

theorem relate (id : NodeId) (kind : AttributeKind) (text : String) :
    (s.relate app id kind text).Agrees app app' (s'.relate app' id kind text) := by
  unfold Scope.relate
  rw [hs.cursor, hs.resolveType h]
  split
  · exact hs.mark _ _ _
  · exact hs

omit hs in
theorem relateAll (id : NodeId) (kind : AttributeKind) (texts : List String) {s s' : Scope}
    (hs : s.Agrees app app' s') :
    (s.relateAll app id kind texts).Agrees app app' (s'.relateAll app' id kind texts) := by
  unfold Scope.relateAll
  induction texts generalizing s s' with
  | nil => exact hs
  | cons text texts ih =>
    rw [List.foldl_cons, List.foldl_cons]
    exact ih (hs.relate h id kind text)

theorem relateBounds (id : NodeId) (bounds : List String) :
    (s.relateBounds app id bounds).Agrees app app' (s'.relateBounds app' id bounds) := by
  cases bounds with
  | nil => exact hs
  | cons first rest =>
    rw [Scope.relateBounds, Scope.relateBounds]
    exact relateAll h id _ rest (hs.relate h id _ first)

omit hs in
theorem attachBounds (owner : NodeId) (parameters : List TypeParameterDecl) {s s' : Scope}
    (hs : s.Agrees app app' s') :
    (s.attachBounds app owner parameters).Agrees app app'
      (s'.attachBounds app' owner parameters) := by
  unfold Scope.attachBounds
  induction parameters generalizing s s' with
  | nil => exact hs
  | cons p parameters ih =>
    rw [List.foldl_cons, List.foldl_cons]
    apply ih
    rw [hs.tree]
    split
    · exact hs.relateBounds h _ _
    · exact hs

theorem attachInstantiated (id : NodeId) (name : String) :
    (s.attachInstantiated app id name).Agrees app app' (s'.attachInstantiated app' id name) := by
  unfold Scope.attachInstantiated
  rw [hs.tree, hs.resolveType h]
  split
  · exact hs.mark _ _ _
  · exact hs.mark _ _ _
  · exact hs

omit h in
theorem qualified (hnaming : app'.naming = app.naming) (id : NodeId) :
    s'.qualified app' id = s.qualified app id := by
  unfold Scope.qualified
  rw [hs.tree, hnaming]

theorem attachSuperclass (id : NodeId) (superclass : Option String) :
    (s.attachSuperclass app id superclass).Agrees app app'
      (s'.attachSuperclass app' id superclass) := by
  unfold Scope.attachSuperclass
  rw [hs.qualified h.naming]
  split
  · exact hs.relate h _ _ _
  · split
    · exact hs
    · exact hs.mark _ _ _

theorem attachRelationships (id : NodeId) (header : TypeHeader) :
    (s.attachRelationships app id header).Agrees app app'
      (s'.attachRelationships app' id header) := by
  unfold Scope.attachRelationships
  rw [hs.qualified h.naming]
  split
  · split
    · exact hs.attachInstantiated h _ _
    · exact relateAll h _ _ _ (hs.attachSuperclass h _ _)
  · exact relateAll h _ _ _ hs
  · apply relateAll h
    split
    · exact hs
    · exact hs.mark _ _ _
  · exact hs

/-! ### What is visible -/

omit h in
theorem addContainer {r r' : ComponentRef} (hr : SameRef app app' r r') :
    (s.addContainer r).Agrees app app' (s'.addContainer r') :=
  ⟨hs.tree, hs.cursor, hs.file, hs.hasPackage, hs.imports, hs.visible,
    List.rel_append hs.containers (.cons hr .nil)⟩

theorem addVisible {r r' : ComponentRef} (hr : SameRef app app' r r') :
    (s.addVisible r).1.Agrees app app' (s'.addVisible r').1 := by
  have hmem : r ∈ s.visible ↔ r' ∈ s'.visible := by
    have hvisible := hs.visible
    generalize s.visible = rs at hvisible
    generalize s'.visible = rs' at hvisible
    induction hvisible with
    | nil => simp
    | cons hq _ ih =>
      rw [List.mem_cons, List.mem_cons]
      exact or_congr (h.injective hr hq) ih
  unfold Scope.addVisible
  by_cases hr' : r ∈ s.visible
  · rw [if_pos hr', if_pos (hmem.1 hr')]
    exact hs
  · rw [if_neg hr', if_neg fun hq => hr' (hmem.2 hq)]
    exact ⟨hs.tree, hs.cursor, hs.file, hs.hasPackage, hs.imports,
      List.rel_append hs.visible (.cons hr .nil), hs.containers⟩

theorem openPackage (coordinate : String) :
    (s.openPackage app coordinate).Agrees app app' (s'.openPackage app' coordinate) := by
  unfold Scope.openPackage
  rcases rel_cases (h.find coordinate) with ⟨hx, hx'⟩ | ⟨a, b, hx, hx', hab⟩
  · rw [hx, hx']
    exact hs
  · rw [hx, hx']
    exact hs.addContainer hab

theorem openImport (i : ImportDecl) :
    (s.openImport app i).Agrees app app' (s'.openImport app' i) := by
  unfold Scope.openImport
  rw [h.naming]
  rcases rel_cases (h.find (app.naming.coordinateOf i.path)) with ⟨hx, hx'⟩ | ⟨a, b, hx, hx', hab⟩
  · rw [hx, hx']
    exact hs
  · rw [hx, hx']
    simp only
    split
    · exact hs.addContainer hab
    · exact hs.addVisible h hab

omit hs in
theorem seed (s s' : Scope) : (s.fullReset.seed app).Agrees app app' (s'.fullReset.seed app') := by
  have hroot : SameRef app app' Application.root Application.root := .program ⟨[], rfl, rfl⟩
  have hlibraries : List.Forall₂ (SameRef app app')
      ((List.range app.libraries.length).map Application.libraryRoot)
      ((List.range app'.libraries.length).map Application.libraryRoot) := by
    rw [h.libraries, List.forall₂_map_left_iff, List.forall₂_map_right_iff]
    exact List.forall₂_same.2 fun index _ => .library index root
  refine ⟨rfl, rfl, rfl, rfl, rfl, .nil, ?_⟩
  apply List.rel_append (List.rel_append (List.rel_append .nil ?_) (.cons hroot .nil)) hlibraries
  -- The implicit packages are looked for one by one, in the libraries before the program.
  apply rel_filterMap
  intro name
  simp only [h.naming]
  rcases rel_cases (h.findInLibraries (app.naming.coordinateOf name)) with
    ⟨hx, hx'⟩ | ⟨a, b, hx, hx', hab⟩
  · rw [hx, hx']
    exact rel_map (h.findInProgram _) fun hid => .program hid
  · rw [hx, hx']
    exact .some hab

end Scope.Agrees

/-! ## The walk -/

theorem lockstep_agrees {app app' : Application} (h : app.Corresponds app') (phase : Phase) :
    Lockstep app app' phase phase (Scope.Agrees app app') where
  naming := h.naming
  shape hs := hs.tree ▸ Tree.SameShape.refl _
  cursor hs := hs.cursor
  file hs := hs.file
  hasPackage hs := hs.hasPackage
  imports hs := hs.imports
  setFile _ hs := ⟨hs.tree, hs.cursor, rfl, hs.hasPackage, hs.imports, hs.visible, hs.containers⟩
  moveTo _ hs := ⟨hs.tree, rfl, hs.file, hs.hasPackage, hs.imports, hs.visible, hs.containers⟩
  put parent c hs := by
    rw [Scope.put_eq, Scope.put_eq, hs.tree]
    exact ⟨rfl, hs.cursor, hs.file, hs.hasPackage, hs.imports, hs.visible, hs.containers⟩
  openOwn coordinate hs := by
    apply Scope.Agrees.openPackage h
    exact ⟨hs.tree, hs.cursor, hs.file, rfl, hs.imports, hs.visible, hs.containers⟩
  addImport c hs := by
    unfold Scope.addImport
    rw [hs.imports]
    split
    · exact hs
    · exact ⟨hs.tree, hs.cursor, hs.file, hs.hasPackage, rfl, hs.visible, hs.containers⟩
  openImport i hs := hs.openImport h i
  relateType id header hs := by
    unfold Scope.relateType
    split
    · exact Scope.Agrees.attachBounds h _ _ (hs.attachRelationships h id header)
    · exact hs
  relateCallable id header hs := by
    unfold Scope.relateCallable
    split
    · exact Scope.Agrees.attachBounds h _ _ hs
    · exact hs
  relateConstant id owner _ hs := by
    unfold Scope.relateConstant
    rw [hs.qualified h.naming]
    split
    · exact hs.mark _ _ _
    · exact hs

/-- Walks in corresponding applications build the same tree. -/
theorem Application.Corresponds.build_eq {app app' : Application} (h : app.Corresponds app')
    (phase : Phase) (s s' : Scope) (u : CompilationUnit) :
    (s'.build app' phase u).1 = (s.build app phase u).1 := by
  have hseed := Scope.Agrees.seed h s s'
  exact ((lockstep_agrees h phase).walk u hseed).tree

end SymbolTable
