import SymbolTable.Analysis.Builder
import SymbolTable.Proofs.Tree.Unite

/-!
# The components of declarations

Which symbol each kind of declaration gets, and which of them is marked as an anonymous class.
Everything but the symbol is added attribute by attribute.
-/

namespace SymbolTable

namespace Component

@[simp] theorem symbol_addAttributes (c : Component) (attributes : List Attribute) :
    (c.addAttributes attributes).symbol = c.symbol := by
  unfold addAttributes
  induction attributes generalizing c with
  | nil => rfl
  | cons a rest ih => rw [List.foldl_cons, ih, symbol_addAttribute]

@[simp] theorem attributes_addAttributes (c : Component) (attributes : List Attribute) :
    (c.addAttributes attributes).attributes = c.attributes ++ attributes := by
  unfold addAttributes
  induction attributes generalizing c with
  | nil => simp
  | cons a rest ih =>
    rw [List.foldl_cons, ih]
    simp [addAttribute]

@[simp] theorem symbol_withSpan (c : Component) (s : Span) : (c.withSpan s).symbol = c.symbol :=
  symbol_addAttributes c _

@[simp] theorem symbol_withModifiers (c : Component) (modifiers : List String) :
    (c.withModifiers modifiers).symbol = c.symbol :=
  symbol_addAttributes c _

@[simp] theorem symbol_withDefaultAccess (c : Component) :
    c.withDefaultAccess.symbol = c.symbol := by
  unfold withDefaultAccess
  split
  · rfl
  · exact symbol_addAttribute c _

/-! ## The mark of anonymous classes -/

@[simp] theorem marked_withSpan {c : Component} {s : Span} :
    anonymousMark ∈ (c.withSpan s).attributes ↔ anonymousMark ∈ c.attributes := by
  rw [withSpan, attributes_addAttributes, List.mem_append]
  simp [anonymousMark]

@[simp] theorem marked_withModifiers {c : Component} {modifiers : List String} :
    anonymousMark ∈ (c.withModifiers modifiers).attributes ↔ anonymousMark ∈ c.attributes := by
  have hne : anonymousMark ∉ modifiers.map modifierAttribute := by
    intro h
    obtain ⟨text, -, htext⟩ := List.mem_map.1 h
    unfold modifierAttribute at htext
    split at htext <;> cases htext
  rw [withModifiers, attributes_addAttributes, List.mem_append]
  simp [hne]

@[simp] theorem marked_withDefaultAccess {c : Component} :
    anonymousMark ∈ c.withDefaultAccess.attributes ↔ anonymousMark ∈ c.attributes := by
  unfold withDefaultAccess
  split
  · rfl
  · simp [addAttribute, anonymousMark]

/-! ## Kinds of attributes that are left to other places -/

/-- No attribute of the component has the kind. -/
def Lacks (c : Component) (kind : AttributeKind) : Prop := ∀ a ∈ c.attributes, a.kind ≠ kind

/-- The kinds of attributes that name a type. -/
def typeKinds : List AttributeKind := [.extendsType, .implementsType, .declaredType]

@[simp] theorem lacks_addAttribute {c : Component} {a : Attribute} {kind : AttributeKind} :
    (c.addAttribute a).Lacks kind ↔ c.Lacks kind ∧ a.kind ≠ kind := by
  simp [Lacks, addAttribute, or_imp, forall_and]

@[simp] theorem lacks_addAttributes {c : Component} {as : List Attribute} {kind : AttributeKind} :
    (c.addAttributes as).Lacks kind ↔ c.Lacks kind ∧ ∀ a ∈ as, a.kind ≠ kind := by
  simp [Lacks, or_imp, forall_and]

theorem lacks_uniteAttributes {c : Component} {as : List Attribute} {kind : AttributeKind} :
    (c.uniteAttributes as).Lacks kind ↔ c.Lacks kind ∧ ∀ a ∈ as, a.kind ≠ kind := by
  rw [uniteAttributes_eq]
  simp [Lacks, mem_unite, or_imp, forall_and]

section Lacks

variable {c : Component} {kind : AttributeKind} (hk : kind ∈ typeKinds)
include hk

theorem ne_typeKind (other : AttributeKind) (hother : other ∉ typeKinds) : other ≠ kind :=
  fun h => hother (h ▸ hk)

theorem lacks_withSpan {s : Span} : (c.withSpan s).Lacks kind ↔ c.Lacks kind := by
  have hspan := ne_typeKind hk
  rw [withSpan, lacks_addAttributes, and_iff_left]
  simp [hspan, typeKinds]

theorem kind_modifierAttribute (text : String) : (modifierAttribute text).kind ≠ kind := by
  unfold modifierAttribute
  split
  · exact ne_typeKind hk .annotated (by decide)
  · exact ne_typeKind hk .modifier (by decide)

theorem lacks_withModifiers {modifiers : List String} :
    (c.withModifiers modifiers).Lacks kind ↔ c.Lacks kind := by
  rw [withModifiers, lacks_addAttributes, and_iff_left]
  exact List.forall_mem_map.2 fun text _ => kind_modifierAttribute hk text

theorem lacks_withDefaultAccess : c.withDefaultAccess.Lacks kind ↔ c.Lacks kind := by
  unfold withDefaultAccess
  split
  · rfl
  · rw [lacks_addAttribute, and_iff_left]
    exact ne_typeKind hk .modifier (by decide)

end Lacks

end Component

namespace Scope

@[simp] theorem symbol_typeComponent (s : Scope) (h : TypeHeader) :
    (s.typeComponent h).symbol = ⟨h.kind.componentKind, h.name, none⟩ := by
  unfold typeComponent
  split
  · rw [Component.symbol_addAttribute, Component.symbol_withModifiers,
      Component.symbol_withSpan]
    rfl
  · rw [Component.symbol_withDefaultAccess, Component.symbol_withModifiers,
      Component.symbol_withSpan]
    rfl

theorem kind_typeComponent (s : Scope) (h : TypeHeader) :
    (s.typeComponent h).kind = h.kind.componentKind :=
  congrArg Symbol.kind (symbol_typeComponent s h)

@[simp] theorem symbol_constantComponent (h : ConstantHeader) :
    (constantComponent h).symbol = ⟨.enumConstant, h.name, none⟩ := by
  rw [constantComponent, Component.symbol_addAttributes, Component.symbol_withModifiers,
    Component.symbol_withSpan]
  rfl

theorem kind_constantComponent (h : ConstantHeader) : (constantComponent h).kind = .enumConstant :=
  congrArg Symbol.kind (symbol_constantComponent h)

@[simp] theorem symbol_callableComponent (kind : ComponentKind) (h : CallableHeader) :
    (callableComponent kind h).symbol = ⟨kind, h.name, some h.signature⟩ := by
  rw [callableComponent, Component.symbol_addAttributes, Component.symbol_withModifiers,
    Component.symbol_withSpan]
  rfl

theorem kind_callableComponent (kind : ComponentKind) (h : CallableHeader) :
    (callableComponent kind h).kind = kind :=
  congrArg Symbol.kind (symbol_callableComponent kind h)

@[simp] theorem symbol_parameterComponent (p : ParameterDecl) :
    (parameterComponent p).symbol = ⟨.parameter, p.name, none⟩ := by
  unfold parameterComponent
  rw [Component.symbol_withModifiers, Component.symbol_withSpan]
  split <;> rfl

@[simp] theorem symbol_fieldComponent (f : FieldDecl) (name : String) :
    (fieldComponent f name).symbol = ⟨.field, name, none⟩ := by
  have hplain : ((Component.withSpan { kind := .field, value := name } f.span).withModifiers
      f.modifiers).symbol = ⟨.field, name, none⟩ := by
    rw [Component.symbol_withModifiers, Component.symbol_withSpan]
    rfl
  unfold fieldComponent
  split
  · rw [Component.symbol_uniteAttributes, Component.symbol_addAttribute, hplain]
  · rw [Component.symbol_addAttribute, hplain]

theorem marked_typeComponent {s : Scope} {h : TypeHeader} (hfile : anonymousMark ∉ s.file) :
    anonymousMark ∈ (s.typeComponent h).attributes ↔ h.anonymous := by
  unfold typeComponent
  split
  · next ha => simp [Component.addAttribute, ha]
  · next ha => simpa [ha] using hfile

/-! ### Kinds that they lack -/

section Lacks

variable {kind : AttributeKind} (hk : kind ∈ Component.typeKinds)
include hk

theorem lacks_typeComponent {s : Scope} {h : TypeHeader} (hfile : ∀ a ∈ s.file, a.kind ≠ kind) :
    (s.typeComponent h).Lacks kind := by
  have hsource : Component.Lacks
      { kind := h.kind.componentKind, value := h.name, attributes := s.file.toList } kind := by
    intro a ha
    exact hfile a (Option.mem_toList.1 ha)
  unfold typeComponent
  split
  · rw [Component.lacks_addAttribute, Component.lacks_withModifiers hk,
      Component.lacks_withSpan hk]
    exact ⟨hsource, Component.ne_typeKind hk .localClass (by decide)⟩
  · rw [Component.lacks_withDefaultAccess hk, Component.lacks_withModifiers hk,
      Component.lacks_withSpan hk]
    exact hsource

theorem lacks_constantComponent {h : ConstantHeader} : (constantComponent h).Lacks kind := by
  rw [constantComponent, Component.lacks_addAttributes, Component.lacks_withModifiers hk,
    Component.lacks_withSpan hk]
  refine ⟨nofun, List.forall_mem_map.2 fun m _ => ?_⟩
  exact Component.ne_typeKind hk .modifier (by decide)

theorem lacks_callableComponent {callable : ComponentKind} {h : CallableHeader} :
    (callableComponent callable h).Lacks kind := by
  rw [callableComponent, Component.lacks_addAttributes, Component.lacks_withModifiers hk,
    Component.lacks_withSpan hk]
  refine ⟨nofun, List.forall_mem_map.2 fun text _ => ?_⟩
  exact Component.ne_typeKind hk .returnType (by decide)

theorem lacks_parameterComponent {p : ParameterDecl} (hne : kind ≠ .declaredType) :
    (parameterComponent p).Lacks kind := by
  have hbare : Component.Lacks { kind := .parameter, value := p.name, attributes :=
      [⟨.declaredType, Text.normalizeBlanks p.declaredType⟩] } kind := by
    intro a ha
    rw [List.mem_singleton.1 ha]
    exact hne.symm
  unfold parameterComponent
  rw [Component.lacks_withModifiers hk, Component.lacks_withSpan hk]
  split
  · rw [Component.lacks_addAttribute]
    exact ⟨hbare, Component.ne_typeKind hk .variadic (by decide)⟩
  · exact hbare

theorem lacks_fieldComponent {f : FieldDecl} {name : String} (hne : kind ≠ .declaredType) :
    (fieldComponent f name).Lacks kind := by
  have hplain : (((Component.withSpan { kind := .field, value := name } f.span).withModifiers
      f.modifiers).addAttribute ⟨.declaredType, Text.normalizeBlanks f.declaredType⟩).Lacks
        kind := by
    rw [Component.lacks_addAttribute, Component.lacks_withModifiers hk,
      Component.lacks_withSpan hk]
    exact ⟨nofun, hne.symm⟩
  unfold fieldComponent
  split
  · rw [Component.lacks_uniteAttributes]
    refine ⟨hplain, List.forall_mem_map.2 fun m _ => ?_⟩
    exact Component.ne_typeKind hk .modifier (by decide)
  · exact hplain

end Lacks

end Scope

end SymbolTable
