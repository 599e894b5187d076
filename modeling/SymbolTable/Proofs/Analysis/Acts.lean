import SymbolTable.Proofs.Analysis.Skeleton
import SymbolTable.Proofs.Tree.Merge
import Mathlib.Logic.Relation

/-!
# What a walk is made of

Each event of a walk does a few elementary acts: it looks something up, puts a component, moves the
cursor, relates a declaration to types, or enters an enum constant. `acts_step` says this once, for
both phases and in any application. What all acts keep, every walk keeps.
-/

namespace SymbolTable

open SymbolTable.Tree (root)
open SymbolTable.Component (Lacks typeKinds)

/-- A component that is neither a root nor an enum constant and has no edges yet. -/
structure Component.Plain (c : Component) : Prop where
  ne_root : c.kind ≠ .root
  ne_constant : c.kind ≠ .enumConstant
  lacks : ∀ {kind : AttributeKind}, kind.IsEdge → c.Lacks kind

theorem AttributeKind.IsEdge.mem_typeKinds {kind : AttributeKind} (h : kind.IsEdge) :
    kind ∈ typeKinds := by
  rcases h with rfl | rfl <;> decide

theorem AttributeKind.IsEdge.ne_declaredType {kind : AttributeKind} (h : kind.IsEdge) :
    kind ≠ .declaredType := by
  rcases h with rfl | rfl <;> decide

namespace Scope

/-- What holds of a scope all along a walk. -/
structure Sound (s : Scope) : Prop where
  grown : s.tree.Grown
  cursor_lt : s.cursor < s.tree.size
  file : ∀ a ∈ s.file, a.kind = .sourceName
  imports : ∀ c ∈ s.imports, c.Plain

/-! ## Plain components -/

section Plain

/-- Kind and attributes are all that makes a component plain. -/
theorem plain_of_symbol {c : Component} {sym : Symbol} (hsymbol : c.symbol = sym)
    (hroot : sym.kind ≠ .root) (hconstant : sym.kind ≠ .enumConstant)
    (hlacks : ∀ {kind : AttributeKind}, kind.IsEdge → c.Lacks kind) : c.Plain where
  ne_root := by
    rw [show c.kind = sym.kind from congrArg Symbol.kind hsymbol]
    exact hroot
  ne_constant := by
    rw [show c.kind = sym.kind from congrArg Symbol.kind hsymbol]
    exact hconstant
  lacks := hlacks

theorem plain_importComponent (i : ImportDecl) : (importComponent i).Plain :=
  ⟨nofun, nofun, fun _ => nofun⟩

theorem plain_packageComponent (name : String) {attributes : List Attribute}
    (h : ∀ a ∈ attributes, a.kind = .sourceName) :
    (packageComponent name attributes).Plain := by
  refine ⟨nofun, nofun, fun {kind} hedge a ha hkind => ?_⟩
  rw [h a ha] at hkind
  subst hkind
  rcases hedge with hedge | hedge <;> cases hedge

theorem plain_defaultConstructor (owner : String) : (defaultConstructor owner).Plain := by
  refine ⟨nofun, nofun, fun {kind} hedge a ha hkind => ?_⟩
  rw [List.mem_singleton.1 ha] at hkind
  subst hkind
  rcases hedge with hedge | hedge <;> cases hedge

theorem plain_typeParameterComponent (p : TypeParameterDecl) : (typeParameterComponent p).Plain := by
  refine plain_of_symbol (symbol_typeParameterComponent p) (by simp) (by simp) fun hedge => ?_
  rw [typeParameterComponent, Component.lacks_withSpan hedge.mem_typeKinds]
  exact fun _ ha => absurd ha List.not_mem_nil

theorem plain_typeComponent {s : Scope} (hs : ∀ a ∈ s.file, a.kind = .sourceName)
    (h : TypeHeader) : (s.typeComponent h).Plain := by
  refine plain_of_symbol (symbol_typeComponent s h) ?_ ?_ fun {kind} hedge => ?_
  · exact (kind_ne_of_typeKind h.kind).1
  · cases h.kind <;> nofun
  · refine lacks_typeComponent hedge.mem_typeKinds fun a ha => ?_
    rw [hs a ha]
    exact Component.ne_typeKind hedge.mem_typeKinds .sourceName (by decide)

theorem plain_callableComponent {kind : ComponentKind} (hroot : kind ≠ .root)
    (hconstant : kind ≠ .enumConstant) (h : CallableHeader) : (callableComponent kind h).Plain :=
  plain_of_symbol (symbol_callableComponent kind h) hroot hconstant fun hedge =>
    lacks_callableComponent hedge.mem_typeKinds

theorem plain_parameterComponent (p : ParameterDecl) : (parameterComponent p).Plain :=
  plain_of_symbol (symbol_parameterComponent p) (by simp) (by simp) fun hedge =>
    lacks_parameterComponent hedge.mem_typeKinds hedge.ne_declaredType

theorem plain_fieldComponent (f : FieldDecl) (name : String) : (fieldComponent f name).Plain :=
  plain_of_symbol (symbol_fieldComponent f name) (by simp) (by simp) fun hedge =>
    lacks_fieldComponent hedge.mem_typeKinds hedge.ne_declaredType

end Plain

/-! ## Acts -/

/-- An elementary act of a walk. -/
inductive Act (app : Application) (phase : Phase) (s : Scope) : Scope → Prop
  | look {s' : Scope} (htree : s'.tree = s.tree) (hcursor : s'.cursor = s.cursor)
      (hfile : ∀ a ∈ s'.file, a.kind = .sourceName) (himports : ∀ c ∈ s'.imports, c.Plain) :
      Act app phase s s'
  | put (parent : NodeId) (c : Component) (hp : parent < s.tree.size) (hc : c.Plain) :
      Act app phase s (s.put parent c).2
  | moveTo (id : NodeId) (hid : id < s.tree.size) : Act app phase s (s.moveTo id)
  | relate {s' : Scope} (h : s.Relates app s') : Act app phase s s'
  | constant (h : ConstantHeader) : Act app phase s (s.enterConstant app phase h)

theorem extends_mark (s : Scope) (id : NodeId) (kind : AttributeKind) (value : String) :
    s.tree.Extends (s.mark id kind value).tree := Tree.extends_uniteAt s.tree id [⟨kind, value⟩]

theorem Marks.growth {s s' : Scope} (h : s.Marks s') : s.tree.Extends s'.tree := by
  induction h with
  | none => exact Tree.Extends.refl _
  | mark _ id value _ ih => exact ih.trans (extends_mark _ id _ value)

theorem Marks.sound {s s' : Scope} (h : s.Marks s') (hs : s.Sound) : s'.Sound := by
  have halike := h.alike
  refine ⟨hs.grown.of_sameShape halike.tree.sameShape, ?_, ?_, ?_⟩
  · rw [halike.cursor]
    exact h.growth.lt hs.cursor_lt
  · rw [halike.file]
    exact hs.file
  · rw [halike.imports]
    exact hs.imports

namespace Sound

variable {s : Scope} (hs : s.Sound)
include hs

theorem put {parent : NodeId} {c : Component} (hp : parent < s.tree.size) (hc : c.kind ≠ .root) :
    (s.put parent c).2.Sound := by
  rw [put_eq]
  exact ⟨hs.grown.put hp hc, (Tree.extends_put _ c hp).lt hs.cursor_lt, hs.file, hs.imports⟩

theorem moveTo {id : NodeId} (hid : id < s.tree.size) : (s.moveTo id).Sound :=
  ⟨hs.grown, hid, hs.file, hs.imports⟩

theorem put_fst_lt (parent : NodeId) (c : Component) :
    (s.put parent c).1 < (s.put parent c).2.tree.size := by
  rw [put_eq]
  exact hs.grown.put_fst_lt parent c

theorem enter {c : Component} (hc : c.kind ≠ .root) : (s.enter c).2.Sound :=
  (hs.put hs.cursor_lt hc).moveTo (hs.put_fst_lt s.cursor c)

end Sound

namespace Act

variable {app : Application} {phase : Phase} {s s' : Scope}

theorem growth (h : Act app phase s s') (hs : s.Sound) : s.tree.Extends s'.tree := by
  cases h with
  | look htree => rw [htree]; exact Tree.Extends.refl _
  | put parent c hp => rw [put_eq]; exact Tree.extends_put _ c hp
  | moveTo => exact Tree.Extends.refl _
  | relate h => exact h.marks.growth
  | constant h =>
    rw [enterConstant_eq]
    refine Tree.Extends.trans ?_ (marks_relateConstant _ app _ phase _).growth
    rw [enter_eq, put_eq]
    exact Tree.extends_put _ _ hs.cursor_lt

theorem sound (h : Act app phase s s') (hs : s.Sound) : s'.Sound := by
  cases h with
  | look htree hcursor hfile himports =>
    refine ⟨?_, ?_, hfile, himports⟩
    · rw [htree]
      exact hs.grown
    · rw [htree, hcursor]
      exact hs.cursor_lt
  | put parent c hp hc => exact hs.put hp hc.ne_root
  | moveTo id hid => exact hs.moveTo hid
  | relate h => exact h.marks.sound hs
  | constant h =>
    rw [enterConstant_eq]
    refine (marks_relateConstant _ app _ phase _).sound (hs.enter ?_)
    rw [kind_constantComponent]
    exact nofun

end Act

/-- One act after the other. -/
def Acts (app : Application) (phase : Phase) : Scope → Scope → Prop :=
  Relation.ReflTransGen (Act app phase)

namespace Acts

variable {app : Application} {phase : Phase} {s s' s'' : Scope}

theorem refl (s : Scope) : Acts app phase s s := Relation.ReflTransGen.refl

theorem one (h : Act app phase s s') : Acts app phase s s' := Relation.ReflTransGen.single h

theorem trans (h : Acts app phase s s') (h' : Acts app phase s' s'') : Acts app phase s s'' :=
  Relation.ReflTransGen.trans h h'

/-- What every act keeps on sound scopes holds after all of them. -/
theorem keeps {P : Scope → Prop}
    (hP : ∀ {s s'}, Act app phase s s' → s.Sound → P s → P s')
    (h : Acts app phase s s') (hs : s.Sound) (hp : P s) : s'.Sound ∧ P s' := by
  induction h with
  | refl => exact ⟨hs, hp⟩
  | tail _ hact ih => exact ⟨hact.sound ih.1, hP hact ih.1 ih.2⟩

theorem sound (h : Acts app phase s s') (hs : s.Sound) : s'.Sound :=
  (h.keeps (P := fun _ => True) (fun _ _ _ => trivial) hs trivial).1

theorem growth (h : Acts app phase s s') (hs : s.Sound) : s.tree.Extends s'.tree :=
  (h.keeps (P := fun s' => s.tree.Extends s'.tree)
    (fun hact hs hgrowth => hgrowth.trans (hact.growth hs)) hs (Tree.Extends.refl _)).2

theorem foldl {α : Type} {f : Scope → α → Scope} (hf : ∀ s a, Sound s → Acts app phase s (f s a))
    (as : List α) {s : Scope} (hs : s.Sound) : Acts app phase s (as.foldl f s) := by
  induction as generalizing s with
  | nil => exact refl s
  | cons a as ih =>
    have hstep := hf s a hs
    exact hstep.trans (ih (hstep.sound hs))

end Acts

/-! ## Steps are acts -/

section Steps

variable {app : Application} {phase : Phase} {s : Scope} (hs : s.Sound)
include hs

theorem acts_putHere {c : Component} (hc : c.Plain) : Acts app phase s (s.putHere c).2 :=
  .one (.put s.cursor c hs.cursor_lt hc)

theorem acts_enter {c : Component} (hc : c.Plain) : Acts app phase s (s.enter c).2 :=
  (acts_putHere hs hc).trans (.one (.moveTo _ (hs.put_fst_lt s.cursor c)))

omit hs in
/-- Puts below one node, which stays a node of the tree. -/
theorem acts_puts {α : Type} {component : α → Component} (as : List α)
    (has : ∀ a ∈ as, (component a).Plain) {s : Scope} (hs : s.Sound) {id : NodeId}
    (hid : id < s.tree.size) :
    Acts app phase s (as.foldl (fun s a => (s.put id (component a)).2) s) := by
  induction as generalizing s with
  | nil => exact .refl s
  | cons a as ih =>
    have hput : Acts app phase s (s.put id (component a)).2 :=
      .one (.put id _ hid (has a List.mem_cons_self))
    have hrest := ih (fun b hb => has b (List.mem_cons_of_mem a hb)) (hput.sound hs)
      ((hput.growth hs).lt hid)
    exact hput.trans hrest

theorem acts_ascend : Acts app phase s s.ascend := by
  unfold ascend
  split
  · next p hparent =>
    have hchild := hs.grown.mem_children_of_parent hs.cursor_lt hparent
    exact .one (.moveTo p (Tree.lt_size_of_mem_children hchild))
  · exact .refl s

omit hs in
theorem acts_ensureDefaultConstructor {owner : NodeId} (howner : owner < s.tree.size) :
    Acts app phase s (s.ensureDefaultConstructor owner) := by
  unfold ensureDefaultConstructor
  split
  · exact .refl s
  · exact .one (.put owner _ howner (plain_defaultConstructor _))

theorem acts_openPackage (hasPackage : Bool) (coordinate : String) :
    Acts app phase s ({ s with hasPackage }.openPackage app coordinate) := by
  have hclear := clearVisible_openPackage { s with hasPackage } app coordinate
  obtain ⟨htree, hcursor, hfile, -, himports⟩ := of_clearVisible_eq hclear
  refine .one (.look htree hcursor ?_ ?_)
  · rw [hfile]
    exact hs.file
  · rw [himports]
    exact hs.imports

theorem acts_enterPackage (p : PackageDecl) : Acts app phase s (s.enterPackage app p) := by
  have hpackages : Acts app phase s
      (p.segments.foldl (fun s segment => (s.enter (packageComponent segment [])).2) s) := by
    refine Acts.foldl (fun s segment hs => acts_enter hs ?_) _ hs
    exact plain_packageComponent segment fun a ha => absurd ha List.not_mem_nil
  exact hpackages.trans (acts_openPackage (hpackages.sound hs) true _)

theorem acts_enterImport (i : ImportDecl) : Acts app phase s (s.enterImport app i) := by
  rw [enterImport_eq]
  have hclear := clearVisible_openImport (s.addImport (importComponent i)).1 app i
  obtain ⟨htree, hcursor, hfile, -, himports⟩ := of_clearVisible_eq hclear
  rw [addImport_fst] at htree hcursor hfile himports ⊢
  refine .one (.look htree hcursor ?_ ?_)
  · rw [hfile]
    exact hs.file
  · rw [himports]
    intro c hc
    rcases mem_or_eq_of_mem_recordImport hc with hc | rfl
    · exact hs.imports c hc
    · exact plain_importComponent i

theorem acts_ensurePackage : Acts app phase s (s.ensurePackage app) := by
  unfold ensurePackage
  split
  · exact .refl s
  · have henter : Acts app phase s
        (s.enter (packageComponent app.naming.defaultPackage s.file.toList)).2 :=
      acts_enter hs (plain_packageComponent _ fun a ha => hs.file a (Option.mem_toList.1 ha))
    exact henter.trans (acts_openPackage (henter.sound hs) true _)

theorem acts_declareTypeParameters {owner : NodeId} (howner : owner < s.tree.size)
    (ps : List TypeParameterDecl) : Acts app phase s (s.declareTypeParameters owner ps) :=
  acts_puts ps (fun p _ => plain_typeParameterComponent p) hs howner

/-- What is put first, then filled with what it lists, then entered. -/
theorem acts_fill {id : NodeId} {listed : Scope} (hlisted : Acts app phase s listed)
    (hid : id < s.tree.size) (ps : List TypeParameterDecl) :
    Acts app phase s ((listed.declareTypeParameters id ps).moveTo id) := by
  have hid' := (hlisted.growth hs).lt hid
  have hparameters : Acts app phase listed (listed.declareTypeParameters id ps) :=
    acts_declareTypeParameters (hlisted.sound hs) hid' ps
  have hid'' := (hparameters.growth (hlisted.sound hs)).lt hid'
  exact hlisted.trans (hparameters.trans (.one (.moveTo id hid'')))

theorem acts_declareType (h : TypeHeader) : Acts app phase s (s.declareType app h).2 := by
  have hpackage : Acts app phase s (s.ensurePackage app) := acts_ensurePackage hs
  have hs' := hpackage.sound hs
  have hput : Acts app phase (s.ensurePackage app)
      ((s.ensurePackage app).putHere ((s.ensurePackage app).typeComponent h)).2 :=
    acts_putHere hs' (plain_typeComponent hs'.file h)
  have hid := hs'.put_fst_lt (s.ensurePackage app).cursor ((s.ensurePackage app).typeComponent h)
  have hsput := hput.sound hs'
  refine (hpackage.trans hput).trans (acts_fill hsput ?_ hid h.typeParameters)
  split
  · exact acts_puts _ hsput.imports hsput hid
  · exact .refl _

theorem acts_enterType (h : TypeHeader) : Acts app phase s (s.enterType app phase h) := by
  rw [enterType_eq]
  exact (acts_declareType hs h).trans (.one (.relate (relates_relateType _ app _ phase h)))

theorem acts_exitTypeBody (h : TypeHeader) : Acts app phase s (s.exitTypeBody h) := by
  unfold exitTypeBody
  split
  · exact acts_ensureDefaultConstructor hs.cursor_lt
  · exact acts_ensureDefaultConstructor hs.cursor_lt
  · exact .refl s
  · exact .refl s

theorem acts_exitConstant : Acts app phase s s.exitConstant := by
  have hconstructor : Acts app phase s (s.ensureDefaultConstructor s.cursor) :=
    acts_ensureDefaultConstructor hs.cursor_lt
  exact hconstructor.trans (acts_ascend (hconstructor.sound hs))

theorem acts_enterCallable (kind : ComponentKind) (hroot : kind ≠ .root)
    (hconstant : kind ≠ .enumConstant) (h : CallableHeader) :
    Acts app phase s (s.enterCallable app phase kind h) := by
  have hput : Acts app phase s (s.putHere (callableComponent kind h)).2 :=
    acts_putHere hs (plain_callableComponent hroot hconstant h)
  have hid := hs.put_fst_lt s.cursor (callableComponent kind h)
  rw [enterCallable_eq]
  refine (hput.trans (acts_fill (hput.sound hs) (.refl _) hid h.typeParameters)).trans ?_
  exact .one (.relate (relates_relateCallable _ app _ phase h))

/-- Every event is a sequence of acts. -/
theorem acts_step (e : Event) : Acts app phase s (step app phase s e) := by
  cases e with
  | enterUnit u =>
    refine .one (.look rfl rfl ?_ hs.imports)
    intro a ha
    rw [← Option.some.inj ha]
  | exitUnit => exact .refl s
  | enterPackage p => exact acts_enterPackage hs p
  | enterImport i => exact acts_enterImport hs i
  | enterType d => exact acts_enterType hs d.header
  | exitTypeBody d => exact acts_exitTypeBody hs d.header
  | exitType => exact acts_ascend hs
  | enterConstant d => exact .one (.constant d.header)
  | exitConstant => exact acts_exitConstant hs
  | enterConstructor d => exact acts_enterCallable hs .constructor (by decide) (by decide) d.header
  | exitConstructor => exact acts_ascend hs
  | enterMethod d => exact acts_enterCallable hs .method (by decide) (by decide) d.header
  | exitMethod => exact acts_ascend hs
  | enterParameter p => exact acts_putHere hs (plain_parameterComponent p)
  | enterField f =>
    exact Acts.foldl (fun s name hs => acts_putHere hs (plain_fieldComponent f name)) f.names hs

theorem acts_steps (events : List Event) : Acts app phase s (events.foldl (step app phase) s) :=
  Acts.foldl (fun _ e hs => acts_step hs e) events hs

end Steps

/-- The scope with which the walk of a file starts. -/
theorem sound_seed (s : Scope) (app : Application) : (s.fullReset.seed app).Sound :=
  ⟨Tree.grown_empty, Tree.grown_empty.root_lt, nofun, nofun⟩

end Scope

end SymbolTable
