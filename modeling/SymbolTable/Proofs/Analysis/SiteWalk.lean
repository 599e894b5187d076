import SymbolTable.Proofs.Analysis.EarlyReading
import SymbolTable.Proofs.Analysis.SiteEdges

/-!
# Walking from site to site

A structural step does what the same step of the declaration phase does, and then relates. Declaring
adds no edges, and each type that is new comes from a heading. So the walk of a file gains the edges
of its sites, one after the other, and each is read as the whole program says.
-/

namespace SymbolTable

open SymbolTable.Tree (root)
open SymbolTable.Tree.Entry (attributesOf)

theorem Tree.Extends.mem_attributesOf {t t' : Tree} (he : t.Extends t') (h : t.Grown)
    {x : List Symbol} {a : Attribute} (ha : a ∈ attributesOf (t.entry x)) :
    a ∈ attributesOf (t'.entry x) := by
  obtain ⟨id, hid⟩ := isSome_entry_iff.1 (isSome_of_mem_attributesOf ha)
  rw [attributesOf_of_follow hid] at ha
  rw [attributesOf_of_follow (he.follow h h.root_lt hid)]
  exact (he.attributes (h.follow_lt h.root_lt hid)).subset ha

/-! ## What one event declares -/

/-- Declared by the event at the path: no edges, and a type only by the heading of a type. -/
structure Placement.DeclaredBy (file : Option Attribute) (path : List Symbol) (e : Event)
    (p : Placement) : Prop where
  ne_root : p.component.kind ≠ .root
  lacks : ∀ {kind : AttributeKind}, kind.IsEdge → p.component.Lacks kind
  type : p.isType = true →
    ∃ d, e = .enterType d ∧ p = ⟨path, d.header.component file, false⟩

namespace Placement.DeclaredBy

variable {file : Option Attribute} {path outer : List Symbol} {e : Event}

theorem of_plain {c : Component} {fallback : Bool} (hc : c.Plain)
    (htype : c.kind.isTypeDeclaration = false) : DeclaredBy file path e ⟨outer, c, fallback⟩ where
  ne_root := hc.ne_root
  lacks := hc.lacks
  type h := by
    rw [isType, htype] at h
    cases h

theorem of_mem_map {α : Type} {f : α → Component} {as : List α} (hf : ∀ a ∈ as, (f a).Plain)
    (htype : ∀ a ∈ as, (f a).kind.isTypeDeclaration = false) :
    ∀ p ∈ as.map fun a => (⟨outer, f a, false⟩ : Placement), DeclaredBy file path e p :=
  List.forall_mem_map.2 fun a ha => of_plain (hf a ha) (htype a ha)

theorem typeParameters (ps : List TypeParameterDecl) :
    ∀ p ∈ ps.map fun p => (⟨outer, typeParameterComponent p, false⟩ : Placement),
      DeclaredBy file path e p :=
  of_mem_map (fun p _ => Scope.plain_typeParameterComponent p) fun p _ =>
    congrArg (·.kind.isTypeDeclaration) (symbol_typeParameterComponent p)

end Placement.DeclaredBy

namespace Scope

open SymbolTable.Placement (DeclaredBy)

/-- The scope `s'` has what the event declares at the path, and the imports of `s`. -/
def DeclaresTo (s : Scope) (path : List Symbol) (e : Event) (s' : Scope) : Prop :=
  ∃ pls, s.tree.Builds pls s'.tree ∧ s'.imports = s.imports ∧ ∀ p ∈ pls, DeclaredBy s.file path e p

section DeclaresTo

variable {s s' : Scope} {path : List Symbol} {e : Event}

theorem Places.declaresTo {pls : List Placement} (h : s.Places pls s')
    (hpls : ∀ p ∈ pls, DeclaredBy s.file path e p) : s.DeclaresTo path e s' :=
  ⟨pls, h.toBuilds, h.imports, hpls⟩

theorem declaresTo_self (hs : s.tree.Grown) : s.DeclaresTo path e s :=
  ⟨[], .refl hs, rfl, fun _ hp => absurd hp List.not_mem_nil⟩

theorem DeclaresTo.ascend (h : s.DeclaresTo path e s') : s.DeclaresTo path e s'.ascend := by
  unfold Scope.ascend
  split
  · exact h
  · exact h

theorem declaresTo_ensureDefaultConstructor (hs : s.tree.Grown) (hat : s.At path) (e : Event) :
    s.DeclaresTo path e (s.ensureDefaultConstructor s.cursor) := by
  refine (places_default hs hat).1.declaresTo fun p hp => ?_
  rw [List.mem_singleton.1 hp]
  exact .of_plain (plain_defaultConstructor _) rfl

end DeclaresTo

/-- A structural step declares, and then relates what it has declared. -/
theorem marks_step (s : Scope) (app : Application) (e : Event) :
    (step app .declaration s e).Marks (step app .structural s e) := by
  cases e with
  | enterType d =>
    rw [step, step, enterType_eq, enterType_eq]
    exact (relates_relateType _ app _ .structural d.header).marks
  | enterConstructor d =>
    rw [step, step, enterCallable_eq, enterCallable_eq]
    exact (relates_relateCallable _ app _ .structural d.header).marks
  | enterMethod d =>
    rw [step, step, enterCallable_eq, enterCallable_eq]
    exact (relates_relateCallable _ app _ .structural d.header).marks
  | enterConstant d =>
    rw [step, step, enterConstant_eq, enterConstant_eq]
    exact marks_relateConstant _ app _ .structural _
  | _ => exact .none

end Scope

/-- Marking other types keeps the file a part of the program. -/
theorem Scope.Mirrors.of_marks {s s' : Scope} {app : Application} {u : CompilationUnit}
    (h : s.Mirrors app u) (hs : s.Marks s') : s'.Mirrors app u := by
  have ha := hs.alike.tree
  refine ⟨h.grown.of_sameShape ha.sameShape, h.symbol_root.trans (ha.node root).symbol.symm,
    fun hj => ?_, fun {x j k} hj hk htype => ?_, fun hsym hsome => ?_,
    h.views.of_sameView hs.sameView⟩
  · rw [ha.sameShape.follow] at hj
    exact h.copied hj
  · rw [ha.sameShape.follow] at hj
    rw [show (s'.tree.node j).kind = _ from congrArg Symbol.kind (ha.node j).symbol] at htype
    rw [(ha.node j).marked]
    exact h.marked hj hk htype
  · rw [ha.isSome_entry] at hsome
    exact h.topLevel hsym hsome

/-! ## Between events -/

def Heading.isNamedType : Heading → Bool
  | .type h => !h.anonymous
  | .callable _ => false

namespace CompilationUnit

/-- The file declares a named type at the path. -/
def Names (naming : Naming) (u : CompilationUnit) (x : List Symbol) : Prop :=
  ∃ site ∈ u.sites naming, site.path = x ∧ site.heading.isNamedType = true

/-- No named type of the file is marked as an anonymous class. -/
def KeepsNames (app : Application) (u : CompilationUnit) : Prop :=
  ∀ site ∈ u.sites app.naming, site.heading.isNamedType = true →
    anonymousMark ∉ attributesOf (app.components.entry site.path)

end CompilationUnit

/-- The edges that a site of the file leads to in the program. -/
def Application.edgesAt (app : Application) (u : CompilationUnit) : Site → List PathEdge :=
  Reader.edges (app.reads u) app.naming.nestedSeparator

/-- The program has what the file declares, and gives each of its type names one meaning. -/
structure Application.Hosts (app : Application) (u : CompilationUnit) : Prop where
  grown : app.components.Grown
  symbol_root : (app.components.node Tree.root).symbol = (Tree.empty.node Tree.root).symbol
  includes : app.components.Includes (u.skeleton app.naming)
  legible : app.components.Legible app.naming.delimiter
  keepsNames : u.KeepsNames app
  seesOwnTypes : u.SeesOwnTypes app

namespace Scope

/-- The scope is between two events below the heading of the file, with the cursor at the path. -/
structure Underway (s : Scope) (app : Application) (u : CompilationUnit) (path : List Symbol) :
    Prop where
  sound : s.Sound
  hasPackage : s.hasPackage = true
  cursor : s.At path
  views : s.Views app u
  imports : ∀ i ∈ s.imports, ∃ kind, i.kind = .importOf kind
  named : ∀ {x j}, s.tree.follow root x = some j →
    (s.tree.node j).kind.isTypeDeclaration = true → anonymousMark ∉ (s.tree.node j).attributes →
      u.Names app.naming x

/-- The imports that are listed with a type of the file are those of the file. -/
theorem mem_imports_of_listed {s : Scope} {i : Component}
    (hi : i ∈ if (s.tree.node s.cursor).kind = .package then s.imports else []) :
    i ∈ s.imports := by
  split at hi
  · exact hi
  · exact absurd hi List.not_mem_nil

namespace Underway

variable {s s' : Scope} {app : Application} {u : CompilationUnit} {path : List Symbol} {e : Event}
  (h : s.Underway app u path)
include h

theorem stands : s.Stands s.file path
    (if (s.tree.node s.cursor).kind = .package then s.imports else []) :=
  ⟨h.sound.grown, h.cursor, rfl, h.hasPackage, rfl⟩

theorem of_marks (hs : s.Marks s') : s'.Underway app u path where
  sound := hs.sound h.sound
  hasPackage := hs.alike.hasPackage.trans h.hasPackage
  cursor := by
    rw [At, hs.alike.tree.sameShape.follow, hs.alike.cursor]
    exact h.cursor
  views := h.views.of_sameView hs.sameView
  imports := by
    rw [hs.alike.imports]
    exact h.imports
  named {x j} hj htype hmark := by
    have hnode := hs.alike.tree.node j
    rw [hs.alike.tree.sameShape.follow] at hj
    rw [hnode.marked] at hmark
    rw [show (s'.tree.node j).kind = _ from congrArg Symbol.kind hnode.symbol] at htype
    exact h.named hj htype hmark

theorem anonymousMark_notMem_file : anonymousMark ∉ s.file := by
  intro hfile
  have hkind := h.sound.file _ hfile
  rw [anonymousMark] at hkind
  cases hkind

section Declares

open SymbolTable.Placement (DeclaredBy)

theorem declaresTo_enterType (d : TypeDecl) :
    s.DeclaresTo path (.enterType d) (s.enterType app .declaration d.header) := by
  have hplaces := (places_enterType app h.stands
    (fun i hi => (h.sound.imports i (mem_imports_of_listed hi)).ne_root) d.header).1
  refine hplaces.declaresTo (List.forall_mem_cons.2 ⟨?_, fun p hp => ?_⟩)
  · have hplain : (d.header.component s.file).Plain := plain_typeComponent h.sound.file d.header
    exact ⟨hplain.ne_root, hplain.lacks, fun _ => ⟨d, rfl, rfl⟩⟩
  · rcases List.mem_append.1 hp with hp | hp
    · refine DeclaredBy.of_mem_map (f := id) (fun i hi => h.sound.imports i (mem_imports_of_listed hi))
        (fun i hi => ?_) p hp
      obtain ⟨kind, hkind⟩ := h.imports i (mem_imports_of_listed hi)
      rw [id, hkind]
      rfl
    · exact DeclaredBy.typeParameters _ p hp

theorem declaresTo_enterCallable {kind : ComponentKind} (hroot : kind ≠ .root)
    (hpackage : kind ≠ .package) (hconstant : kind ≠ .enumConstant)
    (htype : kind.isTypeDeclaration = false) (header : CallableHeader) :
    s.DeclaresTo path e (s.enterCallable app .declaration kind header) := by
  refine (places_enterCallable app h.stands hroot hpackage header).1.declaresTo
    (List.forall_mem_cons.2 ⟨?_, DeclaredBy.typeParameters _⟩)
  refine .of_plain (plain_callableComponent hroot hconstant header) ?_
  rw [kind_callableComponent]
  exact htype

theorem declaresTo_enterConstant (header : ConstantHeader) :
    s.DeclaresTo path e (s.enterConstant app .declaration header) := by
  refine (places_enterConstant app h.stands header).1.declaresTo fun p hp => ?_
  have hkind := kind_constantComponent header
  rw [List.mem_singleton.1 hp]
  refine ⟨by rw [hkind]; decide, fun hedge => lacks_constantComponent hedge.mem_typeKinds,
    fun htype => ?_⟩
  rw [Placement.isType, hkind] at htype
  cases htype

theorem declaresTo_exitTypeBody (header : TypeHeader) :
    s.DeclaresTo path e (s.exitTypeBody header) := by
  unfold exitTypeBody
  split
  · exact declaresTo_ensureDefaultConstructor h.sound.grown h.cursor e
  · exact declaresTo_ensureDefaultConstructor h.sound.grown h.cursor e
  · exact declaresTo_self h.sound.grown
  · exact declaresTo_self h.sound.grown

/-- An event below the heading of a file builds what it declares. -/
theorem declaresTo_step (he : e.isHeading = false) :
    s.DeclaresTo path e (step app .declaration s e) := by
  have hself : s.DeclaresTo path e s := declaresTo_self h.sound.grown
  cases e with
  | enterPackage p => cases he
  | enterImport i => cases he
  | enterUnit u => exact hself
  | exitUnit u => exact hself
  | exitType d => exact hself.ascend
  | exitConstructor d => exact hself.ascend
  | exitMethod d => exact hself.ascend
  | enterType d => exact h.declaresTo_enterType d
  | exitTypeBody d => exact h.declaresTo_exitTypeBody d.header
  | enterConstant d => exact h.declaresTo_enterConstant d.header
  | exitConstant d =>
    exact (declaresTo_ensureDefaultConstructor h.sound.grown h.cursor _).ascend
  | enterConstructor d =>
    exact h.declaresTo_enterCallable (by decide) (by decide) (by decide) rfl d.header
  | enterMethod d =>
    exact h.declaresTo_enterCallable (by decide) (by decide) (by decide) rfl d.header
  | enterParameter p =>
    have hruns (imports) : Runs app s.file path imports _ _ := Runs.parameters [p]
    exact (hruns _ s h.stands).1.declaresTo
      (DeclaredBy.of_mem_map (fun p _ => plain_parameterComponent p) fun p _ =>
        congrArg (·.kind.isTypeDeclaration) (symbol_parameterComponent p))
  | enterField f =>
    have hruns (imports) : Runs app s.file path imports _ _ := Runs.field f
    exact (hruns _ s h.stands).1.declaresTo
      (DeclaredBy.of_mem_map (fun name _ => plain_fieldComponent f name) fun name _ =>
        congrArg (·.kind.isTypeDeclaration) (symbol_fieldComponent f name))

end Declares

/-- The type that an event enters has its own attributes and type parameters. -/
theorem declared_enterType (header : TypeHeader) :
    (∀ p ∈ header.typeParameters, ((s.enterType app .declaration header).tree.follow root
      (path ++ [header.symbol] ++ [(typeParameterComponent p).symbol])).isSome) ∧
    (header.anonymous = true → anonymousMark ∈ ((s.enterType app .declaration header).tree.node
      (s.enterType app .declaration header).cursor).attributes) := by
  obtain ⟨hplaces, hstands⟩ := places_enterType app h.stands
    (fun i hi => (h.sound.imports i (mem_imports_of_listed hi)).ne_root) header
  rw [header.symbol_component] at hplaces hstands
  refine ⟨fun p hp => ?_, fun hanonymous => ?_⟩
  · obtain ⟨id, hid, -⟩ := hplaces.placed _ (List.mem_cons_of_mem _ (List.mem_append_right _
      (List.mem_map_of_mem hp))) rfl
    exact Option.isSome_iff_exists.2 ⟨id, hid⟩
  · obtain ⟨id, hid, hattributes⟩ := hplaces.placed _ List.mem_cons_self rfl
    rw [Placement.path, header.symbol_component, hstands.cursor] at hid
    rw [Option.some.inj hid]
    exact hattributes _
      ((marked_typeComponent (s := { file := s.file }) h.anonymousMark_notMem_file).2 hanonymous)

theorem declared_enterCallable (kind : ComponentKind) (hroot : kind ≠ .root)
    (hpackage : kind ≠ .package) (header : CallableHeader) :
    ∀ p ∈ header.typeParameters, ((s.enterCallable app .declaration kind header).tree.follow root
      (path ++ [header.symbol kind] ++ [(typeParameterComponent p).symbol])).isSome := by
  obtain ⟨hplaces, -⟩ := places_enterCallable app h.stands hroot hpackage header
  rw [symbol_callableComponent] at hplaces
  intro p hp
  obtain ⟨id, hid, -⟩ := hplaces.placed _ (List.mem_cons_of_mem _ (List.mem_map_of_mem hp)) rfl
  exact Option.isSome_iff_exists.2 ⟨id, hid⟩

/-- The declaration of an event keeps on the way, and is related to nothing yet. -/
theorem step_declaration (he : e.isHeading = false)
    (hsite : ∀ site ∈ e.site path, site ∈ u.sites app.naming) :
    (step app .declaration s e).Underway app u (e.pathAfter path) ∧
      s.tree.Extends (step app .declaration s e).tree ∧
      ∀ {y a}, AttributeKind.IsEdge a.kind →
        (a ∈ attributesOf ((step app .declaration s e).tree.entry y) ↔
          a ∈ attributesOf (s.tree.entry y)) := by
  obtain ⟨pls, hbuilds, himports, hpls⟩ := h.declaresTo_step he
  have hroot : ∀ p ∈ pls, p.component.kind ≠ .root := fun p hp => (hpls p hp).ne_root
  have hview := s.sameView_step app .declaration h.hasPackage he
  refine ⟨⟨(acts_step h.sound e).sound h.sound, hview.hasPackage.trans h.hasPackage,
    at_step app .declaration h.sound h.hasPackage h.cursor he, h.views.of_sameView hview,
    himports ▸ h.imports, ?_⟩, hbuilds.growth, fun {y a} hedge => ⟨fun ha => ?_, fun ha => ?_⟩⟩
  · -- A type without the mark was in the tree before, or it is the one that the event declares.
    intro x j hj htype hmark
    rcases Tree.isSome_entry_places h.sound.grown hroot
      (hbuilds.tree ▸ Tree.isSome_entry_iff.2 ⟨j, hj⟩) with hold | ⟨p, hp, rfl⟩
    · obtain ⟨i, hi⟩ := Tree.isSome_entry_iff.1 hold
      have hlt := h.sound.grown.follow_lt h.sound.grown.root_lt hi
      obtain rfl := Option.some.inj
        (hj.symm.trans (hbuilds.growth.follow h.sound.grown h.sound.grown.root_lt hi))
      rw [hbuilds.growth.kind hlt] at htype
      exact h.named hi htype fun hold => hmark ((hbuilds.growth.attributes hlt).subset hold)
    · have hkind : p.component.kind = ((step app .declaration s e).tree.node j).kind :=
        congrArg Symbol.kind (Tree.symbol_of_follow_concat hj).symm
      obtain ⟨d, rfl, rfl⟩ := (hpls p hp).type (by rw [Placement.isType, hkind]; exact htype)
      obtain ⟨id, hid, hattributes⟩ := hbuilds.placed _ hp rfl
      obtain rfl := Option.some.inj (hj.symm.trans hid)
      have hpath : (⟨path, d.header.component s.file, false⟩ : Placement).path =
          path ++ [d.header.symbol] := by rw [Placement.path, d.header.symbol_component]
      rw [hpath]
      refine ⟨_, hsite _ rfl, rfl, ?_⟩
      rw [Heading.isNamedType, Bool.not_eq_true', ← Bool.not_eq_true]
      exact fun hanonymous => hmark (hattributes _
        ((marked_typeComponent (s := { file := s.file }) h.anonymousMark_notMem_file).2 hanonymous))
  · rw [hbuilds.tree] at ha
    rcases Tree.mem_attributes_places h.sound.grown hroot ha with ha | ⟨p, hp, -, ha⟩
    · exact ha
    · exact absurd rfl ((hpls p hp).lacks hedge a ha)
  · exact hbuilds.growth.mem_attributesOf h.sound.grown ha

/-- The declaration phase adds no edges. -/
theorem mem_edges_declaration {events : List Event} (hevents : ∀ e ∈ events, e.isHeading = false)
    (hsites : ∀ site ∈ Event.sites path events, site ∈ u.sites app.naming)
    {y : List Symbol} {a : Attribute} (hedge : a.kind.IsEdge) :
    a ∈ attributesOf ((events.foldl (step app .declaration) s).tree.entry y) ↔
      a ∈ attributesOf (s.tree.entry y) := by
  induction events generalizing s path with
  | nil => exact Iff.rfl
  | cons e events ih =>
    obtain ⟨he, hevents⟩ := List.forall_mem_cons.1 hevents
    rw [Event.sites] at hsites
    obtain ⟨hstep, -, hedges⟩ := h.step_declaration he fun site hsite =>
      hsites site (List.mem_append_left _ (Option.mem_toList.2 hsite))
    rw [List.foldl_cons, ih hstep hevents fun site hsite =>
      hsites site (List.mem_append_right _ hsite)]
    exact hedges hedge

/-- What there is of the file mirrors the program. -/
theorem mirrors (happ : app.Hosts u)
    (hpart : s.tree.Extends (app.treeOf .structural u)) : s.Mirrors app u := by
  have hgrown := h.sound.grown
  have halike := app.alike_treeOf .structural u
  have hskeleton : ∀ {x}, (s.tree.entry x).isSome →
      ((u.skeleton app.naming).entry x).isSome := by
    intro x hx
    obtain ⟨j, hj⟩ := Tree.isSome_entry_iff.1 hx
    rw [← halike.isSome_entry]
    exact Tree.isSome_entry_iff.2 ⟨j, hpart.follow hgrown hgrown.root_lt hj⟩
  refine ⟨hgrown, ?_, fun hj => ?_, fun {x j k} hj hk htype => ⟨fun hmark => ?_, fun hmark => ?_⟩,
    fun {sym} hsym hsome => ?_, h.views⟩
  · rw [happ.symbol_root, ← Application.symbol_root_treeOf app .structural u]
    exact hpart.symbol hgrown.root_lt
  · have hsome := hskeleton (Tree.isSome_entry_iff.2 ⟨_, hj⟩)
    exact Tree.isSome_entry_iff.1 (happ.includes _ hsome).1
  · by_contra hplain
    obtain ⟨site, hsite, rfl, hnamed⟩ := h.named hj htype hplain
    refine happ.keepsNames site hsite hnamed ?_
    rwa [Tree.attributesOf_of_follow hk]
  · have hfull := hpart.mem_attributesOf hgrown
      (x := x) (by rwa [Tree.attributesOf_of_follow hj])
    rw [halike.marked] at hfull
    rw [← Tree.attributesOf_of_follow hk]
    exact (happ.includes x (Tree.isSome_of_mem_attributesOf hfull)).2 _ hfull
  · obtain ⟨p, hp, hpath⟩ := CompilationUnit.placement_of_isSome (hskeleton hsome)
    obtain ⟨houter, hkind⟩ := CompilationUnit.path_inj hpath
    rcases List.mem_append.1 hp with hp | hp
    · rw [← hkind, (u.package_of_mem app.naming p hp).1] at hsym
      cases hsym
    · obtain ⟨d, hd, hcomponent⟩ := TypeDecl.exists_of_outer_eq hp houter
      refine ⟨d, hd, ?_⟩
      rw [Placement.path, houter, hcomponent, d.header.symbol_component] at hpath
      exact List.singleton_inj.1 (List.append_cancel_left hpath)

section Reading

variable (happ : app.Hosts u) (hpart : s.tree.Extends (app.treeOf .structural u))
  {heading : Heading} (hsite : ⟨path, heading⟩ ∈ u.sites app.naming)
include happ hpart hsite

/-- At a site, type texts mean what they mean in the program. -/
theorem readsAs : s.ReadsAs app (app.reads u) path where
  grown := h.sound.grown
  cursor := h.cursor
  resolves s' hs' text := by
    have h' := h.of_marks hs'
    have hmirrors := (h.mirrors happ hpart).of_marks hs'
    obtain ⟨d, hd, rest, hrest, hkinds⟩ := CompilationUnit.sites_under hsite
    have hpath : path = u.packagePath app.naming ++ (d.header.symbol :: rest) := by
      rw [List.append_cons]
      exact hrest
    have hcursor := h'.cursor
    refine hmirrors.resolveType_eq_reads happ.grown happ.legible fun name => ?_
    rw [hpath] at hcursor ⊢
    rw [List.drop_left, List.reverse_cons]
    refine hmirrors.sighted_outwards happ.grown happ.legible happ.seesOwnTypes ⟨d, hd, rfl⟩
      (fun sym hsym => hkinds sym (List.mem_reverse.1 hsym)) ?_ h'.sound.cursor_lt
    rw [List.reverse_append, List.reverse_reverse]
    exact hcursor

/-- Seen from outside of an anonymous class, too. -/
theorem resolves_outside (hmark : anonymousMark ∈ (s.tree.node s.cursor).attributes)
    (text : String) :
    s.resolveType app ((s.tree.parent s.cursor).getD s.cursor) text =
      app.reads u path.dropLast text := by
  have hgrown := h.sound.grown
  have hmirrors := h.mirrors happ hpart
  obtain ⟨d, hd, rest, hpath, hkinds⟩ := CompilationUnit.sites_under hsite
  have hcursor := h.cursor
  obtain ⟨outer, sym, hsplit⟩ : ∃ outer sym, path = outer ++ [sym] :=
    (List.eq_nil_or_concat' path).resolve_left fun hnil => by
      rw [hnil] at hpath
      simp at hpath
  rw [hsplit] at hcursor ⊢
  have hself := hcursor
  rw [At, Tree.follow_concat] at hcursor
  obtain ⟨p, hp, hchild⟩ := Option.bind_eq_some_iff.1 hcursor
  have hlt := Nat.lt_trans (hgrown.lt_child (Tree.mem_children_of_childWith hchild))
    h.sound.cursor_lt
  rw [hgrown.parent_of_follow hp hself, Option.getD_some, List.dropLast_concat]
  refine hmirrors.resolveType_eq_reads happ.grown happ.legible fun name => ?_
  have hsame : u.packagePath app.naming ++ [d.header.symbol] ++ rest = outer ++ [sym] :=
    hpath.symm.trans hsplit
  rcases List.eq_nil_or_concat' rest with rfl | ⟨inner, last, rfl⟩
  · -- The class is a type of the file, and the only one that cannot be named there.
    rw [List.append_nil] at hsame
    obtain ⟨rfl, hsym⟩ := List.append_inj' hsame rfl
    rw [List.drop_length]
    have hnot : (s.tree.node s.cursor).isNamedType name = false := by
      rw [← Bool.not_eq_true]
      exact fun hnamed => Component.not_isAnonymous_of_isNamedType hnamed
        ⟨Component.isTypeDeclaration_of_isNamedType hnamed, hmark⟩
    exact hmirrors.sighted_package hp hself happ.seesOwnTypes
      ⟨d, hd, List.singleton_inj.1 hsym⟩ hlt hnot
  · rw [← List.append_assoc] at hsame
    obtain ⟨houter, -⟩ := List.append_inj' hsame rfl
    rw [← houter, ← List.append_cons] at hp ⊢
    rw [List.drop_left, List.reverse_cons]
    refine hmirrors.sighted_outwards happ.grown happ.legible happ.seesOwnTypes ⟨d, hd, rfl⟩
      (fun sym hsym => hkinds sym (List.mem_append_left _ (List.mem_reverse.1 hsym))) ?_ hlt
    rw [List.reverse_append, List.reverse_reverse]
    exact hp

end Reading

/-! ## Gaining edges -/

variable (happ : app.Hosts u)
include happ

/-- What a structural step gains are the edges of the site that it comes to. -/
theorem mem_edges_step (he : e.isHeading = false)
    (hsite : ∀ site ∈ e.site path, site ∈ u.sites app.naming)
    (hpart : (step app .structural s e).tree.Extends (app.treeOf .structural u))
    {y : List Symbol} {a : Attribute} (hedge : a.kind.IsEdge) :
    a ∈ attributesOf ((step app .structural s e).tree.entry y) ↔
      a ∈ attributesOf (s.tree.entry y) ∨
        ⟨y, a⟩ ∈ (e.site path).toList.flatMap (app.edgesAt u) := by
  obtain ⟨hdeclared, -, hedges⟩ := h.step_declaration he hsite
  have hmarks := s.marks_step app e
  have hpart' := hmarks.growth.trans hpart
  have hgained : ∀ {site : Site}, e.site path = some site →
      (step app .declaration s e).Gains (app.edgesAt u site) (step app .structural s e) →
      (a ∈ attributesOf ((step app .structural s e).tree.entry y) ↔
        a ∈ attributesOf ((step app .declaration s e).tree.entry y) ∨
          ⟨y, a⟩ ∈ (e.site path).toList.flatMap (app.edgesAt u)) := by
    intro site hsome hgains
    rw [hsome, Option.toList_some, List.flatMap_singleton, hgains.mem_iff]
  rw [← hedges hedge]
  cases e with
  | enterPackage p => cases he
  | enterImport i => cases he
  | enterType d =>
    obtain ⟨hparameters, hanonymous⟩ := h.declared_enterType d.header
    have hne : path ++ [d.header.symbol] ≠ [] :=
      List.append_ne_nil_of_right_ne_nil _ (List.cons_ne_nil _ _)
    refine hgained rfl ?_
    rw [step, step, s.enterType_eq app .structural]
    exact (hdeclared.readsAs happ hpart' (hsite _ rfl)).gains_relateType rfl hne d.header
      (fun hheader => hdeclared.resolves_outside happ hpart' (hsite _ rfl) (hanonymous hheader) _)
      hparameters
  | enterConstructor d =>
    have hparameters := h.declared_enterCallable .constructor (by decide) (by decide) d.header
    exact hgained rfl
      ((hdeclared.readsAs happ hpart' (hsite _ rfl)).gains_relateCallable d.header hparameters)
  | enterMethod d =>
    have hparameters := h.declared_enterCallable .method (by decide) (by decide) d.header
    exact hgained rfl
      ((hdeclared.readsAs happ hpart' (hsite _ rfl)).gains_relateCallable d.header hparameters)
  | enterConstant d =>
    have hgains : (step app .declaration s (.enterConstant d)).Gains _
        (step app .structural s (.enterConstant d)) :=
      .mark hdeclared.sound.grown hdeclared.cursor _
        (by decide : AttributeKind.declaredType ≠ .localClass)
    rw [hgains.mem_iff]
    refine or_congr_right ⟨fun hmem => ?_, fun hmem => absurd hmem List.not_mem_nil⟩
    obtain ⟨-, rfl⟩ := PathEdge.mk.inj (List.mem_singleton.1 hmem)
    exact absurd rfl hedge.ne_declaredType
  | _ => exact (or_iff_left List.not_mem_nil).symm

/-- A walk gains the edges of all sites that it comes to. -/
theorem mem_edges_steps {events : List Event} (hevents : ∀ e ∈ events, e.isHeading = false)
    (hsites : ∀ site ∈ Event.sites path events, site ∈ u.sites app.naming)
    (hpart : (events.foldl (step app .structural) s).tree.Extends (app.treeOf .structural u))
    {y : List Symbol} {a : Attribute} (hedge : a.kind.IsEdge) :
    a ∈ attributesOf ((events.foldl (step app .structural) s).tree.entry y) ↔
      a ∈ attributesOf (s.tree.entry y) ∨
        ⟨y, a⟩ ∈ (Event.sites path events).flatMap (app.edgesAt u) := by
  induction events generalizing s path with
  | nil => exact (or_iff_left List.not_mem_nil).symm
  | cons e events ih =>
    obtain ⟨he, hevents⟩ := List.forall_mem_cons.1 hevents
    rw [Event.sites] at hsites ⊢
    have hsite : ∀ site ∈ e.site path, site ∈ u.sites app.naming := fun site hsite =>
      hsites site (List.mem_append_left _ (Option.mem_toList.2 hsite))
    have hstep := (h.step_declaration he hsite).1.of_marks (s.marks_step app e)
    have hrest := (acts_steps hstep.sound events : Acts app .structural _ _).growth hstep.sound
    rw [List.foldl_cons, ih hstep hevents
      (fun site hsite => hsites site (List.mem_append_right _ hsite)) hpart,
      h.mem_edges_step happ he hsite (hrest.trans hpart) hedge, List.flatMap_append,
      List.mem_append, or_assoc]

end Underway

end Scope

end SymbolTable
