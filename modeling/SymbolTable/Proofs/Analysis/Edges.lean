import SymbolTable.Proofs.Analysis.Acts
import SymbolTable.Proofs.Analysis.Selection

/-!
# Edges lead to types that exist

An edge is the qualified name of what resolution selected, which lies in the file under construction
or is known to the application. The merge keeps the paths of the file, and a qualified name depends
on the path alone, so in the finished application the edge names a component of its own. Along a
walk this is the invariant `Edged`, which also says that the declared type of an enum constant is
the name of the component around it; `ConstantsTyped` says that in the structural phase it has one.
-/

namespace SymbolTable

open SymbolTable.Tree (root)
open SymbolTable.Tree.Entry (attributesOf)

/-! ## Names of types -/

/-- `value` is the qualified name of a type or type parameter of the tree. -/
def Tree.Names (t : Tree) (nested value : String) : Prop :=
  ∃ id < t.size, (t.node id).kind.NamesType ∧ t.qualifiedName id nested = value

/-- `value` is the qualified name of a type or type parameter of the program or of a library. -/
def Application.Names (app : Application) (value : String) : Prop :=
  ∃ r, app.Holds r ∧ (app.get r).kind.NamesType ∧ app.qualifiedName r = value

/-- What an edge in the tree of a file may say. -/
def Tree.EdgeTarget (t : Tree) (app : Application) (value : String) : Prop :=
  value = objectName ∨ value = enumName ∨ app.Names value ∨
    t.Names app.naming.nestedSeparator value

theorem ComponentKind.NamesType.ne_root {kind : ComponentKind} (h : kind.NamesType) :
    kind ≠ .root := by
  rintro rfl
  rcases h with h | h <;> cases h

theorem Tree.lt_size_of_kind {t : Tree} {id : NodeId} (h : (t.node id).kind ≠ .root) :
    id < t.size := by
  refine Nat.lt_of_not_le fun hid => h ?_
  rw [node_of_size_le hid]
  rfl

theorem Tree.lt_size_of_mem_attributes {t : Tree} {id : NodeId} {a : Attribute}
    (h : a ∈ (t.node id).attributes) : id < t.size := by
  refine Nat.lt_of_not_le fun hid => ?_
  rw [node_of_size_le hid] at h
  cases h

/-- Whatever is not read as a root exists. -/
theorem Application.holds_of_kind {app : Application} {r : ComponentRef}
    (h : (app.get r).kind ≠ .root) : app.Holds r := by
  have hlt := Tree.lt_size_of_kind h
  obtain ⟨origin, id⟩ := r
  cases origin with
  | program => exact ⟨trivial, hlt⟩
  | library index =>
    refine ⟨Nat.lt_of_not_le fun hindex => h ?_, hlt⟩
    have hempty : app.tree (.library index) = .empty := by
      simp [Application.tree, List.getElem?_eq_none hindex]
    rw [Application.get, hempty]
    cases id with
    | zero => rfl
    | succ id =>
      rw [Tree.node_of_size_le (Nat.succ_le_succ (Nat.zero_le id))]
      rfl

theorem Scope.EdgeValue.target {s : Scope} {app : Application} {value : String}
    (h : s.EdgeValue app value) : s.tree.EdgeTarget app value := by
  rcases h with hobject | henum | ⟨place, text, kind, hresolved⟩
  · exact .inl hobject
  · exact .inr (.inl henum)
  · rw [s.resolveType_eq, Option.map_eq_some_iff] at hresolved
    obtain ⟨found, hfound, hdescribe⟩ := hresolved
    have htype := Scope.namesType_selectType hfound
    have hvalue : (s.describe app found).1 = value := congrArg Prod.fst hdescribe
    cases found with
    | inFile id => exact .inr (.inr (.inr ⟨id, Tree.lt_size_of_kind htype.ne_root, htype, hvalue⟩))
    | known r =>
      exact .inr (.inr (.inl ⟨r, Application.holds_of_kind htype.ne_root, htype, hvalue⟩))

namespace Tree

theorem Extends.edgeTarget {t t' : Tree} (he : t.Extends t') (h : t.Grown) (h' : t'.Grown)
    {app : Application} {value : String} (hv : t.EdgeTarget app value) :
    t'.EdgeTarget app value := by
  rcases hv with hobject | henum | happ | ⟨id, hid, htype, hname⟩
  · exact .inl hobject
  · exact .inr (.inl henum)
  · exact .inr (.inr (.inl happ))
  · refine .inr (.inr (.inr ⟨id, he.lt hid, ?_, ?_⟩))
    · rw [he.kind hid]
      exact htype
    · rw [he.qualifiedName h h' hid]
      exact hname

/-! ## The invariants of a walk -/

/-- The attribute says the name of the component around the node. -/
def OwnerType (t : Tree) (app : Application) (id : NodeId) (a : Attribute) : Prop :=
  ∃ p, t.parent id = some p ∧ a.value = t.qualifiedName p app.naming.nestedSeparator

structure Edged (t : Tree) (app : Application) : Prop where
  target : ∀ {id a}, a ∈ (t.node id).attributes → a.kind.IsEdge → t.EdgeTarget app a.value
  owner : ∀ {id a}, (t.node id).kind = .enumConstant → a ∈ (t.node id).attributes →
    a.kind = .declaredType → t.OwnerType app id a

def ConstantsTyped (t : Tree) : Prop :=
  ∀ id, (t.node id).kind = .enumConstant →
    ∃ a ∈ (t.node id).attributes, a.kind = .declaredType

theorem OwnerType.of_extends {t t' : Tree} {app : Application} {id : NodeId} {a : Attribute}
    (h : t.OwnerType app id a) (he : t.Extends t') (ht : t.Grown) (ht' : t'.Grown)
    (hid : id < t.size) : t'.OwnerType app id a := by
  obtain ⟨p, hparent, hvalue⟩ := h
  have hp := lt_size_of_mem_children (ht.mem_children_of_parent hid hparent)
  refine ⟨p, (he.parent hid).trans hparent, ?_⟩
  rw [he.qualifiedName ht ht' hp]
  exact hvalue

/-- Growing keeps the invariant if what is new satisfies it. -/
theorem Edged.of_extends {t t' : Tree} {app : Application} (h : t.Edged app) (he : t.Extends t')
    (ht : t.Grown) (ht' : t'.Grown)
    (hnew : ∀ {id a}, a ∈ (t'.node id).attributes → a ∈ (t.node id).attributes ∨
      (a.kind.IsEdge → t'.EdgeTarget app a.value) ∧
        ((t'.node id).kind = .enumConstant → a.kind = .declaredType → t'.OwnerType app id a)) :
    t'.Edged app where
  target ha hedge := by
    rcases hnew ha with hold | ⟨hfresh, -⟩
    · exact he.edgeTarget ht ht' (h.target hold hedge)
    · exact hfresh hedge
  owner {id a} hkind ha hdeclared := by
    rcases hnew ha with hold | ⟨-, hfresh⟩
    · have hid := lt_size_of_mem_attributes hold
      have hkind' : (t.node id).kind = .enumConstant :=
        (he.kind hid).symm.trans hkind
      exact (h.owner hkind' hold hdeclared).of_extends he ht ht' hid
    · exact hfresh hkind hdeclared

theorem ConstantsTyped.of_extends {t t' : Tree} (h : t.ConstantsTyped) (he : t.Extends t')
    (hnew : ∀ id, t.size ≤ id → (t'.node id).kind = .enumConstant →
      ∃ a ∈ (t'.node id).attributes, a.kind = .declaredType) : t'.ConstantsTyped := by
  intro id hkind
  rcases Nat.lt_or_ge id t.size with hid | hid
  · have hkind' : (t.node id).kind = .enumConstant :=
      (he.kind hid).symm.trans hkind
    obtain ⟨a, ha, hdeclared⟩ := h id hkind'
    exact ⟨a, (he.attributes hid).subset ha, hdeclared⟩
  · exact hnew id hid hkind

theorem node_empty (id : NodeId) :
    (empty.node id).kind = .root ∧ (empty.node id).attributes = [] := by
  match id with
  | 0 => exact ⟨rfl, rfl⟩
  | id + 1 =>
    rw [node_of_size_le (Nat.succ_le_succ (Nat.zero_le id))]
    exact ⟨rfl, rfl⟩

theorem edged_empty (app : Application) : empty.Edged app where
  target ha := absurd ((node_empty _).2 ▸ ha) List.not_mem_nil
  owner _ ha := absurd ((node_empty _).2 ▸ ha) List.not_mem_nil

theorem constantsTyped_empty : empty.ConstantsTyped := by
  intro id hkind
  rw [(node_empty id).1] at hkind
  cases hkind

end Tree

namespace Scope

variable {app : Application} {phase : Phase} {s s' : Scope}

/-! ## Acts keep them -/

section Edged

variable (hs : s.Sound) (he : s.tree.Edged app)
include hs he

theorem edged_mark (id : NodeId) {kind : AttributeKind} {value : String}
    (hkind : kind ≠ .localClass) (hedge : kind.IsEdge → s.tree.EdgeTarget app value)
    (howner : kind = .declaredType → s.tree.OwnerType app id ⟨kind, value⟩) :
    (s.mark id kind value).tree.Edged app := by
  have hgrowth := extends_mark s id kind value
  have hmarked := ((Marks.one s id value hkind).sound hs).grown
  refine he.of_extends hgrowth hs.grown hmarked fun {i a} ha => ?_
  by_cases hid : id < s.tree.size
  · rw [mark, Tree.node_modify _ _ _ _ hid] at ha
    split at ha
    · next hi =>
      rw [Component.addAttributeIfAbsent_eq, mem_addAbsent] at ha
      refine ha.imp_right fun ha => ?_
      subst ha hi
      exact ⟨fun h => hgrowth.edgeTarget hs.grown hmarked (hedge h),
        fun _ h => (howner h).of_extends hgrowth hs.grown hmarked hid⟩
    · exact .inl ha
  · rw [mark, Tree.modify_of_size_le (Nat.le_of_not_lt hid)] at ha
    exact .inl ha

theorem Relates.edged (h : s.Relates app s') : s'.tree.Edged app := by
  induction h with
  | none => exact he
  | edge h id hk hv ih =>
    exact edged_mark (h.marks.sound hs) ih id hk.ne_localClass (fun _ => hv.target)
      fun hdeclared => absurd hdeclared hk.ne_declaredType

theorem edged_put {parent : NodeId} {c : Component} (hp : parent < s.tree.size)
    (hroot : c.kind ≠ .root) (hlacks : ∀ {kind : AttributeKind}, kind.IsEdge → c.Lacks kind)
    (hconstant : c.kind = .enumConstant → c.Lacks .declaredType) :
    (s.put parent c).2.tree.Edged app := by
  have hput := (hs.put hp hroot).grown
  rw [put_eq] at hput ⊢
  refine he.of_extends (Tree.extends_put _ c hp) hs.grown hput fun {id a} ha => ?_
  refine (Tree.mem_attributes_of_put hp ha).imp_right ?_
  rintro ⟨rfl, hac⟩
  refine ⟨fun hedge => absurd rfl (hlacks hedge a hac), fun hself hdeclared => ?_⟩
  have hkind := s.tree.kind_put parent c
  exact absurd hdeclared (hconstant (hkind.symm.trans hself) a hac)

theorem edged_enterConstant (h : ConstantHeader) :
    (s.enterConstant app phase h).tree.Edged app := by
  have hroot : (constantComponent h).kind ≠ .root := kind_constantComponent h ▸ nofun
  have hput := edged_put hs he hs.cursor_lt hroot
    (fun hedge => lacks_constantComponent hedge.mem_typeKinds)
    fun _ => lacks_constantComponent (by decide)
  rw [enterConstant_eq]
  unfold relateConstant
  split
  · refine edged_mark (hs.enter hroot) hput _ (by decide) (fun hedge => ?_) fun _ => ?_
    · exact absurd rfl hedge.ne_declaredType
    · refine ⟨s.cursor, ?_, rfl⟩
      have hchild := hs.grown.childWith_put (c := constantComponent h) hs.cursor_lt
      rw [enter_eq, put_eq]
      exact (hs.grown.put hs.cursor_lt hroot).parent_child (Tree.mem_children_of_childWith hchild)
  · exact hput

theorem Act.edged (h : Act app phase s s') : s'.tree.Edged app := by
  cases h with
  | look htree =>
    rw [htree]
    exact he
  | put parent c hp hc =>
    exact edged_put hs he hp hc.ne_root hc.lacks fun hconstant => absurd hconstant hc.ne_constant
  | moveTo => exact he
  | relate h => exact h.edged hs he
  | constant h => exact edged_enterConstant hs he h

end Edged

section Typed

variable (hs : s.Sound) (ht : s.tree.ConstantsTyped)
include hs ht

omit hs in
theorem constantsTyped_put {parent : NodeId} {c : Component} (hp : parent < s.tree.size)
    (hc : c.kind ≠ .enumConstant) : (s.put parent c).2.tree.ConstantsTyped := by
  rw [put_eq]
  refine ht.of_extends (Tree.extends_put _ c hp) fun id hid hself => ?_
  have hkind := s.tree.kind_put parent c
  have hlt : id < (s.tree.put parent c).2.size := Tree.lt_size_of_kind (by rw [hself]; nofun)
  rcases Tree.lt_or_eq_of_lt_size_put hlt with hold | rfl
  · exact absurd hid (Nat.not_le_of_lt hold)
  · exact absurd (hkind.symm.trans hself) hc

theorem constantsTyped_enterConstant (hphase : phase.attachesRelationships = true)
    (h : ConstantHeader) : (s.enterConstant app phase h).tree.ConstantsTyped := by
  have hact : Act app phase s (s.enterConstant app phase h) := .constant h
  refine ht.of_extends (hact.growth hs) fun id hid hkind => ?_
  have hlt := Tree.lt_size_of_kind (by rw [hkind]; nofun)
  rw [enterConstant_eq, relateConstant, if_pos hphase, enter_eq, put_eq] at hlt ⊢
  simp only [mark, moveTo, Tree.size_modify] at hlt ⊢
  rcases Tree.lt_or_eq_of_lt_size_put hlt with hold | rfl
  · exact absurd hid (Nat.not_le_of_lt hold)
  · rw [Tree.node_modify _ _ _ _ hlt, if_pos rfl, Component.addAttributeIfAbsent_eq]
    exact ⟨_, mem_addAbsent.2 (.inr rfl), rfl⟩

theorem Act.constantsTyped (hphase : phase.attachesRelationships = true)
    (h : Act app phase s s') : s'.tree.ConstantsTyped := by
  cases h with
  | look htree =>
    rw [htree]
    exact ht
  | put parent c hp hc => exact constantsTyped_put ht hp hc.ne_constant
  | moveTo => exact ht
  | relate h =>
    have hshape := h.marks.alike.tree.sameShape
    refine ht.of_extends h.marks.growth fun id hid hkind => ?_
    have hlt := Tree.lt_size_of_kind (by rw [hkind]; nofun)
    rw [hshape.size] at hlt
    exact absurd hid (Nat.not_le_of_lt hlt)
  | constant h => exact constantsTyped_enterConstant hs ht hphase h

end Typed

end Scope

/-! ## Trees of units -/

namespace Application

variable (app : Application) (phase : Phase) (u : CompilationUnit)

/-- The tree of a unit is what the acts of its walk make of the empty tree. -/
theorem acts_treeOf : ∃ s s' : Scope, s.Sound ∧ s.tree = .empty ∧ s'.tree = app.treeOf phase u ∧
    Scope.Acts app phase s s' :=
  ⟨_, _, Scope.sound_seed {} app, rfl, rfl, Scope.acts_steps (Scope.sound_seed {} app) u.events⟩

theorem edged_treeOf : (app.treeOf phase u).Edged app := by
  obtain ⟨s, s', hs, hempty, hwalk, hacts⟩ := app.acts_treeOf phase u
  rw [← hwalk]
  exact (hacts.keeps (P := fun s => s.tree.Edged app) (fun hact hs he => hact.edged hs he) hs
    (hempty ▸ Tree.edged_empty app)).2

theorem constantsTyped_treeOf (hphase : phase.attachesRelationships = true) :
    (app.treeOf phase u).ConstantsTyped := by
  obtain ⟨s, s', hs, hempty, hwalk, hacts⟩ := app.acts_treeOf phase u
  rw [← hwalk]
  exact (hacts.keeps (P := fun s => s.tree.ConstantsTyped)
    (fun hact hs ht => hact.constantsTyped hs ht hphase) hs
    (hempty ▸ Tree.constantsTyped_empty)).2

theorem symbol_root_treeOf :
    ((app.treeOf phase u).node Tree.root).symbol = (Tree.empty.node Tree.root).symbol := by
  obtain ⟨s, s', hs, hempty, hwalk, hacts⟩ := app.acts_treeOf phase u
  rw [← hwalk, ← hempty]
  exact (hacts.growth hs).symbol hs.grown.root_lt

variable {app} {app' : Application}

theorem Enriches.sameRef (he : app.Enriches app') (h : app.components.Grown) {r : ComponentRef}
    (hr : app.Holds r) : SameRef app app' r r := by
  obtain ⟨origin, id⟩ := r
  cases origin with
  | program =>
    have hpath := h.follow_identityPath hr.2
    exact .program ⟨_, hpath, (he.alike.sameShape.follow _ _).trans hpath⟩
  | library index => exact .library index id

theorem Enriches.names (he : app.Enriches app') (h : app.components.Grown) {value : String}
    (hv : app.Names value) : app'.Names value := by
  obtain ⟨r, hr, htype, hname⟩ := hv
  have hsame := he.sameRef h hr
  have hkind := (he.corresponds h).kind hsame
  have htype' : (app'.get r).kind.NamesType := hkind ▸ htype
  exact ⟨r, holds_of_kind htype'.ne_root, htype',
    ((he.corresponds h).qualifiedName hsame).trans hname⟩

end Application

/-! ## Edges of a run -/

section Run

variable (naming : Naming) (libraries : List Library) (units : List CompilationUnit)

/-- A run merges the trees of both phases. -/
theorem components_analyze : (analyze naming libraries units).1.components =
    Tree.empty.mergeAll (Phase.all.flatMap fun phase =>
      units.map ((declaredApplication naming libraries units).treeOf phase)) := by
  have hskeleton : (declaredApplication naming libraries units).treeOf .declaration =
      (·.skeleton naming) := by
    funext u
    rw [Application.treeOf_declaration, declaredApplication_naming]
  rw [(analyze_spec naming libraries units).2]
  simp [Phase.all, hskeleton]

theorem grown_sources : ∀ t ∈ Phase.all.flatMap fun phase =>
    units.map ((declaredApplication naming libraries units).treeOf phase), t.Grown := by
  intro t ht
  obtain ⟨phase, -, ht⟩ := List.mem_flatMap.1 ht
  obtain ⟨u, -, rfl⟩ := List.mem_map.1 ht
  exact Application.grown_treeOf _ phase u

variable {naming libraries units}

/-- An attribute of a run comes from the node at the same path in the tree of some unit. -/
theorem exists_source {id : NodeId} {a : Attribute}
    (ha : a ∈ ((analyze naming libraries units).1.components.node id).attributes) :
    ∃ u ∈ units, ∃ phase j,
      ((declaredApplication naming libraries units).treeOf phase u).follow root
        ((analyze naming libraries units).1.components.identityPath id) = some j ∧
      a ∈ (((declaredApplication naming libraries units).treeOf phase u).node j).attributes := by
  have hself := (grown_analyze naming libraries units).follow_identityPath
    (Tree.lt_size_of_mem_attributes ha)
  rw [← Tree.attributesOf_of_follow hself] at ha
  generalize (analyze naming libraries units).1.components.identityPath id = path at ha hself ⊢
  rw [components_analyze, Tree.mem_attributesOf_mergeAll Tree.grown_empty
    (grown_sources naming libraries units)] at ha
  rcases ha with ha | ⟨t, ht, ha⟩
  · rw [CompilationUnit.attributesOf_empty] at ha
    exact absurd ha List.not_mem_nil
  · obtain ⟨phase, -, ht⟩ := List.mem_flatMap.1 ht
    obtain ⟨u, hu, rfl⟩ := List.mem_map.1 ht
    obtain ⟨j, hj⟩ := Tree.isSome_entry_iff.1 (Tree.isSome_of_mem_attributesOf ha)
    rw [Tree.attributesOf_of_follow hj] at ha
    exact ⟨u, hu, phase, j, hj, ha⟩

/-- A run has every node of the trees of its units, as the same symbol and with its attributes. -/
theorem exists_node_analyze {u : CompilationUnit} (hu : u ∈ units) (phase : Phase)
    {path : List Symbol} {j : NodeId}
    (hj : ((declaredApplication naming libraries units).treeOf phase u).follow root path =
      some j) :
    ∃ id, (analyze naming libraries units).1.components.follow root path = some id ∧
      ((analyze naming libraries units).1.components.node id).symbol =
        (((declaredApplication naming libraries units).treeOf phase u).node j).symbol ∧
      (∀ a ∈ (((declaredApplication naming libraries units).treeOf phase u).node j).attributes,
        a ∈ ((analyze naming libraries units).1.components.node id).attributes) ∧
      ∀ nested, (analyze naming libraries units).1.components.qualifiedName id nested =
        ((declaredApplication naming libraries units).treeOf phase u).qualifiedName j nested := by
  have hgrown := grown_analyze naming libraries units
  have htree := (declaredApplication naming libraries units).grown_treeOf phase u
  have hphase : phase ∈ Phase.all := by cases phase <;> decide
  have hsource : (declaredApplication naming libraries units).treeOf phase u ∈
      Phase.all.flatMap fun phase =>
        units.map ((declaredApplication naming libraries units).treeOf phase) :=
    List.mem_flatMap.2 ⟨phase, hphase, List.mem_map_of_mem hu⟩
  have hincludes := Tree.includes_mergeAll Tree.grown_empty
    (grown_sources naming libraries units) hsource
  have hroot := Tree.symbol_root_mergeAll Tree.grown_empty (grown_sources naming libraries units)
  rw [← components_analyze] at hincludes hroot
  rw [← (declaredApplication naming libraries units).symbol_root_treeOf phase u] at hroot
  obtain ⟨hsome, hattributes⟩ := hincludes path (Tree.isSome_entry_iff.2 ⟨j, hj⟩)
  obtain ⟨id, hid⟩ := Tree.isSome_entry_iff.1 hsome
  rw [Tree.attributesOf_of_follow hj, Tree.attributesOf_of_follow hid] at hattributes
  exact ⟨id, hid, Tree.symbol_eq_of_follow hroot hj hid, hattributes,
    Tree.qualifiedName_eq_of_follow htree hgrown hroot hj hid⟩

/-- Below the root, a run has no node but those of the trees of its units. -/
theorem exists_unit_of_lt_size {id : NodeId} (hpos : root < id)
    (hid : id < (analyze naming libraries units).1.components.size) :
    ∃ u ∈ units, ∀ phase, ∃ j,
      ((declaredApplication naming libraries units).treeOf phase u).follow root
        ((analyze naming libraries units).1.components.identityPath id) = some j := by
  have hself := (grown_analyze naming libraries units).follow_identityPath hid
  cases hpath : (analyze naming libraries units).1.components.identityPath id using
    List.reverseRecOn with
  | nil =>
    rw [hpath] at hself
    exact absurd (Option.some.inj hself) (Nat.ne_of_lt hpos)
  | append_singleton path s =>
    rw [hpath] at hself
    obtain ⟨u, hu, hsome⟩ := (isSome_entry_analyze naming libraries units path s).1
      (Tree.isSome_entry_iff.2 ⟨id, hself⟩)
    refine ⟨u, hu, fun phase => ?_⟩
    rw [← declaredApplication_naming naming libraries units,
      ← (Application.alike_treeOf _ phase u).isSome_entry] at hsome
    exact Tree.isSome_entry_iff.1 hsome

theorem naming_analyze :
    (analyze naming libraries units).1.naming =
      (declaredApplication naming libraries units).naming :=
  (analyze_spec naming libraries units).1.naming

theorem target_analyze {id : NodeId} {a : Attribute}
    (ha : a ∈ ((analyze naming libraries units).1.components.node id).attributes)
    (hedge : a.kind.IsEdge) :
    a.value = objectName ∨ a.value = enumName ∨
      (analyze naming libraries units).1.Names a.value := by
  obtain ⟨u, hu, phase, j, -, haj⟩ := exists_source ha
  have htarget := (Application.edged_treeOf _ phase u).target haj hedge
  rcases htarget with hobject | henum | happ | ⟨k, hk, htype, hname⟩
  · exact .inl hobject
  · exact .inr (.inl henum)
  · have hdeclares := declares_declaredApplication naming libraries units
    exact .inr (.inr ((analyze_spec naming libraries units).1.names hdeclares.grown happ))
  · have htree := (declaredApplication naming libraries units).grown_treeOf phase u
    obtain ⟨i, -, hsymbol, -, hqualified⟩ :=
      exists_node_analyze hu phase (htree.follow_identityPath hk)
    have htype' : ((analyze naming libraries units).1.get (.program i)).kind.NamesType := by
      rw [show ((analyze naming libraries units).1.get (.program i)).kind = _ from
        congrArg Symbol.kind hsymbol]
      exact htype
    refine .inr (.inr ⟨.program i, Application.holds_of_kind htype'.ne_root, htype', ?_⟩)
    rw [← hname, ← hqualified, ← naming_analyze]
    rfl

theorem owner_analyze {id : NodeId}
    (hkind : ((analyze naming libraries units).1.components.node id).kind = .enumConstant)
    {a : Attribute}
    (ha : a ∈ ((analyze naming libraries units).1.components.node id).attributes)
    (hdeclared : a.kind = .declaredType) :
    (analyze naming libraries units).1.components.OwnerType (analyze naming libraries units).1
      id a := by
  obtain ⟨u, hu, phase, j, hj, haj⟩ := exists_source ha
  have hgrown := grown_analyze naming libraries units
  have htree := (declaredApplication naming libraries units).grown_treeOf phase u
  have hself := hgrown.follow_identityPath (Tree.lt_size_of_mem_attributes ha)
  obtain ⟨i, hi, hsymbol, -, -⟩ := exists_node_analyze hu phase hj
  obtain rfl : i = id := Option.some.inj (hi.symm.trans hself)
  obtain ⟨q, hparent, hvalue⟩ := (Application.edged_treeOf _ phase u).owner
    ((congrArg Symbol.kind hsymbol).symm.trans hkind) haj hdeclared
  -- The owner in the tree of the unit is at the path above, where the application has one too.
  have hchild := htree.mem_children_of_parent (Tree.lt_size_of_mem_attributes haj) hparent
  have hpath := (htree.identityPath_of_follow hj).symm.trans (htree.identityPath_child hchild)
  obtain ⟨p, hp, -, -, hqualified⟩ := exists_node_analyze hu phase
    (htree.follow_identityPath (Tree.lt_size_of_mem_children hchild))
  rw [hpath] at hself
  refine ⟨p, hgrown.parent_of_follow hp hself, ?_⟩
  rw [hvalue, hqualified, naming_analyze]

/-- The structural phase gives every enum constant its declared type. -/
theorem typed_analyze {id : NodeId}
    (hkind : ((analyze naming libraries units).1.components.node id).kind = .enumConstant) :
    ∃ a ∈ ((analyze naming libraries units).1.components.node id).attributes,
      a.kind = .declaredType := by
  have hgrown := grown_analyze naming libraries units
  have hlt := Tree.lt_size_of_kind (by rw [hkind]; nofun)
  have hpos : root < id := by
    refine Nat.pos_of_ne_zero fun hroot => ?_
    rw [hroot] at hkind
    exact nomatch hkind.symm.trans hgrown.kind_root
  obtain ⟨u, hu, hsource⟩ := exists_unit_of_lt_size hpos hlt
  obtain ⟨j, hj⟩ := hsource .structural
  obtain ⟨i, hi, hsymbol, hattributes, -⟩ := exists_node_analyze hu .structural hj
  obtain rfl : i = id := Option.some.inj (hi.symm.trans (hgrown.follow_identityPath hlt))
  obtain ⟨a, ha, hdeclared⟩ := Application.constantsTyped_treeOf _ .structural u rfl j
    ((congrArg Symbol.kind hsymbol).symm.trans hkind)
  exact ⟨a, hattributes a ha, hdeclared⟩

variable (naming libraries units)

/-- Every edge of a run says `java.lang.Object`, `java.lang.Enum` or the qualified name of a type or
type parameter that the run or one of its libraries has, and every enum constant has a declared
type, which is the qualified name of the component around it. -/
theorem edges_analyze :
    (∀ id a, a ∈ ((analyze naming libraries units).1.components.node id).attributes →
      a.kind.IsEdge →
        a.value = objectName ∨ a.value = enumName ∨
          ∃ r, (analyze naming libraries units).1.Holds r ∧
            ((analyze naming libraries units).1.get r).kind.NamesType ∧
            (analyze naming libraries units).1.qualifiedName r = a.value) ∧
    ∀ id, ((analyze naming libraries units).1.components.node id).kind = .enumConstant →
      ∃ p, (analyze naming libraries units).1.components.parent id = some p ∧
        (∃ a ∈ ((analyze naming libraries units).1.components.node id).attributes,
          a.kind = .declaredType) ∧
        ∀ a ∈ ((analyze naming libraries units).1.components.node id).attributes,
          a.kind = .declaredType →
            a.value = (analyze naming libraries units).1.qualifiedName (.program p) := by
  refine ⟨fun id a ha hedge => target_analyze ha hedge, fun id hkind => ?_⟩
  obtain ⟨a, ha, hdeclared⟩ := typed_analyze hkind
  obtain ⟨p, hparent, -⟩ := owner_analyze hkind ha hdeclared
  refine ⟨p, hparent, ⟨a, ha, hdeclared⟩, fun b hb hdeclared' => ?_⟩
  obtain ⟨q, hparent', hvalue⟩ := owner_analyze hkind hb hdeclared'
  obtain rfl := Option.some.inj (hparent.symm.trans hparent')
  exact hvalue

end Run

end SymbolTable
