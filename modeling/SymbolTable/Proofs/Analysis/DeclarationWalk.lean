import SymbolTable.Proofs.Analysis.Placement
import Mathlib.Data.List.Basic

/-!
# Running placements

Walking a construct in the declaration phase runs its placements and returns the cursor. The
induction is over the syntax; what it carries from one event to the next is `Stands`, that the
cursor is at the path of the declaration around.
-/

namespace SymbolTable

namespace Tree

theorem Grown.parent_of_follow {t : Tree} (h : t.Grown) {outer : List Symbol} {s : Symbol}
    {p id : NodeId} (hp : t.follow root outer = some p)
    (hid : t.follow root (outer ++ [s]) = some id) : t.parent id = some p := by
  rw [follow_concat, hp] at hid
  exact h.parent_child (mem_children_of_childWith hid)

end Tree

open SymbolTable.Tree (root)

/-- `t'` grows from `t` by the placements. -/
structure Tree.Builds (t : Tree) (placements : List Placement) (t' : Tree) : Prop where
  tree : t' = placements.foldl Tree.place t
  grown : t'.Grown
  growth : t.Extends t'
  placed : ∀ p ∈ placements, p.fallback = false →
    ∃ id, t'.follow root p.path = some id ∧
      ∀ a ∈ p.component.attributes, a ∈ (t'.node id).attributes

namespace Tree.Builds

variable {t t' t'' : Tree} {pls pls' : List Placement}

theorem refl (h : t.Grown) : t.Builds [] t :=
  ⟨rfl, h, Tree.Extends.refl _, fun _ hp => absurd hp List.not_mem_nil⟩

theorem trans (h : t.Builds pls t') (h' : t'.Builds pls' t'') : t.Builds (pls ++ pls') t'' where
  tree := by rw [List.foldl_append, ← h.tree, h'.tree]
  grown := h'.grown
  growth := h.growth.trans h'.growth
  placed p hp hf := by
    rcases List.mem_append.1 hp with hp | hp
    · obtain ⟨id, hid, ha⟩ := h.placed p hp hf
      have hlt := h.grown.follow_lt h.grown.root_lt hid
      refine ⟨id, h'.growth.follow h.grown h.grown.root_lt hid, fun a hac => ?_⟩
      exact (h'.growth.attributes hlt).subset (ha a hac)
    · exact h'.placed p hp hf

end Tree.Builds

namespace Scope

/-! ## What a walk does to a scope -/

/-- The step from `s` to `s'` runs the placements. -/
structure Places (s : Scope) (placements : List Placement) (s' : Scope) : Prop extends
    Tree.Builds s.tree placements s'.tree where
  file : s'.file = s.file
  hasPackage : s'.hasPackage = s.hasPackage
  imports : s'.imports = s.imports

/-- The cursor of `s` is at the path `outer`, below the package of the file. -/
structure Stands (s : Scope) (file : Option Attribute) (outer : List Symbol)
    (imports : List Component) : Prop where
  grown : s.tree.Grown
  cursor : s.tree.follow root outer = some s.cursor
  file : s.file = file
  hasPackage : s.hasPackage = true
  imports : (if (s.tree.node s.cursor).kind = .package then s.imports else []) = imports

namespace Places

variable {s s' s'' : Scope} {pls pls' : List Placement}

theorem refl (h : s.tree.Grown) : s.Places [] s := ⟨Tree.Builds.refl h, rfl, rfl, rfl⟩

theorem moveTo (h : s.Places pls s') (id : NodeId) : s.Places pls (s'.moveTo id) :=
  ⟨h.toBuilds, h.file, h.hasPackage, h.imports⟩

theorem trans (h : s.Places pls s') (h' : s'.Places pls' s'') : s.Places (pls ++ pls') s'' :=
  ⟨h.toBuilds.trans h'.toBuilds, h'.file.trans h.file, h'.hasPackage.trans h.hasPackage,
    h'.imports.trans h.imports⟩

theorem stands (h : s.Places pls s') (hcursor : s'.cursor = s.cursor)
    {file : Option Attribute} {outer : List Symbol} {imports : List Component}
    (hs : s.Stands file outer imports) : s'.Stands file outer imports where
  grown := h.grown
  cursor := by
    rw [hcursor]
    exact h.growth.follow hs.grown hs.grown.root_lt hs.cursor
  file := h.file.trans hs.file
  hasPackage := h.hasPackage.trans hs.hasPackage
  imports := by
    have hlt := hs.grown.follow_lt hs.grown.root_lt hs.cursor
    rw [hcursor, h.growth.kind hlt, h.imports]
    exact hs.imports

end Places

/-! ## Single puts -/

section Put

variable {s : Scope} {outer : List Symbol} {id : NodeId}

theorem places_put (hs : s.tree.Grown) (hid : s.tree.follow root outer = some id)
    {c : Component} (hc : c.kind ≠ .root) :
    s.Places [⟨outer, c, false⟩] (s.put id c).2 ∧
      (s.put id c).2.tree.follow root (outer ++ [c.symbol]) = some (s.put id c).1 := by
  have hlt := hs.follow_lt hs.root_lt hid
  rw [put_eq]
  refine ⟨⟨⟨?_, hs.put hlt hc, Tree.extends_put _ c hlt, ?_⟩, rfl, rfl, rfl⟩, hs.follow_put hid⟩
  · simp [Tree.place, hid]
  · intro p hp _
    obtain rfl := List.mem_singleton.1 hp
    exact ⟨_, hs.follow_put hid, fun a ha => hs.linked.mem_attributes_put hlt ha⟩

/-- Putting one component after the other below the same node. -/
theorem places_puts (cs : List Component) (hcs : ∀ c ∈ cs, c.kind ≠ .root) {s : Scope}
    (hs : s.tree.Grown) (hid : s.tree.follow root outer = some id) :
    s.Places (cs.map fun c => ⟨outer, c, false⟩) (cs.foldl (fun s c => (s.put id c).2) s) ∧
      (cs.foldl (fun s c => (s.put id c).2) s).cursor = s.cursor := by
  induction cs generalizing s with
  | nil => exact ⟨Places.refl hs, rfl⟩
  | cons c cs ih =>
    obtain ⟨hput, -⟩ := places_put hs hid (hcs c List.mem_cons_self)
    obtain ⟨hrest, hcursor⟩ := ih (fun d hd => hcs d (List.mem_cons_of_mem c hd)) hput.grown
      (hput.growth.follow hs hs.root_lt hid)
    refine ⟨hput.trans hrest, hcursor.trans ?_⟩
    rw [put_eq]

theorem places_putsHere {s : Scope} {file : Option Attribute} {imports : List Component}
    (hs : s.Stands file outer imports) (cs : List Component) (hcs : ∀ c ∈ cs, c.kind ≠ .root) :
    s.Places (cs.map fun c => ⟨outer, c, false⟩) (cs.foldl (fun s c => (s.putHere c).2) s) ∧
      (cs.foldl (fun s c => (s.putHere c).2) s).cursor = s.cursor := by
  have hfold : ∀ s' : Scope, s'.cursor = s.cursor →
      cs.foldl (fun s c => (s.putHere c).2) s' =
        cs.foldl (fun s' c => (s'.put s.cursor c).2) s' := by
    clear hcs
    induction cs with
    | nil => exact fun _ _ => rfl
    | cons c cs ih =>
      intro s' hcursor
      rw [List.foldl_cons, List.foldl_cons, putHere, hcursor]
      exact ih _ (by rw [put_eq]; exact hcursor)
  rw [hfold s rfl]
  exact places_puts cs hcs hs.grown hs.cursor

theorem places_default (hs : s.tree.Grown) (hid : s.tree.follow root outer = some id) :
    s.Places [⟨outer, defaultConstructor (s.tree.node id).value, true⟩]
        (s.ensureDefaultConstructor id) ∧
      (s.ensureDefaultConstructor id).cursor = s.cursor := by
  have hlt := hs.follow_lt hs.root_lt hid
  have hplace : s.tree.place ⟨outer, defaultConstructor (s.tree.node id).value, true⟩ =
      (s.ensureDefaultConstructor id).tree := by
    unfold ensureDefaultConstructor
    simp only [Tree.place, hid, Bool.true_and, Tree.hasConstructor]
    split
    · rfl
    · rw [put_eq]
      rfl
  have hgrowth : (s.ensureDefaultConstructor id).tree.Grown ∧
      s.tree.Extends (s.ensureDefaultConstructor id).tree := by
    unfold ensureDefaultConstructor
    split
    · exact ⟨hs, Tree.Extends.refl _⟩
    · rw [put_eq]
      exact ⟨hs.put hlt nofun, Tree.extends_put _ _ hlt⟩
  have hrest : (s.ensureDefaultConstructor id).file = s.file ∧
      (s.ensureDefaultConstructor id).hasPackage = s.hasPackage ∧
      (s.ensureDefaultConstructor id).imports = s.imports ∧
      (s.ensureDefaultConstructor id).cursor = s.cursor := by
    unfold ensureDefaultConstructor
    split
    · exact ⟨rfl, rfl, rfl, rfl⟩
    · rw [put_eq]
      exact ⟨rfl, rfl, rfl, rfl⟩
  refine ⟨⟨⟨hplace.symm, hgrowth.1, hgrowth.2, ?_⟩, hrest.1, hrest.2.1, hrest.2.2.1⟩, hrest.2.2.2⟩
  intro p hp hf
  obtain rfl := List.mem_singleton.1 hp
  cases hf

end Put

/-! ## Brackets -/

section Bracket

variable {s : Scope} {file : Option Attribute} {outer : List Symbol} {imports : List Component}

/-- Entering a component puts it and what it lists, and moves to it. -/
theorem places_enter (hs : s.Stands file outer imports) {c : Component} (hc : c.kind ≠ .root)
    (hpackage : c.kind ≠ .package) (cs : List Component) (hcs : ∀ d ∈ cs, d.kind ≠ .root) :
    let entered := (cs.foldl (fun s' d => (s'.put (s.putHere c).1 d).2) (s.putHere c).2).moveTo
      (s.putHere c).1
    s.Places (⟨outer, c, false⟩ :: cs.map fun d => ⟨outer ++ [c.symbol], d, false⟩) entered ∧
      entered.Stands file (outer ++ [c.symbol]) [] := by
  intro entered
  obtain ⟨hput, hself⟩ := places_put hs.grown hs.cursor hc
  obtain ⟨hputs, -⟩ := places_puts cs hcs hput.grown hself
  have hself' := hputs.growth.follow hput.grown hput.grown.root_lt hself
  have hplaces : s.Places (⟨outer, c, false⟩ :: cs.map fun d => ⟨outer ++ [c.symbol], d, false⟩)
      entered := (hput.trans hputs).moveTo _
  refine ⟨hplaces, hplaces.grown, hself', hplaces.file.trans hs.file,
    hplaces.hasPackage.trans hs.hasPackage, ?_⟩
  have hkind : (entered.tree.node entered.cursor).kind = c.kind :=
    congrArg Symbol.kind (Tree.symbol_of_follow_concat hself')
  rw [hkind, if_neg hpackage]

/-- The end of a construct returns to where it was entered. -/
theorem ascend_cursor {s' : Scope} {sym : Symbol} {pls : List Placement}
    (hs : s.Stands file outer imports) (hp : s.Places pls s')
    (hat : s'.tree.follow root (outer ++ [sym]) = some s'.cursor) :
    s.Places pls s'.ascend ∧ s'.ascend.cursor = s.cursor := by
  have hcursor := hp.growth.follow hs.grown hs.grown.root_lt hs.cursor
  have hparent := hp.grown.parent_of_follow hcursor hat
  unfold ascend
  rw [hparent]
  exact ⟨hp.moveTo _, rfl⟩

end Bracket

/-! ## Constructs -/

/-- From every scope that stands at `outer`, the events run the placements and return. -/
def Runs (app : Application) (file : Option Attribute) (outer : List Symbol)
    (imports : List Component) (events : List Event) (placements : List Placement) : Prop :=
  ∀ s : Scope, s.Stands file outer imports →
    s.Places placements (events.foldl (step app .declaration) s) ∧
      (events.foldl (step app .declaration) s).cursor = s.cursor

namespace Runs

variable {app : Application} {file : Option Attribute} {outer : List Symbol}
  {imports : List Component}

theorem nil : Runs app file outer imports [] [] :=
  fun _ hs => ⟨Places.refl hs.grown, rfl⟩

theorem append {events events' : List Event} {pls pls' : List Placement}
    (h : Runs app file outer imports events pls) (h' : Runs app file outer imports events' pls') :
    Runs app file outer imports (events ++ events') (pls ++ pls') := by
  intro s hs
  obtain ⟨hplaces, hcursor⟩ := h s hs
  obtain ⟨hplaces', hcursor'⟩ := h' _ (hplaces.stands hcursor hs)
  rw [List.foldl_append]
  exact ⟨hplaces.trans hplaces', hcursor'.trans hcursor⟩

theorem parameters (ps : List ParameterDecl) :
    Runs app file outer imports (ps.map .enterParameter)
      (ps.map fun p => ⟨outer, parameterComponent p, false⟩) := by
  intro s hs
  have hkind : ∀ c ∈ ps.map parameterComponent, c.kind ≠ .root := by
    intro c hc h
    obtain ⟨p, -, rfl⟩ := List.mem_map.1 hc
    cases (congrArg Symbol.kind (symbol_parameterComponent p)).symm.trans h
  have hputs := places_putsHere hs _ hkind
  rw [List.map_map, List.foldl_map] at hputs
  rw [List.foldl_map]
  exact hputs

theorem field (f : FieldDecl) :
    Runs app file outer imports [.enterField f]
      (f.names.map fun name => ⟨outer, fieldComponent f name, false⟩) := by
  intro s hs
  have hkind : ∀ c ∈ f.names.map (fieldComponent f), c.kind ≠ .root := by
    intro c hc h
    obtain ⟨name, -, rfl⟩ := List.mem_map.1 hc
    cases (congrArg Symbol.kind (symbol_fieldComponent f name)).symm.trans h
  have hputs := places_putsHere hs _ hkind
  rw [List.map_map, List.foldl_map] at hputs
  exact hputs

/-- A construct that is entered, filled and left. -/
theorem bracket (enter : Event) (leave : List Event) {sym : Symbol} {events : List Event}
    {before inner after : List Placement}
    (henter : ∀ s : Scope, s.Stands file outer imports →
      s.Places before (step app .declaration s enter) ∧
        (step app .declaration s enter).Stands file (outer ++ [sym]) [])
    (hinner : Runs app file (outer ++ [sym]) [] events inner)
    (hleave : ∀ s : Scope, s.Stands file (outer ++ [sym]) [] →
      ∃ s' : Scope, leave.foldl (step app .declaration) s = s'.ascend ∧ s.Places after s' ∧
        s'.cursor = s.cursor) :
    Runs app file outer imports (enter :: (events ++ leave)) (before ++ inner ++ after) := by
  intro s hs
  obtain ⟨hp₁, hs₁⟩ := henter s hs
  obtain ⟨hp₂, hc₂⟩ := hinner _ hs₁
  have hs₂ := hp₂.stands hc₂ hs₁
  obtain ⟨s₃, hstep, hp₃, hc₃⟩ := hleave _ hs₂
  have hs₃ := hp₃.stands hc₃ hs₂
  rw [List.foldl_cons, List.foldl_append, hstep]
  exact ascend_cursor hs ((hp₁.trans hp₂).trans hp₃) hs₃.cursor

end Runs

/-! ## Entering and leaving -/

theorem kind_ne_of_typeKind (kind : TypeKind) :
    kind.componentKind ≠ .root ∧ kind.componentKind ≠ .package := by
  cases kind <;> exact ⟨nofun, nofun⟩

section Enter

variable (app : Application) {file : Option Attribute} {outer : List Symbol}
  {imports : List Component} {s : Scope}

theorem kind_typeParameterComponent {ps : List TypeParameterDecl} :
    ∀ c ∈ ps.map typeParameterComponent, c.kind ≠ .root := by
  intro c hc h
  obtain ⟨p, -, rfl⟩ := List.mem_map.1 hc
  cases (congrArg Symbol.kind (symbol_typeParameterComponent p)).symm.trans h

/-- A type gets the imports that it lists, then its type parameters. -/
theorem places_enterType (hs : s.Stands file outer imports)
    (himports : ∀ i ∈ imports, i.kind ≠ .root) (h : TypeHeader) :
    s.Places (⟨outer, h.component file, false⟩ ::
        (imports.map (fun i => ⟨outer ++ [(h.component file).symbol], i, false⟩) ++
          h.typeParameters.map fun p =>
            ⟨outer ++ [(h.component file).symbol], typeParameterComponent p, false⟩))
        (s.enterType app .declaration h) ∧
      (s.enterType app .declaration h).Stands file (outer ++ [(h.component file).symbol]) [] := by
  have hensure : s.ensurePackage app = s := by
    unfold ensurePackage
    rw [hs.hasPackage]
    rfl
  have hcomponent : s.typeComponent h = h.component file := by
    rw [← hs.file]
    rfl
  have hkind : (h.component file).kind = h.kind.componentKind := kind_typeComponent _ h
  -- A type right below the package lists the imports; for any other there are none to list.
  have hlisted : ∀ put : NodeId × Scope, put.2.imports = s.imports →
      (if (s.tree.node s.cursor).kind = .package then
          put.2.imports.foldl (fun s i => (s.put put.1 i).2) put.2
        else put.2) = imports.foldl (fun s i => (s.put put.1 i).2) put.2 := by
    intro put hput
    rw [← hs.imports, hput]
    split <;> rfl
  have hentered := places_enter hs (hkind ▸ (kind_ne_of_typeKind h.kind).1)
    (hkind ▸ (kind_ne_of_typeKind h.kind).2) (imports ++ h.typeParameters.map typeParameterComponent)
    (by
      intro c hc
      rcases List.mem_append.1 hc with hc | hc
      · exact himports c hc
      · exact kind_typeParameterComponent c hc)
  have hscope : s.enterType app .declaration h =
      ((imports ++ h.typeParameters.map typeParameterComponent).foldl
        (fun s' d => (s'.put (s.putHere (h.component file)).1 d).2)
        (s.putHere (h.component file)).2).moveTo (s.putHere (h.component file)).1 := by
    rw [enterType_eq, declareType, hensure, hcomponent]
    simp only
    rw [hlisted _ (by rw [putHere, put_eq]), List.foldl_append, List.foldl_map]
    rfl
  rw [hscope]
  rw [List.map_append, List.map_map] at hentered
  exact hentered

theorem places_enterCallable (hs : s.Stands file outer imports) {kind : ComponentKind}
    (hroot : kind ≠ .root) (hpackage : kind ≠ .package) (h : CallableHeader) :
    s.Places (⟨outer, callableComponent kind h, false⟩ ::
        h.typeParameters.map fun p =>
          ⟨outer ++ [(callableComponent kind h).symbol], typeParameterComponent p, false⟩)
        (s.enterCallable app .declaration kind h) ∧
      (s.enterCallable app .declaration kind h).Stands file
        (outer ++ [(callableComponent kind h).symbol]) [] := by
  have hkind := kind_callableComponent kind h
  have hentered := places_enter hs (by rwa [hkind]) (by rwa [hkind])
    (h.typeParameters.map typeParameterComponent) kind_typeParameterComponent
  rw [List.foldl_map, List.map_map] at hentered
  exact hentered

theorem places_enterConstant (hs : s.Stands file outer imports) (h : ConstantHeader) :
    s.Places [⟨outer, constantComponent h, false⟩] (s.enterConstant app .declaration h) ∧
      (s.enterConstant app .declaration h).Stands file
        (outer ++ [(constantComponent h).symbol]) [] := by
  have hkind := kind_constantComponent h
  exact places_enter hs (hkind ▸ nofun) (hkind ▸ nofun) [] nofun

theorem places_exitTypeBody {sym : Symbol} (hs : s.Stands file (outer ++ [sym]) imports)
    (h : TypeHeader) (hname : sym.value = h.name) :
    s.Places (h.closing (outer ++ [sym])) (s.exitTypeBody h) ∧
      (s.exitTypeBody h).cursor = s.cursor := by
  have hvalue : (s.tree.node s.cursor).value = h.name :=
    (congrArg Symbol.value (Tree.symbol_of_follow_concat hs.cursor)).trans hname
  have hdefault := places_default hs.grown hs.cursor
  rw [hvalue] at hdefault
  unfold exitTypeBody TypeHeader.closing
  cases h.kind with
  | classType => exact hdefault
  | enumType => exact hdefault
  | interfaceType => exact ⟨Places.refl hs.grown, rfl⟩
  | annotationType => exact ⟨Places.refl hs.grown, rfl⟩

theorem runs_constant (d : ConstantDecl) {events : List Event} {pls : List Placement}
    (hinner : Runs app file (outer ++ [(constantComponent d.header).symbol]) [] events pls) :
    Runs app file outer imports (.enterConstant d :: (events ++ [.exitConstant d]))
      ([⟨outer, constantComponent d.header, false⟩] ++ pls ++
        [⟨outer ++ [(constantComponent d.header).symbol], defaultConstructor d.header.name,
          true⟩]) := by
  apply Runs.bracket (.enterConstant d) [.exitConstant d] _ hinner
  · intro s hs
    have hvalue : (s.tree.node s.cursor).value = d.header.name := by
      have := congrArg Symbol.value (Tree.symbol_of_follow_concat hs.cursor)
      rwa [symbol_constantComponent] at this
    have hdefault := places_default hs.grown hs.cursor
    rw [hvalue] at hdefault
    exact ⟨s.ensureDefaultConstructor s.cursor, rfl, hdefault⟩
  · intro s hs
    exact places_enterConstant app hs d.header

end Enter

end Scope

open SymbolTable.Scope (Runs)

section Syntax

variable (app : Application) (file : Option Attribute)

mutual
theorem TypeDecl.runs (outer : List Symbol) (imports : List Component)
    (himports : ∀ i ∈ imports, i.kind ≠ .root) :
    ∀ d : TypeDecl, Runs app file outer imports d.events (d.placements file outer imports)
  | .mk h members => by
    have hname : (h.component file).symbol.value = h.name :=
      congrArg Symbol.value (Scope.symbol_typeComponent _ h)
    have hmembers := Member.runsOfList (outer ++ [(h.component file).symbol]) members
    rw [TypeDecl.placements, ← List.cons_append, ← List.cons_append, TypeDecl.events]
    apply Runs.bracket (.enterType (.mk h members))
      [.exitTypeBody (.mk h members), .exitType (.mk h members)] _ hmembers
    · intro s hs
      exact ⟨s.exitTypeBody h, rfl, Scope.places_exitTypeBody hs h hname⟩
    · intro s hs
      exact Scope.places_enterType app hs himports h

theorem TypeDecl.runsOfList (outer : List Symbol) (imports : List Component)
    (himports : ∀ i ∈ imports, i.kind ≠ .root) :
    ∀ ds : List TypeDecl, Runs app file outer imports (TypeDecl.eventsOfList ds)
      (TypeDecl.placementsOfList file outer imports ds)
  | [] => by
    rw [TypeDecl.eventsOfList, TypeDecl.placementsOfList]
    exact Runs.nil
  | d :: rest => by
    rw [TypeDecl.eventsOfList, TypeDecl.placementsOfList]
    exact (TypeDecl.runs outer imports himports d).append
      (TypeDecl.runsOfList outer imports himports rest)

theorem Member.runs (outer : List Symbol) :
    ∀ m : Member, Runs app file outer [] m.events (m.placements file outer)
  | .type d => by
    rw [Member.events, Member.placements]
    exact TypeDecl.runs outer [] nofun d
  | .constructor d => by
    rw [Member.events, Member.placements]
    exact CallableDecl.runs outer .constructor nofun nofun d (fun _ => rfl) fun _ => rfl
  | .method d => by
    rw [Member.events, Member.placements]
    exact CallableDecl.runs outer .method nofun nofun d (fun _ => rfl) fun _ => rfl
  | .field f => by
    rw [Member.events, Member.placements]
    exact Runs.field f
  | .enumConstant d => by
    rw [Member.events, Member.placements]
    exact ConstantDecl.runs outer d

theorem Member.runsOfList (outer : List Symbol) :
    ∀ ms : List Member, Runs app file outer [] (Member.eventsOfList ms)
      (Member.placementsOfList file outer ms)
  | [] => by
    rw [Member.eventsOfList, Member.placementsOfList]
    exact Runs.nil
  | m :: rest => by
    rw [Member.eventsOfList, Member.placementsOfList]
    exact (Member.runs outer m).append (Member.runsOfList outer rest)

theorem CallableDecl.runs (outer : List Symbol) (kind : ComponentKind) (hroot : kind ≠ .root)
    (hpackage : kind ≠ .package) {enter leave : Event} :
    ∀ d : CallableDecl,
      (∀ s, Scope.step app .declaration s enter =
        s.enterCallable app .declaration kind d.header) →
      (∀ s, Scope.step app .declaration s leave = s.ascend) →
      Runs app file outer [] (enter :: (d.inner ++ [leave])) (d.placements file outer kind)
  | .mk h localTypes, henter, hleave => by
    have hinner := (Runs.parameters h.parameters).append
      (TypeDecl.runsOfList (outer ++ [(Scope.callableComponent kind h).symbol]) [] nofun localTypes)
    have hplacements : (CallableDecl.mk h localTypes).placements file outer kind =
        (⟨outer, Scope.callableComponent kind h, false⟩ :: h.typeParameters.map fun p =>
          ⟨outer ++ [(Scope.callableComponent kind h).symbol], typeParameterComponent p, false⟩) ++
        (h.parameters.map (fun p => ⟨outer ++ [(Scope.callableComponent kind h).symbol],
          Scope.parameterComponent p, false⟩) ++ TypeDecl.placementsOfList file
            (outer ++ [(Scope.callableComponent kind h).symbol]) [] localTypes) ++ [] := by
      rw [CallableDecl.placements, List.append_nil, List.cons_append, List.append_assoc]
    rw [CallableDecl.inner, hplacements]
    apply Runs.bracket enter [leave] _ hinner
    · intro s hs
      exact ⟨s, hleave s, Scope.Places.refl hs.grown, rfl⟩
    · intro s hs
      rw [henter s]
      exact Scope.places_enterCallable app hs hroot hpackage h

theorem ConstantDecl.runs (outer : List Symbol) :
    ∀ d : ConstantDecl, Runs app file outer [] d.events (d.placements file outer)
  | .mk h none => by
    rw [ConstantDecl.events, ConstantDecl.placements]
    exact Scope.runs_constant app (.mk h none) Runs.nil
  | .mk h (some body) => by
    rw [ConstantDecl.events, ConstantDecl.placements]
    exact Scope.runs_constant app (.mk h (some body)) (Member.runsOfList _ body)
end

end Syntax

end SymbolTable
