import SymbolTable.Proofs.Analysis.Bodies
import SymbolTable.Proofs.Analysis.Session
import SymbolTable.Proofs.Analysis.Steady

/-!
# Default constructors

A body that closes gets a default constructor unless there is a constructor below it by then. That
speaks of the component, not of the body: bodies at one identity path share a component, within a
unit and across units. So the component has the constructors that any of its bodies declares, and a
default one as soon as, in some unit, the first body at the path declares none.
-/

namespace SymbolTable

open SymbolTable.Tree (root)

/-! ## One placement -/

namespace Tree

/-- Whether a constructor lies directly below a path. -/
def Constructed (t : Tree) (x : List Symbol) : Prop :=
  ∃ s : Symbol, s.kind.isConstructor ∧ (t.entry (x ++ [s])).isSome

theorem exists_child_iff {t : Tree} {x : List Symbol} {id : NodeId}
    (hid : t.follow root x = some id) (P : Symbol → Prop) :
    (∃ c ∈ t.children id, P (t.node c).symbol) ↔ ∃ s, P s ∧ (t.entry (x ++ [s])).isSome := by
  constructor
  · rintro ⟨c, hc, hP⟩
    exact ⟨(t.node c).symbol, hP, (mem_members hid).1 (List.mem_map_of_mem hc)⟩
  · rintro ⟨s, hP, hs⟩
    obtain ⟨c, hc, rfl⟩ := List.mem_map.1 ((mem_members hid).2 hs)
    exact ⟨c, hc, hP⟩

theorem hasConstructor_iff {t : Tree} {x : List Symbol} {id : NodeId}
    (hid : t.follow root x = some id) : t.hasConstructor id = true ↔ t.Constructed x := by
  rw [hasConstructor, List.any_eq_true]
  exact exists_child_iff hid fun s => s.kind.isConstructor = true

theorem childrenOfKind_ne_nil_iff {t : Tree} {x : List Symbol} {id : NodeId}
    (hid : t.follow root x = some id) (kind : ComponentKind) :
    t.childrenOfKind id kind ≠ [] ↔ ∃ s : Symbol, s.kind = kind ∧ (t.entry (x ++ [s])).isSome := by
  rw [← exists_child_iff hid fun s => s.kind = kind, ne_eq, childrenOfKind, List.filter_eq_nil_iff]
  simp [Component.symbol]

/-- A placement that finds its place adds its own path and nothing else. -/
theorem Grown.isSome_entry_place {t : Tree} (h : t.Grown) {p : Placement}
    (hp : (t.follow root p.outer).isSome) (y : List Symbol) :
    ((t.place p).entry y).isSome ↔ (t.entry y).isSome ∨
      y = p.path ∧ (p.fallback = true → ¬ t.Constructed p.outer) := by
  obtain ⟨id, hid⟩ := Option.isSome_iff_exists.1 hp
  by_cases hskip : p.fallback = true ∧ t.Constructed p.outer
  · have hplace : t.place p = t := by
      simp [Tree.place, hid, hskip.1, (hasConstructor_iff hid).2 hskip.2]
    rw [hplace]
    exact ⟨.inl, fun hy => hy.resolve_right fun hy => hy.2 hskip.1 hskip.2⟩
  · rw [← hasConstructor_iff hid, ← Bool.and_eq_true] at hskip
    have hplace : t.place p = (t.put id p.component).2 := by simp only [Tree.place, hid, if_neg hskip]
    have hallowed : p.fallback = true → ¬ t.Constructed p.outer := by
      rw [← hasConstructor_iff hid]
      exact fun hfallback hc => hskip (by rw [hfallback, hc]; rfl)
    have hentry := h.entry_put hid y (c := p.component)
    rw [hplace, hentry, Entry.isSome_join, Bool.or_eq_true, and_iff_left hallowed]
    by_cases houter : y = p.outer
    · rw [houter, isSome_entry, hid]
      simp
    · rw [if_neg houter, Placement.path]
      split <;> simp [*]

/-- Whether it is placed or left out, a constructor has company in the end. -/
theorem Grown.constructed_place {t : Tree} (h : t.Grown) {p : Placement}
    (hp : (t.follow root p.outer).isSome) (x : List Symbol) :
    (t.place p).Constructed x ↔ t.Constructed x ∨ p.isConstructorAt x = true := by
  have hplace := h.isSome_entry_place hp
  constructor
  · rintro ⟨s, hs, hsome⟩
    rcases (hplace _).1 hsome with hsome | ⟨hpath, -⟩
    · exact .inl ⟨s, hs, hsome⟩
    · obtain ⟨houter, hkind⟩ := CompilationUnit.path_inj hpath.symm
      rw [Placement.isConstructorAt, houter, hkind, hs]
      simp
  · rintro (⟨s, hs, hsome⟩ | hat)
    · exact ⟨s, hs, (hplace _).2 (.inl hsome)⟩
    · rw [Placement.isConstructorAt, Bool.and_eq_true, decide_eq_true_eq] at hat
      obtain ⟨rfl, hconstructor⟩ := hat
      by_cases hc : t.Constructed p.outer
      · obtain ⟨s, hs, hsome⟩ := hc
        exact ⟨s, hs, (hplace _).2 (.inl hsome)⟩
      · exact ⟨p.component.symbol, hconstructor, (hplace _).2 (.inr ⟨rfl, fun _ => hc⟩)⟩

/-! ## All placements -/

/-- The constructors at a path are those placed there, the fallbacks only when nothing was there and
none came before them. -/
theorem Steady.isSome_entry_constructor {t : Tree} {pls : List Placement} (hpls : t.Steady pls)
    (h : t.Grown) (x : List Symbol) {s : Symbol} (hs : s.kind.isConstructor = true) :
    ((pls.foldl Tree.place t).entry (x ++ [s])).isSome ↔ (t.entry (x ++ [s])).isSome ∨
      ∃ p ∈ pls.filter (·.isConstructorAt x), p.component.symbol = s ∧
        (p.fallback = true →
          ¬ t.Constructed x ∧ (pls.filter (·.isConstructorAt x)).head? = some p) := by
  induction hpls with
  | nil => simp
  | @cons t p pls hkind hp _ ih =>
    have hplace := h.isSome_entry_place hp (x ++ [s])
    have hconstructed := h.constructed_place hp x
    rw [List.foldl_cons, ih (h.place hkind), hplace, hconstructed]
    -- A constructor at the path is the first there, and what follows it finds the path constructed.
    by_cases hat : p.isConstructorAt x = true
    · have houter : p.outer = x := by simpa using (Bool.and_eq_true_iff.1 hat).1
      have hpath : x ++ [s] = p.path ↔ p.component.symbol = s := by
        simp [Placement.path, houter, eq_comm]
      rw [List.filter_cons_of_pos hat, or_assoc, hpath, houter]
      refine or_congr_right ⟨?_, ?_⟩
      · rintro (⟨hsymbol, hfree⟩ | ⟨q, hq, hsymbol, hfirst⟩)
        · exact ⟨p, List.mem_cons_self, hsymbol, fun hfallback => ⟨hfree hfallback, rfl⟩⟩
        · exact ⟨q, List.mem_cons_of_mem p hq, hsymbol,
            fun hfallback => absurd (.inr hat) (hfirst hfallback).1⟩
      · rintro ⟨q, hq, hsymbol, hfirst⟩
        by_cases hqp : q = p
        · rw [hqp] at hsymbol hfirst
          exact .inl ⟨hsymbol, fun hfallback => (hfirst hfallback).1⟩
        · refine .inr ⟨q, (List.mem_cons.1 hq).resolve_left hqp, hsymbol, fun hfallback => ?_⟩
          exact absurd (Option.some.inj (hfirst hfallback).2).symm hqp
    · have hpath : x ++ [s] ≠ p.path := by
        intro hpath
        obtain ⟨houter, hkind⟩ := CompilationUnit.path_inj hpath.symm
        rw [Placement.isConstructorAt, houter, hkind, hs] at hat
        simp at hat
      rw [List.filter_cons_of_neg hat]
      simp [hpath, hat]

end Tree

/-! ## The constructors of a unit -/

theorem DeclaredBody.mem_placements {b : DeclaredBody} {p : Placement} :
    p ∈ b.placements ↔ (∃ h ∈ b.constructors, p = constructorPlacement b.path h) ∨
      b.symbol.kind.closes = true ∧ p = ⟨b.path, defaultConstructor b.symbol.value, true⟩ := by
  rw [placements, List.mem_append, List.mem_map, closingPlacements]
  split <;> simp [*, eq_comm]

/-- A body that closes puts its default constructor first just when it has no other. -/
theorem DeclaredBody.head?_placements_iff {b : DeclaredBody} (hcloses : b.symbol.kind.closes = true)
    (rest : List Placement) : (b.placements ++ rest).head? =
      some ⟨b.path, defaultConstructor b.symbol.value, true⟩ ↔ b.constructors = [] := by
  rw [placements, closingPlacements, if_pos hcloses]
  cases b.constructors with
  | nil => simp
  | cons h hs => simp [constructorPlacement]

namespace CompilationUnit

variable (naming : Naming) (u : CompilationUnit)

/-- Some body at the path declares a constructor. -/
def Constructs (x : List Symbol) : Prop :=
  ∃ b ∈ bodiesAt x (u.declaredBodies naming), b.constructors ≠ []

/-- The first body at the path declares no constructor. -/
def LeavesDefault (x : List Symbol) : Prop :=
  ∃ b, (bodiesAt x (u.declaredBodies naming)).head? = some b ∧ b.constructors = []

theorem isSome_constructor_skeleton (x : List Symbol) {s : Symbol}
    (hs : s.kind.isConstructor = true) :
    ((u.skeleton naming).entry (x ++ [s])).isSome ↔
      ∃ p ∈ (bodiesAt x (u.declaredBodies naming)).flatMap (·.placements),
        p.component.symbol = s ∧ (p.fallback = true →
          ((bodiesAt x (u.declaredBodies naming)).flatMap (·.placements)).head? = some p) := by
  have hempty : ¬ Tree.empty.Constructed x := by
    rintro ⟨s, -, hsome⟩
    rw [entry_empty] at hsome
    cases hsome
  rw [skeleton_eq, (u.steady_placements naming).isSome_entry_constructor Tree.grown_empty x hs,
    entry_empty, u.filter_constructors]
  simp [hempty]

theorem constructs_iff (x : List Symbol) :
    (∃ s : Symbol, s.kind = .constructor ∧ ((u.skeleton naming).entry (x ++ [s])).isSome) ↔
      u.Constructs naming x := by
  constructor
  · rintro ⟨s, hs, hsome⟩
    have hconstructor : s.kind.isConstructor = true := by rw [hs]; rfl
    obtain ⟨p, hp, rfl, -⟩ := (u.isSome_constructor_skeleton naming x hconstructor).1 hsome
    obtain ⟨b, hb, hp⟩ := List.mem_flatMap.1 hp
    rcases DeclaredBody.mem_placements.1 hp with ⟨h, hh, -⟩ | ⟨-, rfl⟩
    · exact ⟨b, hb, List.ne_nil_of_mem hh⟩
    · cases hs
  · rintro ⟨b, hb, hne⟩
    obtain ⟨h, hh⟩ := List.exists_mem_of_ne_nil _ hne
    have hkind : (Scope.callableComponent .constructor h).symbol.kind = .constructor := by
      rw [Scope.symbol_callableComponent]
    have hconstructor : (Scope.callableComponent .constructor h).symbol.kind.isConstructor =
        true := by rw [hkind]; rfl
    refine ⟨_, hkind, (u.isSome_constructor_skeleton naming x hconstructor).2
      ⟨constructorPlacement b.path h, List.mem_flatMap.2 ⟨b, hb, ?_⟩, rfl, nofun⟩⟩
    exact DeclaredBody.mem_placements.2 (.inl ⟨h, hh, rfl⟩)

/-- What closes the first body at the path is the default constructor, if it is first itself. -/
theorem isSome_defaultConstructor_iff {x : List Symbol} {owner s : Symbol}
    (howner : owner.kind.closes = true) (hs : s.kind = .defaultConstructor) :
    ((u.skeleton naming).entry (x ++ [owner] ++ [s])).isSome ↔
      s = (defaultConstructor owner.value).symbol ∧ u.LeavesDefault naming (x ++ [owner]) := by
  have hconstructor : s.kind.isConstructor = true := by rw [hs]; rfl
  have hsymbol : ∀ b ∈ bodiesAt (x ++ [owner]) (u.declaredBodies naming),
      b.path = x ++ [owner] ∧ b.symbol = owner := by
    intro b hb
    have hpath : b.path = x ++ [owner] := of_decide_eq_true (List.mem_filter.1 hb).2
    exact ⟨hpath, List.singleton_inj.1 (List.append_inj' hpath rfl).2⟩
  rw [u.isSome_constructor_skeleton naming _ hconstructor, LeavesDefault]
  generalize bodiesAt (x ++ [owner]) (u.declaredBodies naming) = bodies at hsymbol ⊢
  cases bodies with
  | nil => simp
  | cons c cs =>
    obtain ⟨hpath, hc⟩ := hsymbol c List.mem_cons_self
    have hcloses : c.symbol.kind.closes = true := by rw [hc, howner]
    have hhead := c.head?_placements_iff hcloses (cs.flatMap (·.placements))
    rw [hpath, hc] at hhead
    simp only [List.flatMap_cons, List.head?_cons, Option.some.injEq, exists_eq_left', ← hhead]
    constructor
    · rintro ⟨p, hp, rfl, hfirst⟩
      obtain ⟨b, hb, hp⟩ := List.mem_flatMap.1 (List.flatMap_cons ▸ hp)
      obtain ⟨hpath, hb⟩ := hsymbol b hb
      rcases DeclaredBody.mem_placements.1 hp with ⟨h, -, rfl⟩ | ⟨-, rfl⟩
      · rw [constructorPlacement, Scope.symbol_callableComponent] at hs
        cases hs
      · rw [hpath, hb] at hfirst ⊢
        exact ⟨rfl, hfirst rfl⟩
    · rintro ⟨rfl, hfirst⟩
      exact ⟨_, List.mem_of_mem_head? hfirst, rfl, fun _ => hfirst⟩

theorem constructs_or_leavesDefault {b : DeclaredBody} (hb : b ∈ u.declaredBodies naming) :
    u.Constructs naming b.path ∨ u.LeavesDefault naming b.path := by
  have hmem : b ∈ bodiesAt b.path (u.declaredBodies naming) :=
    List.mem_filter.2 ⟨hb, decide_eq_true rfl⟩
  have hc := List.head?_eq_some_head (List.ne_nil_of_mem hmem)
  by_cases hnone : ((bodiesAt b.path (u.declaredBodies naming)).head
      (List.ne_nil_of_mem hmem)).constructors = []
  · exact .inr ⟨_, hc, hnone⟩
  · exact .inl ⟨_, List.head_mem _, hnone⟩

/-- What is closed has its component, since there is a constructor below it. -/
theorem isSome_skeleton_path {b : DeclaredBody} (hb : b ∈ u.declaredBodies naming)
    (hcloses : b.symbol.kind.closes = true) : ((u.skeleton naming).entry b.path).isSome := by
  rcases u.constructs_or_leavesDefault naming hb with hconstructs | hleaves
  · obtain ⟨s, -, hsome⟩ := (u.constructs_iff naming b.path).2 hconstructs
    exact Tree.isSome_entry_of_append hsome
  · exact Tree.isSome_entry_of_append
      ((u.isSome_defaultConstructor_iff naming (x := b.outer) hcloses rfl).2 ⟨rfl, hleaves⟩)

end CompilationUnit

/-! ## The constructors of a program -/

namespace Tree

/-- One default constructor, or constructors of its own and no default one. -/
def ConstructorLaw (t : Tree) (id : NodeId) : Prop :=
  (t.childrenOfKind id .defaultConstructor).length = 1 ∧ t.childrenOfKind id .constructor = [] ∨
    t.childrenOfKind id .constructor ≠ [] ∧ t.childrenOfKind id .defaultConstructor = []

theorem constructorLaw_iff {t : Tree} {id : NodeId}
    (hdefault : (t.childrenOfKind id .defaultConstructor).length ≤ 1)
    (hany : t.childrenOfKind id .constructor ≠ [] ∨ t.childrenOfKind id .defaultConstructor ≠ []) :
    t.ConstructorLaw id ↔
      ¬ (t.childrenOfKind id .constructor ≠ [] ∧ t.childrenOfKind id .defaultConstructor ≠ []) := by
  have hone : (t.childrenOfKind id .defaultConstructor).length = 1 ↔
      t.childrenOfKind id .defaultConstructor ≠ [] := by
    rw [← List.length_pos_iff_ne_nil]
    omega
  rw [ConstructorLaw, hone]
  tauto

theorem Grown.length_le_one {t : Tree} (h : t.Grown) {id : NodeId} {cs : List NodeId}
    (hsub : cs.Sublist (t.children id)) {s : Symbol} (hs : ∀ c ∈ cs, (t.node c).symbol = s) :
    cs.length ≤ 1 := by
  have hnodup := (h.nodup_members id).sublist (hsub.map fun c => (t.node c).symbol)
  rw [List.map_congr_left hs, List.map_const', List.nodup_replicate] at hnodup
  exact hnodup

end Tree

section Run

variable (naming : Naming) (libraries : List Library) (units : List CompilationUnit)

variable {naming units} {x : List Symbol} {id : NodeId}
  (hid : (analyze naming libraries units).1.components.follow root x = some id)
include hid

theorem constructors_analyze :
    (analyze naming libraries units).1.components.childrenOfKind id .constructor ≠ [] ↔
      ∃ v ∈ units, v.Constructs naming x := by
  simp only [Tree.childrenOfKind_ne_nil_iff hid, isSome_entry_analyze,
    ← CompilationUnit.constructs_iff]
  constructor
  · rintro ⟨s, hs, v, hv, hsome⟩
    exact ⟨v, hv, s, hs, hsome⟩
  · rintro ⟨v, hv, s, hs, hsome⟩
    exact ⟨s, hs, v, hv, hsome⟩

variable {y : List Symbol} {owner : Symbol} (hx : y ++ [owner] = x)
  (howner : owner.kind.closes = true)
include hx howner

theorem defaultConstructors_analyze :
    (analyze naming libraries units).1.components.childrenOfKind id .defaultConstructor ≠ [] ↔
      ∃ v ∈ units, v.LeavesDefault naming x := by
  subst hx
  rw [Tree.childrenOfKind_ne_nil_iff hid]
  constructor
  · rintro ⟨s, hs, hsome⟩
    obtain ⟨v, hv, hsome⟩ := (isSome_entry_analyze naming libraries units _ s).1 hsome
    exact ⟨v, hv, ((v.isSome_defaultConstructor_iff naming howner hs).1 hsome).2⟩
  · rintro ⟨v, hv, hleaves⟩
    exact ⟨_, rfl, (isSome_entry_analyze naming libraries units _ _).2
      ⟨v, hv, (v.isSome_defaultConstructor_iff naming howner rfl).2 ⟨rfl, hleaves⟩⟩⟩

theorem length_defaultConstructors_analyze :
    ((analyze naming libraries units).1.components.childrenOfKind id
      .defaultConstructor).length ≤ 1 := by
  subst hx
  refine (grown_analyze naming libraries units).length_le_one List.filter_sublist
    (s := (defaultConstructor owner.value).symbol) fun c hc => ?_
  rw [Tree.childrenOfKind, List.mem_filter, decide_eq_true_eq] at hc
  have hsome := (Tree.mem_members hid).1 (List.mem_map_of_mem hc.1)
  obtain ⟨v, -, hsome⟩ := (isSome_entry_analyze naming libraries units _ _).1 hsome
  exact ((v.isSome_defaultConstructor_iff naming howner hc.2).1 hsome).1

omit hid hx howner

/-- The constructors below what a body closes come from all bodies at its path. It has a single
default constructor and no other, or others and no default one, unless the bodies disagree: some
unit declares a constructor there, and in some unit the first body there declares none. -/
theorem constructorLaw_analyze_iff {u : CompilationUnit} (hu : u ∈ units) {b : DeclaredBody}
    (hb : b ∈ u.declaredBodies naming) (hcloses : b.symbol.kind.closes = true) :
    ∃ id < (analyze naming libraries units).1.components.size,
      (analyze naming libraries units).1.components.identityPath id = b.path ∧
      ((analyze naming libraries units).1.components.childrenOfKind id .constructor ≠ [] ↔
        ∃ v ∈ units, v.Constructs naming b.path) ∧
      ((analyze naming libraries units).1.components.childrenOfKind id .defaultConstructor ≠ [] ↔
        ∃ v ∈ units, v.LeavesDefault naming b.path) ∧
      ((analyze naming libraries units).1.components.ConstructorLaw id ↔
        ¬ ((∃ v ∈ units, v.Constructs naming b.path) ∧
          ∃ v ∈ units, v.LeavesDefault naming b.path)) := by
  have hgrown := grown_analyze naming libraries units
  have hany : (∃ v ∈ units, v.Constructs naming b.path) ∨
      ∃ v ∈ units, v.LeavesDefault naming b.path :=
    (u.constructs_or_leavesDefault naming hb).imp (⟨u, hu, ·⟩) (⟨u, hu, ·⟩)
  have hsome : ((analyze naming libraries units).1.components.entry b.path).isSome :=
    (isSome_entry_analyze naming libraries units b.outer b.symbol).2
      ⟨u, hu, u.isSome_skeleton_path naming hb hcloses⟩
  obtain ⟨id, hid⟩ := Tree.isSome_entry_iff.1 hsome
  have hconstructors := constructors_analyze libraries hid
  have hdefaults := defaultConstructors_analyze libraries hid (y := b.outer) rfl hcloses
  have hlength := length_defaultConstructors_analyze libraries hid (y := b.outer) rfl hcloses
  refine ⟨id, hgrown.follow_lt hgrown.root_lt hid, hgrown.identityPath_of_follow hid,
    hconstructors, hdefaults, ?_⟩
  rw [← hconstructors, ← hdefaults] at hany ⊢
  exact Tree.constructorLaw_iff hlength hany

end Run

/-- A class that instantiates its own member class `In` anonymously; `In` has a constructor. -/
def constructedUnit : CompilationUnit where
  sourceName := "T.java"
  package := none
  imports := []
  types := [.mk ⟨.classType, "T", [], [], none, [], false, default⟩
    [.field ⟨["o"], [], "Object", false, default⟩,
      .type (.mk ⟨.classType, "In", [], [], none, [], true, default⟩ []),
      .type (.mk ⟨.classType, "In", ["static"], [], none, [], false, default⟩
        [.constructor (.mk ⟨"In", [], [], [⟨"x", [], "int", false, default⟩], none, default⟩ [])])]]

/-- The body of the member class. -/
def constructedBody : DeclaredBody where
  outer := [packageSymbol "default", ⟨.classType, "T", none⟩]
  symbol := ⟨.classType, "In", none⟩
  constructors := [⟨"In", [], [], [⟨"x", [], "int", false, default⟩], none, default⟩]

theorem constructedBody_mem : constructedBody ∈ constructedUnit.declaredBodies {} := by
  simp [constructedBody, constructedUnit, CompilationUnit.declaredBodies,
    CompilationUnit.packagePath, TypeDecl.bodiesOfList, TypeDecl.bodies, Member.bodiesOfList,
    Member.bodies, CallableDecl.bodies, CallableDecl.header, Member.constructors, TypeHeader.symbol,
    TypeKind.componentKind]

theorem constructorLaw_analyze_constructedBody :
    constructedUnit ∈ [constructedUnit] ∧
      constructedBody ∈ constructedUnit.declaredBodies {} ∧
      constructedBody.symbol.kind.closes = true ∧
      ∃ id < (analyze {} [] [constructedUnit]).1.components.size,
        (analyze {} [] [constructedUnit]).1.components.identityPath id = constructedBody.path ∧
        ((analyze {} [] [constructedUnit]).1.components.childrenOfKind id .constructor ≠ [] ↔
          ∃ v ∈ [constructedUnit], v.Constructs {} constructedBody.path) ∧
        ((analyze {} [] [constructedUnit]).1.components.childrenOfKind id .defaultConstructor ≠ []
          ↔ ∃ v ∈ [constructedUnit], v.LeavesDefault {} constructedBody.path) ∧
        ((analyze {} [] [constructedUnit]).1.components.ConstructorLaw id ↔
          ¬ ((∃ v ∈ [constructedUnit], v.Constructs {} constructedBody.path) ∧
            ∃ v ∈ [constructedUnit], v.LeavesDefault {} constructedBody.path)) :=
  ⟨List.mem_singleton_self _, constructedBody_mem, rfl,
    constructorLaw_analyze_iff [] (List.mem_singleton_self _) constructedBody_mem rfl⟩

/-- The member class declares a constructor and has a default one all the same, from the anonymous
body that closes before. -/
theorem constructedBody_default :
    constructedBody ∈ constructedUnit.declaredBodies {} ∧ constructedBody.constructors ≠ [] ∧
      (analyze {} [] [constructedUnit]).1.components.identityPath 4 = constructedBody.path ∧
      (analyze {} [] [constructedUnit]).1.components.childrenOfKind 4 .constructor = [6] ∧
      (analyze {} [] [constructedUnit]).1.components.childrenOfKind 4 .defaultConstructor = [5] ∧
      ¬ (analyze {} [] [constructedUnit]).1.components.ConstructorLaw 4 := by
  refine ⟨constructedBody_mem, nofun, ?_⟩
  rw [Tree.ConstructorLaw]
  decide +kernel

end SymbolTable
