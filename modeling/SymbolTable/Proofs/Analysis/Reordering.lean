import SymbolTable.Proofs.Analysis.CursorPath
import SymbolTable.Proofs.Analysis.Interchange

/-!
# Declarations in another order

The members of a type may be listed in another order, and so may the types of a file, as long as no
two that become components of one symbol change places. A file in another order declares the same
components with the same attributes: what is placed for one member lies apart from what is placed
for another.
-/

namespace SymbolTable

open SymbolTable.Tree (root)
open SymbolTable.Tree.Entry (attributesOf)

/-- The symbols of the components that a member becomes. -/
def Member.symbols : Member → List Symbol
  | .type d => [d.header.symbol]
  | .constructor d => [d.header.symbol .constructor]
  | .method d => [d.header.symbol .method]
  | .field f => f.names.map fun name => ⟨.field, name, none⟩
  | .enumConstant d => [d.header.symbol]

/-- Members in another order, at any depth. -/
inductive Member.Reorders : List Member → List Member → Prop
  | refl (ms : List Member) : Reorders ms ms
  | trans {ms ms' ms'' : List Member} : Reorders ms ms' → Reorders ms' ms'' → Reorders ms ms''
  | cons (m : Member) {ms ms' : List Member} : Reorders ms ms' → Reorders (m :: ms) (m :: ms')
  | swap {m m' : Member} (ms : List Member) (h : m.symbols.Disjoint m'.symbols) :
      Reorders (m :: m' :: ms) (m' :: m :: ms)
  | type (h : TypeHeader) (rest : List Member) {ms ms' : List Member} : Reorders ms ms' →
      Reorders (.type (.mk h ms) :: rest) (.type (.mk h ms') :: rest)
  | constructor (h : CallableHeader) (before after : List TypeDecl) (header : TypeHeader)
      (rest : List Member) {ms ms' : List Member} : Reorders ms ms' →
      Reorders (.constructor (.mk h (before ++ .mk header ms :: after)) :: rest)
        (.constructor (.mk h (before ++ .mk header ms' :: after)) :: rest)
  | method (h : CallableHeader) (before after : List TypeDecl) (header : TypeHeader)
      (rest : List Member) {ms ms' : List Member} : Reorders ms ms' →
      Reorders (.method (.mk h (before ++ .mk header ms :: after)) :: rest)
        (.method (.mk h (before ++ .mk header ms' :: after)) :: rest)
  | enumConstant (h : ConstantHeader) (rest : List Member) {ms ms' : List Member} :
      Reorders ms ms' →
      Reorders (.enumConstant (.mk h (some ms)) :: rest) (.enumConstant (.mk h (some ms')) :: rest)

/-- Types of a file in another order, with their members in another order. -/
inductive TypeDecl.Reorders : List TypeDecl → List TypeDecl → Prop
  | refl (ds : List TypeDecl) : Reorders ds ds
  | trans {ds ds' ds'' : List TypeDecl} : Reorders ds ds' → Reorders ds' ds'' → Reorders ds ds''
  | cons (d : TypeDecl) {ds ds' : List TypeDecl} : Reorders ds ds' → Reorders (d :: ds) (d :: ds')
  | swap {d d' : TypeDecl} (ds : List TypeDecl) (h : d.header.symbol ≠ d'.header.symbol) :
      Reorders (d :: d' :: ds) (d' :: d :: ds)
  | members (h : TypeHeader) (rest : List TypeDecl) {ms ms' : List Member} :
      Member.Reorders ms ms' → Reorders (.mk h ms :: rest) (.mk h ms' :: rest)

/-- The files differ in the order of declarations only. -/
structure CompilationUnit.Reorders (u u' : CompilationUnit) : Prop where
  sourceName : u'.sourceName = u.sourceName
  package : u'.package = u.package
  imports : u'.imports = u.imports
  types : TypeDecl.Reorders u.types u'.types

/-- Members without a symbol in common may be put in any order. -/
theorem Member.Reorders.of_perm {ms ms' : List Member} (hperm : ms.Perm ms')
    (h : ms.Pairwise fun m m' => m.symbols.Disjoint m'.symbols) : Member.Reorders ms ms' := by
  induction hperm with
  | nil => exact .refl _
  | cons m _ ih => exact .cons m (ih (List.pairwise_cons.1 h).2)
  | swap m m' ms =>
    exact .swap ms ((List.pairwise_cons.1 h).1 m List.mem_cons_self)
  | trans hperm _ ih ih' =>
    exact (ih h).trans (ih' (hperm.pairwise h fun hm => List.disjoint_symm hm))

theorem TypeDecl.Reorders.of_perm {ds ds' : List TypeDecl} (hperm : ds.Perm ds')
    (h : (ds.map (·.header.symbol)).Nodup) : TypeDecl.Reorders ds ds' := by
  induction hperm with
  | nil => exact .refl _
  | cons d _ ih => exact .cons d (ih (List.nodup_cons.1 h).2)
  | swap d d' ds =>
    exact .swap ds fun heq => (List.nodup_cons.1 h).1 (List.mem_cons.2 (.inl heq))
  | trans hperm _ ih ih' =>
    exact (ih h).trans (ih' ((hperm.map _).nodup_iff.1 h))

/-! ## What is placed for a member -/

/-- Placed at `outer` under the symbol, or below that. -/
def Placement.Below (outer : List Symbol) (s : Symbol) (p : Placement) : Prop :=
  p.outer = outer ∧ p.component.symbol = s ∧ p.fallback = false ∨ outer ++ [s] <+: p.outer

namespace Placement.Below

variable {outer : List Symbol} {s s' : Symbol} {p q : Placement}

theorem path (h : p.Below outer s) : outer ++ [s] <+: p.path := by
  rcases h with ⟨rfl, rfl, -⟩ | h
  · exact List.prefix_rfl
  · exact h.trans (List.prefix_append _ _)

theorem ne_outer {x : List Symbol} (hp : outer ++ [s] <+: x) (hq : q.Below outer s')
    (hne : s ≠ s') : x ≠ q.outer := by
  rintro rfl
  rcases hq with ⟨houter, -, -⟩ | hq
  · have hlength := hp.length_le
    rw [houter, List.length_append] at hlength
    exact absurd hlength (Nat.not_succ_le_self _)
  · exact hne (concat_prefix_inj hq hp)

/-- What is placed under different symbols lies apart. -/
theorem apart (hp : p.Below outer s) (hq : q.Below outer s') (hne : s ≠ s') : p.Apart q where
  path heq := hne (concat_prefix_inj hq.path (heq ▸ hp.path))
  outer := ne_outer hp.path hq hne
  outer' := ne_outer hq.path hp hne.symm
  fallback houter := by
    rcases id hp with ⟨-, -, hplain⟩ | hdeep
    · rcases id hq with ⟨-, -, hplain'⟩ | hdeep
      · exact ⟨hplain, hplain'⟩
      · exact absurd houter.symm (ne_outer hdeep hp hne.symm)
    · exact absurd houter (ne_outer hdeep hq hne)

theorem of_inside (h : p.Inside (outer ++ [s])) : p.Below outer s := .inr h.outer

end Placement.Below

section Below

variable {file : Option Attribute} {outer : List Symbol} {imports : List Component}
  (himports : ∀ i ∈ imports, i.kind ≠ .root ∧ i.kind ≠ .package)

include himports in
theorem TypeDecl.below_placements (d : TypeDecl) :
    ∀ p ∈ d.placements file outer imports, p.Below outer d.header.symbol := by
  obtain ⟨h, members⟩ := d
  intro p hp
  rw [TypeDecl.placements, List.mem_cons, List.mem_append, List.mem_append, List.mem_append,
    TypeHeader.symbol_component] at hp
  rcases hp with rfl | ((hp | hp) | hp) | hp
  · exact .inl ⟨rfl, TypeHeader.symbol_component file h, rfl⟩
  · exact .of_inside (Placement.Inside.of_mem_map hp (fun i hi => (himports i hi).1)
      fun i hi => (himports i hi).2)
  · exact .of_inside (inside_typeParameters p hp)
  · exact .of_inside (Member.insideList members p hp)
  · exact .of_inside (TypeHeader.inside_closing p hp)

theorem CallableDecl.below_placements (kind : ComponentKind) (d : CallableDecl) :
    ∀ p ∈ d.placements file outer kind, p.Below outer (d.header.symbol kind) := by
  obtain ⟨h, localTypes⟩ := d
  intro p hp
  rw [CallableDecl.placements, List.mem_cons, List.mem_append, List.mem_append,
    Scope.symbol_callableComponent] at hp
  rcases hp with rfl | (hp | hp) | hp
  · exact .inl ⟨rfl, Scope.symbol_callableComponent kind h, rfl⟩
  · exact .of_inside (inside_typeParameters p hp)
  · obtain ⟨q, -, rfl⟩ := List.mem_map.1 hp
    exact .inr List.prefix_rfl
  · exact .of_inside (TypeDecl.insideList (fun _ hi => absurd hi List.not_mem_nil) localTypes p hp)

theorem ConstantDecl.below_placements (d : ConstantDecl) :
    ∀ p ∈ d.placements file outer, p.Below outer d.header.symbol := by
  have hbracket : ∀ (h : ConstantHeader) (body : List Placement),
      (∀ p ∈ body, p.Inside (outer ++ [h.symbol])) →
      ∀ p ∈ (⟨outer, Scope.constantComponent h, false⟩ : Placement) ::
        (body ++ [⟨outer ++ [h.symbol], defaultConstructor h.name, true⟩]),
        p.Below outer h.symbol := by
    intro h body hbody p hp
    rw [List.mem_cons, List.mem_append, List.mem_singleton] at hp
    rcases hp with rfl | hp | rfl
    · exact .inl ⟨rfl, Scope.symbol_constantComponent h, rfl⟩
    · exact .of_inside (hbody p hp)
    · exact .inr List.prefix_rfl
  intro p hp
  obtain ⟨h, body⟩ := d
  cases body with
  | none =>
    rw [ConstantDecl.placements, Scope.symbol_constantComponent] at hp
    exact hbracket h [] (fun _ hq => absurd hq List.not_mem_nil) p hp
  | some ms =>
    rw [ConstantDecl.placements, Scope.symbol_constantComponent] at hp
    exact hbracket h _ (Member.insideList ms) p hp

/-- What is placed for a member is placed under one of its symbols. -/
theorem Member.below_placements (m : Member) :
    ∀ p ∈ m.placements file outer, ∃ s ∈ m.symbols, p.Below outer s := by
  intro p hp
  cases m with
  | type d =>
    rw [Member.placements] at hp
    exact ⟨_, List.mem_singleton_self _,
      d.below_placements (fun _ hi => absurd hi List.not_mem_nil) p hp⟩
  | constructor d =>
    rw [Member.placements] at hp
    exact ⟨_, List.mem_singleton_self _, d.below_placements .constructor p hp⟩
  | method d =>
    rw [Member.placements] at hp
    exact ⟨_, List.mem_singleton_self _, d.below_placements .method p hp⟩
  | field f =>
    rw [Member.placements] at hp
    obtain ⟨name, hname, rfl⟩ := List.mem_map.1 hp
    exact ⟨_, List.mem_map_of_mem hname, .inl ⟨rfl, Scope.symbol_fieldComponent f name, rfl⟩⟩
  | enumConstant d =>
    rw [Member.placements] at hp
    exact ⟨_, List.mem_singleton_self _, d.below_placements p hp⟩

/-! ## Interchangeable declarations -/

theorem Member.interchangeable_swap {m m' : Member} (h : m.symbols.Disjoint m'.symbols) :
    Interchangeable (m.placements file outer ++ m'.placements file outer)
      (m'.placements file outer ++ m.placements file outer) := by
  apply Interchangeable.swap
  · exact fun p hp => (m.inside p hp).ne_root
  · exact fun p hp => (m'.inside p hp).ne_root
  · intro p hp q hq
    obtain ⟨s, hs, hbelow⟩ := m.below_placements p hp
    obtain ⟨s', hs', hbelow'⟩ := m'.below_placements q hq
    exact hbelow.apart hbelow' fun heq => h hs (heq ▸ hs')

include himports in
theorem TypeDecl.interchangeable_swap {d d' : TypeDecl} (h : d.header.symbol ≠ d'.header.symbol) :
    Interchangeable (d.placements file outer imports ++ d'.placements file outer imports)
      (d'.placements file outer imports ++ d.placements file outer imports) := by
  apply Interchangeable.swap
  · exact fun p hp => (TypeDecl.inside himports d p hp).ne_root
  · exact fun p hp => (TypeDecl.inside himports d' p hp).ne_root
  · exact fun p hp q hq => (d.below_placements himports p hp).apart (d'.below_placements himports q hq) h

/-- Only the members of a type are placed in another way. -/
theorem TypeDecl.interchangeable_members (h : TypeHeader) {ms ms' : List Member}
    (himports : ∀ i ∈ imports, i.kind ≠ .root ∧ i.kind ≠ .package)
    (hms : ∀ here, Interchangeable (Member.placementsOfList file here ms)
      (Member.placementsOfList file here ms')) :
    Interchangeable ((TypeDecl.mk h ms).placements file outer imports)
      ((TypeDecl.mk h ms').placements file outer imports) := by
  have hhead : ∀ p ∈ (TypeDecl.mk h []).placements file outer imports, p.component.kind ≠ .root :=
    fun p hp => (TypeDecl.inside himports _ p hp).ne_root
  rw [TypeDecl.placements, Member.placementsOfList, List.append_nil] at hhead
  rw [TypeDecl.placements, TypeDecl.placements, ← List.cons_append, ← List.cons_append,
    ← List.cons_append, ← List.cons_append]
  rw [← List.cons_append] at hhead
  refine ((Interchangeable.refl fun p hp => ?_).append (hms _)).append
    (.refl fun p hp => (TypeHeader.inside_closing p hp).ne_root)
  exact hhead p (List.mem_append_left _ hp)

theorem TypeDecl.interchangeable_among (before after : List TypeDecl) (h : TypeHeader)
    {ms ms' : List Member} (hms : ∀ here, Interchangeable (Member.placementsOfList file here ms)
      (Member.placementsOfList file here ms')) :
    Interchangeable (TypeDecl.placementsOfList file outer [] (before ++ .mk h ms :: after))
      (TypeDecl.placementsOfList file outer [] (before ++ .mk h ms' :: after)) := by
  have hnil : ∀ i ∈ ([] : List Component), i.kind ≠ .root ∧ i.kind ≠ .package :=
    fun _ hi => absurd hi List.not_mem_nil
  have hself : ∀ ds : List TypeDecl, Interchangeable
      (TypeDecl.placementsOfList file outer [] ds) (TypeDecl.placementsOfList file outer [] ds) :=
    fun ds => .refl fun p hp => (TypeDecl.insideList hnil ds p hp).ne_root
  rw [TypeDecl.placementsOfList_append, TypeDecl.placementsOfList_append,
    TypeDecl.placementsOfList, TypeDecl.placementsOfList]
  exact (hself before).append ((TypeDecl.interchangeable_members h hnil hms).append (hself after))

theorem CallableDecl.interchangeable (kind : ComponentKind) (hroot : kind ≠ .root)
    (hpackage : kind ≠ .package) (h : CallableHeader) {ds ds' : List TypeDecl}
    (hds : ∀ here, Interchangeable (TypeDecl.placementsOfList file here [] ds)
      (TypeDecl.placementsOfList file here [] ds')) :
    Interchangeable ((CallableDecl.mk h ds).placements file outer kind)
      ((CallableDecl.mk h ds').placements file outer kind) := by
  have hhead : ∀ p ∈ (CallableDecl.mk h []).placements file outer kind, p.component.kind ≠ .root :=
    fun p hp => (CallableDecl.inside kind hroot hpackage _ p hp).ne_root
  rw [CallableDecl.placements, TypeDecl.placementsOfList, List.append_nil] at hhead
  rw [CallableDecl.placements, CallableDecl.placements, ← List.cons_append, ← List.cons_append]
  exact (Interchangeable.refl hhead).append (hds _)

theorem ConstantDecl.interchangeable (h : ConstantHeader) {ms ms' : List Member}
    (hms : ∀ here, Interchangeable (Member.placementsOfList file here ms)
      (Member.placementsOfList file here ms')) :
    Interchangeable ((ConstantDecl.mk h (some ms)).placements file outer)
      ((ConstantDecl.mk h (some ms')).placements file outer) := by
  have hends : ∀ p ∈ (ConstantDecl.mk h none).placements file outer, p.component.kind ≠ .root :=
    fun p hp => (ConstantDecl.inside _ p hp).ne_root
  rw [ConstantDecl.placements] at hends
  rw [ConstantDecl.placements, ConstantDecl.placements]
  have hself : ∀ c, c.kind ≠ .root → Interchangeable [⟨outer, c, false⟩] [⟨outer, c, false⟩] :=
    fun c hc => .refl fun p hp => List.mem_singleton.1 hp ▸ hc
  exact (hself _ (hends _ List.mem_cons_self)).append
    ((hms _).append (.refl fun p hp => hends p (List.mem_cons_of_mem _ hp)))

theorem Member.Reorders.interchangeable {ms ms' : List Member} (h : Member.Reorders ms ms') :
    ∀ outer, Interchangeable (Member.placementsOfList file outer ms)
      (Member.placementsOfList file outer ms') := by
  have hself : ∀ (ms : List Member) (outer : List Symbol),
      Interchangeable (Member.placementsOfList file outer ms)
        (Member.placementsOfList file outer ms) :=
    fun ms outer => .refl fun p hp => (Member.insideList ms p hp).ne_root
  have hone : ∀ (m : Member) (outer : List Symbol),
      Interchangeable (m.placements file outer) (m.placements file outer) :=
    fun m outer => .refl fun p hp => (m.inside p hp).ne_root
  induction h with
  | refl ms => exact hself ms
  | trans _ _ ih ih' => exact fun outer => (ih outer).trans (ih' outer)
  | cons m _ ih =>
    intro outer
    rw [Member.placementsOfList, Member.placementsOfList]
    exact (hone m outer).append (ih outer)
  | swap ms hdisjoint =>
    intro outer
    simp only [Member.placementsOfList, ← List.append_assoc]
    exact (Member.interchangeable_swap hdisjoint).append (hself ms outer)
  | type h rest _ ih =>
    intro outer
    simp only [Member.placementsOfList, Member.placements]
    exact (TypeDecl.interchangeable_members h (fun _ hi => absurd hi List.not_mem_nil) ih).append
      (hself rest outer)
  | constructor h before after header rest _ ih =>
    intro outer
    simp only [Member.placementsOfList, Member.placements]
    exact (CallableDecl.interchangeable .constructor (by decide) (by decide) h fun here =>
      TypeDecl.interchangeable_among before after header ih).append (hself rest outer)
  | method h before after header rest _ ih =>
    intro outer
    simp only [Member.placementsOfList, Member.placements]
    exact (CallableDecl.interchangeable .method (by decide) (by decide) h fun here =>
      TypeDecl.interchangeable_among before after header ih).append (hself rest outer)
  | enumConstant h rest _ ih =>
    intro outer
    simp only [Member.placementsOfList, Member.placements]
    exact (ConstantDecl.interchangeable h ih).append (hself rest outer)

include himports in
theorem TypeDecl.Reorders.interchangeable {ds ds' : List TypeDecl} (h : TypeDecl.Reorders ds ds') :
    Interchangeable (TypeDecl.placementsOfList file outer imports ds)
      (TypeDecl.placementsOfList file outer imports ds') := by
  have hself : ∀ ds : List TypeDecl, Interchangeable
      (TypeDecl.placementsOfList file outer imports ds)
      (TypeDecl.placementsOfList file outer imports ds) :=
    fun ds => .refl fun p hp => (TypeDecl.insideList himports ds p hp).ne_root
  induction h with
  | refl ds => exact hself ds
  | trans _ _ ih ih' => exact ih.trans ih'
  | cons d _ ih =>
    rw [TypeDecl.placementsOfList, TypeDecl.placementsOfList]
    exact (Interchangeable.refl fun p hp => (TypeDecl.inside himports d p hp).ne_root).append ih
  | swap ds hne =>
    simp only [TypeDecl.placementsOfList, ← List.append_assoc]
    exact (TypeDecl.interchangeable_swap himports hne).append (hself ds)
  | members h rest hms =>
    simp only [TypeDecl.placementsOfList]
    exact (TypeDecl.interchangeable_members h himports hms.interchangeable).append (hself rest)

end Below

/-! ## The skeleton of a file in another order -/

theorem TypeDecl.Reorders.isEmpty_eq {ds ds' : List TypeDecl} (h : TypeDecl.Reorders ds ds') :
    ds'.isEmpty = ds.isEmpty := by
  induction h with
  | refl ds => rfl
  | trans _ _ ih ih' => exact ih'.trans ih
  | cons d _ _ => rfl
  | swap ds _ => rfl
  | members h rest _ => rfl

namespace CompilationUnit.Reorders

variable {u u' : CompilationUnit} (h : u.Reorders u') (naming : Naming)
include h

theorem source : u'.source = u.source := by
  rw [CompilationUnit.source, CompilationUnit.source, fileName, fileName, h.sourceName]

theorem packagePath : u'.packagePath naming = u.packagePath naming := by
  rw [CompilationUnit.packagePath, CompilationUnit.packagePath, h.package]

theorem listedImports : u'.listedImports naming = u.listedImports naming := by
  rw [CompilationUnit.listedImports, CompilationUnit.listedImports, importComponents,
    importComponents, h.packagePath, h.imports]

theorem packagePlacements : u'.packagePlacements naming = u.packagePlacements naming := by
  rw [CompilationUnit.packagePlacements, CompilationUnit.packagePlacements, h.package, h.source,
    h.types.isEmpty_eq]

/-- A file in another order declares the same components with the same attributes. -/
theorem sameEntries_skeleton : (u.skeleton naming).SameEntries (u'.skeleton naming) := by
  have himports : ∀ i ∈ u.listedImports naming, i.kind ≠ .root ∧ i.kind ≠ .package := by
    intro i hi
    obtain ⟨kind, hkind⟩ := u.kind_listedImports naming i hi
    exact ⟨hkind ▸ nofun, hkind ▸ nofun⟩
  have hpackages : ∀ p ∈ u.packagePlacements naming, p.component.kind ≠ .root := by
    intro p hp
    rw [(u.package_of_mem naming p hp).1]
    nofun
  have hplacements : Interchangeable (u.placements naming) (u'.placements naming) := by
    rw [CompilationUnit.placements, CompilationUnit.placements, h.packagePlacements, h.source,
      h.packagePath, h.listedImports]
    exact (Interchangeable.refl hpackages).append (h.types.interchangeable himports)
  rw [u.skeleton_eq, u'.skeleton_eq]
  exact hplacements.sameEntries Tree.grown_empty Tree.grown_empty (.refl _)

end CompilationUnit.Reorders

end SymbolTable
