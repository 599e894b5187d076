import SymbolTable.Proofs.Analysis.DeclaredTypes

/-!
# Which types are marked as anonymous

A declaration is marked when it is anonymous, and nothing but declarations makes or removes marks.
Declarations at one identity path share a component, so a component is marked as soon as one of them
is anonymous, also when another one gives the type a name.
-/

namespace SymbolTable

open SymbolTable.Tree (root)
open SymbolTable.Tree.Entry (attributesOf)

theorem CompilationUnit.marked_component (u : CompilationUnit) (h : TypeHeader) :
    anonymousMark ∈ (h.component u.source).attributes ↔ h.anonymous := by
  apply Scope.marked_typeComponent
  rw [source, Option.mem_def]
  nofun

/-- A component of a unit is marked when an anonymous class was declared at its path. -/
theorem CompilationUnit.marked_skeleton (naming : Naming) (u : CompilationUnit)
    (d : DeclaredType) :
    anonymousMark ∈ attributesOf ((u.skeleton naming).entry d.path) ↔
      ∃ e ∈ u.declaredTypes naming, e.path = d.path ∧ e.header.anonymous := by
  constructor
  · intro hmark
    rw [skeleton_eq] at hmark
    rcases Tree.mem_attributes_places Tree.grown_empty (u.kind_placements naming) hmark with
      hmark | ⟨p, hp, hpath, hmark⟩
    · rw [DeclaredType.path, entry_empty] at hmark
      exact absurd hmark List.not_mem_nil
    · have hkind := (path_inj hpath.symm).2
      have htype : p.isType = true := by
        rw [Placement.isType, hkind, TypeHeader.symbol]
        cases d.header.kind <;> rfl
      obtain ⟨e, he, rfl⟩ := u.placement_of_isType naming hp htype
      exact ⟨e, he, (e.path_placement _).symm.trans hpath.symm,
        (u.marked_component e.header).1 hmark⟩
  · rintro ⟨e, he, hpath, hanonymous⟩
    obtain ⟨id, hid, hattributes⟩ := u.placed_declaredType naming he
    rw [← hpath, Tree.attributesOf_of_follow hid]
    exact hattributes _ ((u.marked_component e.header).2 hanonymous)

section Run

variable (naming : Naming) (libraries : List Library) (units : List CompilationUnit)

theorem marked_analyze (d : DeclaredType) :
    anonymousMark ∈ attributesOf ((analyze naming libraries units).1.components.entry d.path) ↔
      ∃ u ∈ units, ∃ e ∈ u.declaredTypes naming, e.path = d.path ∧ e.header.anonymous := by
  have hgrown := grown_skeletons naming units
  have hmarked := (analyze_spec naming libraries units).1.alike.marked (x := d.path)
  have hempty : anonymousMark ∉ attributesOf (Tree.empty.entry d.path) := by
    rw [DeclaredType.path, CompilationUnit.entry_empty]
    exact List.not_mem_nil
  rw [declaredApplication_components] at hmarked
  rw [hmarked, Tree.mem_attributesOf_mergeAll Tree.grown_empty hgrown, or_iff_right hempty]
  simp only [List.mem_map, exists_exists_and_eq_and, CompilationUnit.marked_skeleton]

/-- Every type declaration has its component, and the component is marked as anonymous just when
some unit declares an anonymous class at the same identity path. -/
theorem marked_iff_anonymous_declared {u : CompilationUnit} (hu : u ∈ units) {d : DeclaredType}
    (hd : d ∈ u.declaredTypes naming) :
    ∃ id < (analyze naming libraries units).1.components.size,
      (analyze naming libraries units).1.components.identityPath id = d.path ∧
      ((analyze naming libraries units).1.components.node id).symbol = d.header.symbol ∧
      (anonymousMark ∈ ((analyze naming libraries units).1.components.node id).attributes ↔
        ∃ v ∈ units, ∃ e ∈ v.declaredTypes naming, e.path = d.path ∧ e.header.anonymous) := by
  have hdeclares := declares_declaredApplication naming libraries units
  have halike := (analyze_spec naming libraries units).1.alike
  have hgrown := hdeclares.grown.of_sameShape halike.sameShape
  obtain ⟨i, hi, -⟩ := u.placed_declaredType naming hd
  have hsome : ((u.skeleton naming).entry d.path).isSome := by
    rw [Tree.isSome_entry, hi]
    rfl
  rw [← declaredApplication_naming naming libraries units] at hsome
  have hmerged := (hdeclares.includes u hu d.path hsome).1
  rw [← halike.isSome_entry, Tree.isSome_entry] at hmerged
  obtain ⟨id, hid⟩ := Option.isSome_iff_exists.1 hmerged
  refine ⟨id, hgrown.follow_lt hgrown.root_lt hid, hgrown.identityPath_of_follow hid,
    Tree.symbol_of_follow_concat hid, ?_⟩
  rw [← Tree.attributesOf_of_follow hid]
  exact marked_analyze naming libraries units d

end Run

/-- A class that instantiates its own member class `In` anonymously in a field initializer. -/
def instantiatingUnit : CompilationUnit where
  sourceName := "T.java"
  package := none
  imports := []
  types := [.mk ⟨.classType, "T", [], [], none, [], false, default⟩
    [.type (.mk ⟨.classType, "In", ["static"], [], none, [], false, default⟩ []),
      .field ⟨["o"], [], "Object", false, default⟩,
      .type (.mk ⟨.classType, "In", [], [], none, [], true, default⟩ [])]]

def namedMember : DeclaredType where
  outer := [packageSymbol "default", ⟨.classType, "T", none⟩]
  header := ⟨.classType, "In", ["static"], [], none, [], false, default⟩

theorem namedMember_mem : namedMember ∈ instantiatingUnit.declaredTypes {} := by
  simp [namedMember, instantiatingUnit, CompilationUnit.declaredTypes,
    CompilationUnit.packagePath, TypeDecl.declaredOfList, TypeDecl.declared,
    Member.declaredOfList, Member.declared, TypeHeader.symbol, TypeKind.componentKind]

theorem marked_iff_anonymous_declared_namedMember :
    instantiatingUnit ∈ [instantiatingUnit] ∧ namedMember ∈ instantiatingUnit.declaredTypes {} ∧
      ∃ id < (analyze {} [] [instantiatingUnit]).1.components.size,
        (analyze {} [] [instantiatingUnit]).1.components.identityPath id = namedMember.path ∧
        ((analyze {} [] [instantiatingUnit]).1.components.node id).symbol =
          namedMember.header.symbol ∧
        (anonymousMark ∈ ((analyze {} [] [instantiatingUnit]).1.components.node id).attributes ↔
          ∃ v ∈ [instantiatingUnit], ∃ e ∈ v.declaredTypes {}, e.path = namedMember.path ∧
            e.header.anonymous) :=
  ⟨List.mem_singleton_self _, namedMember_mem,
    marked_iff_anonymous_declared {} [] _ (List.mem_singleton_self _) namedMember_mem⟩

/-- The member class has a name and is marked as anonymous all the same. -/
theorem namedMember_marked :
    namedMember ∈ instantiatingUnit.declaredTypes {} ∧ namedMember.header.anonymous = false ∧
      (analyze {} [] [instantiatingUnit]).1.components.identityPath 3 = namedMember.path ∧
      anonymousMark ∈ ((analyze {} [] [instantiatingUnit]).1.components.node 3).attributes :=
  ⟨namedMember_mem, rfl, by decide +kernel, by decide +kernel⟩

end SymbolTable
