import SymbolTable.Proofs.Analysis.Alike
import SymbolTable.Proofs.Analysis.UnitTree

/-!
# The skeleton of a unit

The skeleton is the tree of the declaration phase, which no application has a say in. Its packages
are one chain from the root, and everything else lies below the end of that chain.
-/

namespace SymbolTable

open SymbolTable.Tree (root)

/-- A path leads on by one symbol only. -/
theorem concat_prefix_inj {α : Type} {y x : List α} {s s' : α} (h : y ++ [s] <+: x)
    (h' : y ++ [s'] <+: x) : s' = s := by
  have hlength : (y ++ [s']).length = (y ++ [s]).length := by simp
  have heq := (List.prefix_of_prefix_length_le h' h (Nat.le_of_eq hlength)).eq_of_length hlength
  exact List.singleton_inj.1 (List.append_cancel_left heq)

namespace Tree

/-! ## What a placement adds -/

theorem place_cases (t : Tree) (p : Placement) :
    t.place p = t ∨
      ∃ id, t.follow root p.outer = some id ∧ t.place p = (t.put id p.component).2 := by
  unfold place
  cases h : t.follow root p.outer with
  | none => exact .inl rfl
  | some id =>
    by_cases hc : p.fallback && t.hasConstructor id
    · exact .inl (if_pos hc)
    · exact .inr ⟨id, rfl, if_neg hc⟩

/-- A placement joins a member at its outer path, and its attributes at its own. -/
theorem Grown.entry_place {t : Tree} (h : t.Grown) (p : Placement) (x : List Symbol) :
    (t.place p).entry x = t.entry x ∨
      (t.entry x).isSome ∧ (∃ s, (t.place p).entry x = Entry.join (t.entry x) (some ⟨[], [s]⟩)) ∨
      x = p.path ∧ (t.place p).entry x =
        Entry.join (t.entry x) (some ⟨p.component.attributes, []⟩) := by
  rcases t.place_cases p with heq | ⟨id, hid, heq⟩
  · exact .inl (congrArg (fun t => t.entry x) heq)
  · have hentry := h.entry_put hid x (c := p.component)
    rw [heq, hentry]
    by_cases hx : x = p.outer
    · refine .inr (.inl ⟨?_, p.component.symbol, by rw [if_pos hx]⟩)
      rw [isSome_entry, hx, hid]
      rfl
    · rw [if_neg hx]
      by_cases hx' : x = p.outer ++ [p.component.symbol]
      · exact .inr (.inr ⟨hx', by rw [if_pos hx']⟩)
      · rw [if_neg hx', Entry.join_none_right]
        exact .inl rfl

theorem Grown.place {t : Tree} (h : t.Grown) {p : Placement} (hp : p.component.kind ≠ .root) :
    (t.place p).Grown := by
  rcases t.place_cases p with heq | ⟨id, hid, heq⟩
  · rwa [heq]
  · rw [heq]
    exact h.put (h.follow_lt h.root_lt hid) hp

section Places

variable {t : Tree} (h : t.Grown) {pls : List Placement}
  (hpls : ∀ p ∈ pls, p.component.kind ≠ .root) {x : List Symbol}
include h hpls

theorem isSome_entry_places (hx : ((pls.foldl place t).entry x).isSome) :
    (t.entry x).isSome ∨ ∃ p ∈ pls, x = p.path := by
  induction pls generalizing t with
  | nil => exact .inl hx
  | cons p pls ih =>
    have hp := hpls p List.mem_cons_self
    rcases ih (h.place hp) (fun q hq => hpls q (List.mem_cons_of_mem p hq)) hx with hx | ⟨q, hq, hx⟩
    · rcases h.entry_place p x with heq | ⟨hsome, -⟩ | ⟨hpath, -⟩
      · exact .inl (heq ▸ hx)
      · exact .inl hsome
      · exact .inr ⟨p, List.mem_cons_self, hpath⟩
    · exact .inr ⟨q, List.mem_cons_of_mem p hq, hx⟩

theorem mem_attributes_places {a : Attribute}
    (ha : a ∈ Entry.attributesOf ((pls.foldl place t).entry x)) :
    a ∈ Entry.attributesOf (t.entry x) ∨
      ∃ p ∈ pls, x = p.path ∧ a ∈ p.component.attributes := by
  induction pls generalizing t with
  | nil => exact .inl ha
  | cons p pls ih =>
    have hp := hpls p List.mem_cons_self
    rcases ih (h.place hp) (fun q hq => hpls q (List.mem_cons_of_mem p hq)) ha with ha | ⟨q, hq, hx⟩
    · rcases h.entry_place p x with heq | ⟨-, s, heq⟩ | ⟨hpath, heq⟩
      · exact .inl (heq ▸ ha)
      · rw [heq, Entry.mem_attributesOf_join] at ha
        exact .inl (ha.resolve_right List.not_mem_nil)
      · rw [heq, Entry.mem_attributesOf_join] at ha
        exact ha.imp_right fun ha => ⟨p, List.mem_cons_self, hpath, ha⟩
    · exact .inr ⟨q, List.mem_cons_of_mem p hq, hx⟩

theorem nodup_attributes_places (hnodup : ∀ p ∈ pls, x = p.path → p.component.attributes.Nodup)
    (ht : (Entry.attributesOf (t.entry x)).Nodup) :
    (Entry.attributesOf ((pls.foldl place t).entry x)).Nodup := by
  induction pls generalizing t with
  | nil => exact ht
  | cons p pls ih =>
    have hp := hpls p List.mem_cons_self
    apply ih (h.place hp) (fun q hq => hpls q (List.mem_cons_of_mem p hq))
      (fun q hq => hnodup q (List.mem_cons_of_mem p hq))
    rcases h.entry_place p x with heq | ⟨-, s, heq⟩ | ⟨hpath, heq⟩
    · rwa [heq]
    · rw [heq]
      exact Entry.nodup_attributesOf_join ht (.inr List.nodup_nil)
    · rw [heq]
      exact Entry.nodup_attributesOf_join ht (.inr (hnodup p List.mem_cons_self hpath))

end Places

end Tree

/-! ## Where placements lie -/

/-- Below `outer`, and neither a root nor a package. -/
structure Placement.Inside (outer : List Symbol) (p : Placement) : Prop where
  outer : outer <+: p.outer
  ne_root : p.component.kind ≠ .root
  ne_package : p.component.kind ≠ .package

namespace Placement.Inside

theorem concat {outer : List Symbol} {s : Symbol} {p : Placement}
    (h : p.Inside (outer ++ [s])) : p.Inside outer :=
  ⟨(List.prefix_append _ _).trans h.outer, h.ne_root, h.ne_package⟩

/-- Placements of one kind at one place. -/
theorem of_mem_map {α : Type} {outer : List Symbol} {f : α → Component} {as : List α}
    {fallback : Bool} {p : Placement} (hp : p ∈ as.map fun a => ⟨outer, f a, fallback⟩)
    (hroot : ∀ a ∈ as, (f a).symbol.kind ≠ .root)
    (hpackage : ∀ a ∈ as, (f a).symbol.kind ≠ .package) : p.Inside outer := by
  obtain ⟨a, ha, rfl⟩ := List.mem_map.1 hp
  exact ⟨List.prefix_rfl, hroot a ha, hpackage a ha⟩

end Placement.Inside

open SymbolTable.Placement (Inside)

section Syntax

variable {file : Option Attribute}

theorem TypeHeader.inside_closing {h : TypeHeader} {here : List Symbol} :
    ∀ p ∈ h.closing here, p.Inside here := by
  intro p hp
  have hdefault : p = ⟨here, defaultConstructor h.name, true⟩ := by
    unfold TypeHeader.closing at hp
    split at hp
    · exact List.mem_singleton.1 hp
    · exact List.mem_singleton.1 hp
    · exact absurd hp List.not_mem_nil
    · exact absurd hp List.not_mem_nil
  rw [hdefault]
  exact ⟨List.prefix_rfl, nofun, nofun⟩

theorem inside_typeParameters {here : List Symbol} {ps : List TypeParameterDecl} :
    ∀ p ∈ ps.map fun p => (⟨here, typeParameterComponent p, false⟩ : Placement),
      p.Inside here := by
  intro p hp
  refine Inside.of_mem_map hp ?_ ?_ <;> intro a _ <;> rw [symbol_typeParameterComponent] <;> nofun

theorem inside_constant {outer : List Symbol} {h : ConstantHeader} {body : List Placement}
    (hbody : ∀ p ∈ body, p.Inside (outer ++ [(Scope.constantComponent h).symbol])) :
    ∀ p ∈ (⟨outer, Scope.constantComponent h, false⟩ : Placement) :: (body ++
        [⟨outer ++ [(Scope.constantComponent h).symbol], defaultConstructor h.name, true⟩]),
      p.Inside outer := by
  intro p hp
  have hkind := Scope.kind_constantComponent h
  rw [List.mem_cons, List.mem_append, List.mem_singleton] at hp
  rcases hp with rfl | hp | rfl
  · exact ⟨List.prefix_rfl, hkind ▸ nofun, hkind ▸ nofun⟩
  · exact (hbody p hp).concat
  · exact ⟨List.prefix_append _ _, nofun, nofun⟩

mutual
theorem TypeDecl.inside {outer : List Symbol} {imports : List Component}
    (himports : ∀ i ∈ imports, i.kind ≠ .root ∧ i.kind ≠ .package) :
    ∀ d : TypeDecl, ∀ p ∈ d.placements file outer imports, p.Inside outer
  | .mk h members, p, hp => by
    rw [TypeDecl.placements, List.mem_cons, List.mem_append, List.mem_append, List.mem_append] at hp
    have hkind : (h.component file).kind = h.kind.componentKind := Scope.kind_typeComponent _ h
    obtain ⟨hroot, hpackage⟩ := Scope.kind_ne_of_typeKind h.kind
    rcases hp with rfl | ((hp | hp) | hp) | hp
    · exact ⟨List.prefix_rfl, hkind ▸ hroot, hkind ▸ hpackage⟩
    · exact (Inside.of_mem_map hp (fun i hi => (himports i hi).1)
        fun i hi => (himports i hi).2).concat
    · exact (inside_typeParameters p hp).concat
    · exact (Member.insideList members p hp).concat
    · exact (TypeHeader.inside_closing p hp).concat

theorem TypeDecl.insideList {outer : List Symbol} {imports : List Component}
    (himports : ∀ i ∈ imports, i.kind ≠ .root ∧ i.kind ≠ .package) :
    ∀ ds : List TypeDecl, ∀ p ∈ TypeDecl.placementsOfList file outer imports ds, p.Inside outer
  | [], p, hp => by
    rw [TypeDecl.placementsOfList] at hp
    exact absurd hp List.not_mem_nil
  | d :: rest, p, hp => by
    rw [TypeDecl.placementsOfList, List.mem_append] at hp
    rcases hp with hp | hp
    · exact TypeDecl.inside himports d p hp
    · exact TypeDecl.insideList himports rest p hp

theorem Member.inside {outer : List Symbol} :
    ∀ m : Member, ∀ p ∈ m.placements file outer, p.Inside outer
  | .type d, p, hp => by
    rw [Member.placements] at hp
    exact TypeDecl.inside (fun _ hi => absurd hi List.not_mem_nil) d p hp
  | .constructor d, p, hp => by
    rw [Member.placements] at hp
    exact CallableDecl.inside .constructor nofun nofun d p hp
  | .method d, p, hp => by
    rw [Member.placements] at hp
    exact CallableDecl.inside .method nofun nofun d p hp
  | .field f, p, hp => by
    rw [Member.placements] at hp
    refine Inside.of_mem_map hp ?_ ?_ <;> intro a _ <;> rw [Scope.symbol_fieldComponent] <;> nofun
  | .enumConstant d, p, hp => by
    rw [Member.placements] at hp
    exact ConstantDecl.inside d p hp

theorem Member.insideList {outer : List Symbol} :
    ∀ ms : List Member, ∀ p ∈ Member.placementsOfList file outer ms, p.Inside outer
  | [], p, hp => by
    rw [Member.placementsOfList] at hp
    exact absurd hp List.not_mem_nil
  | m :: rest, p, hp => by
    rw [Member.placementsOfList, List.mem_append] at hp
    rcases hp with hp | hp
    · exact Member.inside m p hp
    · exact Member.insideList rest p hp

theorem CallableDecl.inside {outer : List Symbol} (kind : ComponentKind) (hroot : kind ≠ .root)
    (hpackage : kind ≠ .package) :
    ∀ d : CallableDecl, ∀ p ∈ d.placements file outer kind, p.Inside outer
  | .mk h localTypes, p, hp => by
    rw [CallableDecl.placements, List.mem_cons, List.mem_append, List.mem_append] at hp
    have hkind := Scope.kind_callableComponent kind h
    rcases hp with rfl | (hp | hp) | hp
    · exact ⟨List.prefix_rfl, by rwa [hkind], by rwa [hkind]⟩
    · exact (inside_typeParameters p hp).concat
    · refine (Inside.of_mem_map hp ?_ ?_).concat <;> intro a _ <;>
        rw [Scope.symbol_parameterComponent] <;> nofun
    · exact (TypeDecl.insideList (fun _ hi => absurd hi List.not_mem_nil) localTypes p hp).concat

theorem ConstantDecl.inside {outer : List Symbol} :
    ∀ d : ConstantDecl, ∀ p ∈ d.placements file outer, p.Inside outer
  | .mk h none, p, hp => by
    rw [ConstantDecl.placements] at hp
    have hnone : ∀ p ∈ ([] : List Placement),
        p.Inside (outer ++ [(Scope.constantComponent h).symbol]) :=
      fun _ hp => absurd hp List.not_mem_nil
    exact inside_constant hnone p hp
  | .mk h (some body), p, hp => by
    rw [ConstantDecl.placements] at hp
    exact inside_constant (Member.insideList body) p hp
end

end Syntax

/-! ## The skeleton -/

theorem package_of_mem_packagePlacements (outer : List Symbol) (names : List String) :
    ∀ p ∈ packagePlacements outer names, p.component.kind = .package ∧
      p.path <+: outer ++ names.map packageSymbol ∧ p.component.attributes = [] := by
  induction names generalizing outer with
  | nil => exact fun _ hp => absurd hp List.not_mem_nil
  | cons name names ih =>
    intro p hp
    rw [packagePlacements, List.mem_cons] at hp
    rw [List.map_cons, List.append_cons]
    rcases hp with rfl | hp
    · exact ⟨rfl, List.prefix_append _ _, rfl⟩
    · exact ih _ p hp

namespace CompilationUnit

/-- The tree of the declaration phase. -/
def skeleton (naming : Naming) (u : CompilationUnit) : Tree :=
  (({} : Scope).build { naming } .declaration u).1

variable (naming : Naming) (u : CompilationUnit)

theorem skeleton_eq : u.skeleton naming = (u.placements naming).foldl Tree.place .empty :=
  (u.builds_placements {} { naming }).tree

theorem grown_skeleton : (u.skeleton naming).Grown := (u.builds_placements {} { naming }).grown

theorem build_declaration (s : Scope) (app : Application) :
    (s.build app .declaration u).1 = u.skeleton app.naming :=
  (u.builds_placements s app).tree.trans (u.skeleton_eq app.naming).symm

theorem alike_skeleton (s : Scope) (app : Application) (phase : Phase) :
    (u.skeleton app.naming).Alike (s.build app phase u).1 := by
  have hnaming : app.naming = ({ naming := app.naming } : Application).naming := rfl
  exact Scope.alike_build hnaming phase {} s u

theorem package_of_mem : ∀ p ∈ u.packagePlacements naming, p.component.kind = .package ∧
    p.path <+: u.packagePath naming ∧ p.component.attributes.Nodup := by
  intro p hp
  unfold packagePlacements at hp
  unfold packagePath
  split at hp
  · obtain ⟨hkind, hpath, hnil⟩ := package_of_mem_packagePlacements [] _ p hp
    exact ⟨hkind, hpath, hnil ▸ List.nodup_nil⟩
  · split at hp
    · exact absurd hp List.not_mem_nil
    · obtain rfl := List.mem_singleton.1 hp
      exact ⟨rfl, List.prefix_rfl, List.nodup_singleton _⟩

/-- A placement of a unit is one of its packages or lies below the last of them. -/
theorem placement_cases {p : Placement} (hp : p ∈ u.placements naming) :
    p ∈ u.packagePlacements naming ∨ p.Inside (u.packagePath naming) := by
  rcases List.mem_append.1 hp with hp | hp
  · exact .inl hp
  · refine .inr (TypeDecl.insideList ?_ u.types p hp)
    intro i hi
    obtain ⟨kind, hkind⟩ := u.kind_listedImports naming i hi
    exact ⟨hkind ▸ nofun, hkind ▸ nofun⟩

theorem kind_placements : ∀ p ∈ u.placements naming, p.component.kind ≠ .root := by
  intro p hp
  rcases u.placement_cases naming hp with hp | hp
  · rw [(u.package_of_mem naming p hp).1]
    nofun
  · exact hp.ne_root

theorem entry_empty (s : Symbol) (y : List Symbol) : Tree.empty.entry (y ++ [s]) = none := by
  have hnone : Tree.empty.follow root (y ++ [s]) = none := by
    rw [← Option.not_isSome_iff_eq_none]
    intro h
    obtain ⟨id, hid⟩ := Option.isSome_iff_exists.1 h
    rw [Tree.follow_concat] at hid
    obtain ⟨p, -, hp⟩ := Option.bind_eq_some_iff.1 hid
    simpa using Tree.mem_children_of_childWith hp
  rw [Tree.entry, Tree.entryFrom, hnone]
  rfl

theorem attributesOf_empty (x : List Symbol) :
    Tree.Entry.attributesOf (Tree.empty.entry x) = [] := by
  rcases List.eq_nil_or_concat' x with rfl | ⟨y, s, rfl⟩
  · rfl
  · rw [entry_empty]
    rfl

variable {u naming} {y : List Symbol} {s : Symbol}

/-- What is at a path of the skeleton was placed there. -/
theorem placement_of_isSome (h : ((u.skeleton naming).entry (y ++ [s])).isSome) :
    ∃ p ∈ u.placements naming, p.path = y ++ [s] := by
  rw [skeleton_eq] at h
  rcases Tree.isSome_entry_places Tree.grown_empty (u.kind_placements naming) h with h | ⟨p, hp, hx⟩
  · rw [entry_empty] at h
    cases h
  · exact ⟨p, hp, hx.symm⟩

theorem path_inj {p : Placement} (h : p.path = y ++ [s]) :
    p.outer = y ∧ p.component.kind = s.kind := by
  obtain ⟨houter, hsymbol⟩ := List.append_inj' h rfl
  exact ⟨houter, congrArg Symbol.kind (List.singleton_inj.1 hsymbol)⟩

theorem package_prefix (h : ((u.skeleton naming).entry (y ++ [s])).isSome)
    (hs : s.kind = .package) : y ++ [s] <+: u.packagePath naming := by
  obtain ⟨p, hp, hpath⟩ := placement_of_isSome h
  obtain ⟨-, hkind⟩ := path_inj hpath
  rcases u.placement_cases naming hp with hp | hp
  · rw [← hpath]
    exact (u.package_of_mem naming p hp).2.1
  · exact absurd (hkind.trans hs) hp.ne_package

theorem prefix_of_ne_package (h : ((u.skeleton naming).entry (y ++ [s])).isSome)
    (hs : s.kind ≠ .package) : u.packagePath naming <+: y := by
  obtain ⟨p, hp, hpath⟩ := placement_of_isSome h
  obtain ⟨houter, hkind⟩ := path_inj hpath
  rcases u.placement_cases naming hp with hp | hp
  · exact absurd (hkind.symm.trans (u.package_of_mem naming p hp).1) hs
  · exact houter ▸ hp.outer

/-- In one unit a package has no sibling. -/
theorem eq_of_package {s' : Symbol} (h : ((u.skeleton naming).entry (y ++ [s])).isSome)
    (h' : ((u.skeleton naming).entry (y ++ [s'])).isSome) (hs : s.kind = .package) : s' = s := by
  have hpackage := package_prefix h hs
  by_cases hs' : s'.kind = .package
  · exact concat_prefix_inj hpackage ( package_prefix h' hs')
  · have hlong := (hpackage.trans (prefix_of_ne_package h' hs')).length_le
    exact absurd hlong (by simp)

theorem nodup_attributes_package (hs : s.kind = .package) :
    (Tree.Entry.attributesOf ((u.skeleton naming).entry (y ++ [s]))).Nodup := by
  rw [skeleton_eq]
  apply Tree.nodup_attributes_places Tree.grown_empty (u.kind_placements naming)
  · intro p hp hpath
    obtain ⟨-, hkind⟩ := path_inj hpath.symm
    rcases u.placement_cases naming hp with hp | hp
    · exact (u.package_of_mem naming p hp).2.2
    · exact absurd (hkind.trans hs) hp.ne_package
  · rw [attributesOf_empty]
    exact List.nodup_nil

theorem attributes_root : Tree.Entry.attributesOf ((u.skeleton naming).entry []) = [] := by
  rw [List.eq_nil_iff_forall_not_mem]
  intro a ha
  rw [skeleton_eq] at ha
  rcases Tree.mem_attributes_places Tree.grown_empty (u.kind_placements naming) ha with
    ha | ⟨p, -, hpath, -⟩
  · exact absurd ha List.not_mem_nil
  · exact absurd hpath.symm (List.append_ne_nil_of_right_ne_nil _ (List.cons_ne_nil _ _))

end CompilationUnit

end SymbolTable
