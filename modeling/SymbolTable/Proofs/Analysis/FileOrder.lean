import SymbolTable.Proofs.Analysis.Concordance
import SymbolTable.Proofs.Analysis.Session
import SymbolTable.Proofs.Tree.Outline

/-!
# The order of the files

Units that share nothing but packages and never spell two components alike have one symbol table,
whatever their order. Siblings that a lookup has to choose between come from one unit then, and
merging keeps the members of one unit in order. So the declared applications are in concordance,
every unit has the same tree in both, and merging these trees gives the same content.
-/

namespace SymbolTable

open SymbolTable.Tree (root)
open SymbolTable.Tree.Entry (attributesOf membersOf)

/-- The nodes of a unit other than its root. -/
def CompilationUnit.nodes (naming : Naming) (u : CompilationUnit) : List NodeId :=
  (List.range (u.skeleton naming).size).filter (· ≠ root)

/-- Different units share packages only, and the coordinates of their components tell the components
apart. -/
structure Compatible (naming : Naming) (units : List CompilationUnit) : Prop where
  shared : ∀ u ∈ units, ∀ v ∈ units, u ≠ v → ∀ i ∈ u.nodes naming, ∀ j ∈ v.nodes naming,
    (u.skeleton naming).identityPath i = (v.skeleton naming).identityPath j →
    ((u.skeleton naming).node i).kind = .package
  coordinates : ∀ u ∈ units, ∀ v ∈ units, u ≠ v → ∀ i ∈ u.nodes naming, ∀ j ∈ v.nodes naming,
    (u.skeleton naming).coordinate i naming.delimiter =
      (v.skeleton naming).coordinate j naming.delimiter →
    (u.skeleton naming).identityPath i = (v.skeleton naming).identityPath j

theorem CompilationUnit.exists_node {naming : Naming} {u : CompilationUnit} {y : List Symbol}
    {s : Symbol} (h : ((u.skeleton naming).entry (y ++ [s])).isSome) :
    ∃ i ∈ u.nodes naming, (u.skeleton naming).identityPath i = y ++ [s] ∧
      ((u.skeleton naming).node i).symbol = s := by
  have hgrown := u.grown_skeleton naming
  obtain ⟨i, hi⟩ := Tree.isSome_entry_iff.1 h
  have hpath := hgrown.identityPath_of_follow hi
  have hroot : i ≠ root := by
    rintro rfl
    rw [hgrown.identityPath_root] at hpath
    exact absurd hpath.symm (List.append_ne_nil_of_right_ne_nil y (List.cons_ne_nil s []))
  refine ⟨i, ?_, hpath, Tree.symbol_of_follow_concat hi⟩
  rw [nodes, List.mem_filter, List.mem_range]
  exact ⟨hgrown.follow_lt hgrown.root_lt hi, decide_eq_true hroot⟩

namespace Compatible

variable {naming : Naming} {units : List CompilationUnit} (hc : Compatible naming units)
  {u v : CompilationUnit} {y : List Symbol} {s : Symbol}
include hc

theorem entry_eq_none (hu : u ∈ units) (hv : v ∈ units) (hne : v ≠ u)
    (h : ((u.skeleton naming).entry (y ++ [s])).isSome) (hs : s.kind ≠ .package) :
    (v.skeleton naming).entry (y ++ [s]) = none := by
  rw [← Option.not_isSome_iff_eq_none]
  intro hv'
  obtain ⟨i, hi, hpath, hsymbol⟩ := CompilationUnit.exists_node h
  obtain ⟨j, hj, hpath', -⟩ := CompilationUnit.exists_node hv'
  have hkind := hc.shared u hu v hv hne.symm i hi j hj (hpath.trans hpath'.symm)
  exact hs (hsymbol ▸ hkind)

theorem path_eq (hu : u ∈ units) (hv : v ∈ units) (hne : u ≠ v) {x x' : List Symbol}
    (hx : x ≠ []) (hx' : x' ≠ []) (h : ((u.skeleton naming).entry x).isSome)
    (h' : ((v.skeleton naming).entry x').isSome)
    (hspell : spell naming.delimiter.toList x = spell naming.delimiter.toList x') : x = x' := by
  obtain ⟨y, s, rfl⟩ := (List.eq_nil_or_concat' x).resolve_left hx
  obtain ⟨y', s', rfl⟩ := (List.eq_nil_or_concat' x').resolve_left hx'
  obtain ⟨i, hi, hpath, -⟩ := CompilationUnit.exists_node h
  obtain ⟨j, hj, hpath', -⟩ := CompilationUnit.exists_node h'
  rw [← hpath, ← hpath', ← Tree.coordinate_toList, ← Tree.coordinate_toList] at hspell
  have heq := hc.coordinates u hu v hv hne i hi j hj (String.toList_inj.1 hspell)
  rw [← hpath, ← hpath', heq]

/-- Siblings that lead to one coordinate come from one unit, and none of them is a package. -/
theorem rivals (hu : u ∈ units) (hv : v ∈ units) {s' : Symbol} (hne : s ≠ s')
    {rest rest' : List Symbol} (h : ((u.skeleton naming).entry (y ++ s :: rest)).isSome)
    (h' : ((v.skeleton naming).entry (y ++ s' :: rest')).isSome)
    (hspell : spell naming.delimiter.toList (y ++ s :: rest) =
      spell naming.delimiter.toList (y ++ s' :: rest')) :
    u = v ∧ s.kind ≠ .package := by
  have hsame : u = v := by
    by_contra huv
    have heq := hc.path_eq hu hv huv (by simp) (by simp) h h' hspell
    exact hne (List.cons.inj (List.append_cancel_left heq)).1
  refine ⟨hsame, fun hs => hne ?_⟩
  rw [← hsame, List.append_cons] at h'
  rw [List.append_cons] at h
  exact (CompilationUnit.eq_of_package (Tree.isSome_entry_of_append h)
    (Tree.isSome_entry_of_append h') hs).symm

end Compatible

/-! ## Merged skeletons -/

/-- The tree after the declaration phase. -/
def mergedSkeletons (naming : Naming) (units : List CompilationUnit) : Tree :=
  Tree.empty.mergeAll (units.map (·.skeleton naming))

theorem isSome_entry_mergedSkeletons {naming : Naming} {units : List CompilationUnit}
    {x : List Symbol} (hx : x ≠ []) :
    ((mergedSkeletons naming units).entry x).isSome ↔
      ∃ u ∈ units, ((u.skeleton naming).entry x).isSome := by
  obtain ⟨y, s, rfl⟩ := (List.eq_nil_or_concat' x).resolve_left hx
  exact isSome_entry_skeletons naming units y s

namespace Compatible

variable {naming : Naming} {units units' : List CompilationUnit} (hc : Compatible naming units)
  {path : List Symbol} {candidate : Symbol → Bool} {text : List Char}
include hc

/-- With two candidates for one coordinate, all candidates are members of one unit. -/
theorem sole_of_rivals
    (hcandidate : ∀ s ∈ membersOf ((mergedSkeletons naming units).entry path), candidate s →
      ∃ rest, ((mergedSkeletons naming units).entry (path ++ s :: rest)).isSome ∧
        spell naming.delimiter.toList (path ++ s :: rest) = text)
    {s s' : Symbol} (hs : s ∈ membersOf ((mergedSkeletons naming units).entry path))
    (hs' : s' ∈ membersOf ((mergedSkeletons naming units).entry path))
    (hfits : candidate s) (hfits' : candidate s') (hne : s ≠ s') :
    ∃ u ∈ units, ∀ v ∈ units, v ≠ u →
      (membersOf ((v.skeleton naming).entry path)).filter candidate = [] := by
  have howner : ∀ r ∈ membersOf ((mergedSkeletons naming units).entry path), candidate r →
      ∃ u ∈ units, ∃ rest, ((u.skeleton naming).entry (path ++ r :: rest)).isSome ∧
        spell naming.delimiter.toList (path ++ r :: rest) = text := by
    intro r hr hfits
    obtain ⟨rest, hsome, hspell⟩ := hcandidate r hr hfits
    obtain ⟨u, hu, hself⟩ := (isSome_entry_mergedSkeletons (by simp)).1 hsome
    exact ⟨u, hu, rest, hself, hspell⟩
  obtain ⟨u, hu, rest, hself, hspell⟩ := howner s hs hfits
  obtain ⟨u', hu', rest', hself', hspell'⟩ := howner s' hs' hfits'
  obtain ⟨rfl, -⟩ := hc.rivals hu hu' hne hself hself' (hspell.trans hspell'.symm)
  refine ⟨u, hu, fun v hv hvu => ?_⟩
  rw [List.filter_eq_nil_iff]
  intro r hr hfitsr
  rw [Tree.mem_membersOf_entry] at hr
  have hmem : r ∈ membersOf ((mergedSkeletons naming units).entry path) := by
    rw [Tree.mem_membersOf_entry, isSome_entry_mergedSkeletons (by simp)]
    exact ⟨v, hv, hr⟩
  obtain ⟨w, hw, restr, hselfr, hspellr⟩ := howner r hmem hfitsr
  -- At least one of the two rivals is not `r`.
  have hown : w = u ∧ r.kind ≠ .package := by
    by_cases hrs : r = s
    · exact hc.rivals hw hu' (hrs ▸ hne) hselfr hself' (hspellr.trans hspell'.symm)
    · exact hc.rivals hw hu hrs hselfr hself (hspellr.trans hspell.symm)
  obtain ⟨rfl, hkind⟩ := hown
  rw [List.append_cons] at hselfr
  rw [hc.entry_eq_none hw hv hvu (Tree.isSome_entry_of_append hselfr) hkind] at hr
  cases hr

theorem order (hperm : units'.Perm units)
    (hcandidate : ∀ s ∈ membersOf ((mergedSkeletons naming units).entry path), candidate s →
      ∃ rest, ((mergedSkeletons naming units).entry (path ++ s :: rest)).isSome ∧
        spell naming.delimiter.toList (path ++ s :: rest) = text) :
    (membersOf ((mergedSkeletons naming units').entry path)).filter candidate =
      (membersOf ((mergedSkeletons naming units).entry path)).filter candidate := by
  have hgrown := grown_skeletons naming units
  have hgrown' := grown_skeletons naming units'
  by_cases hone : ∀ s ∈ membersOf ((mergedSkeletons naming units).entry path), candidate s →
      ∀ s' ∈ membersOf ((mergedSkeletons naming units).entry path), candidate s' → s = s'
  · have hmem : ∀ s, s ∈ membersOf ((mergedSkeletons naming units').entry path) ↔
        s ∈ membersOf ((mergedSkeletons naming units).entry path) := by
      intro s
      rw [Tree.mem_membersOf_entry, Tree.mem_membersOf_entry,
        isSome_entry_mergedSkeletons (by simp), isSome_entry_mergedSkeletons (by simp)]
      simp only [hperm.mem_iff]
    have hnodup := (Tree.grown_mergeAll Tree.grown_empty hgrown).nodup_membersOf path
    have hnodup' := (Tree.grown_mergeAll Tree.grown_empty hgrown').nodup_membersOf path
    have hperm := ((List.perm_ext_iff_of_nodup hnodup' hnodup).2 hmem).filter candidate
    have hany : ∀ l : List Symbol, l.Pairwise fun _ _ => True :=
      fun _ => List.pairwise_of_forall fun _ _ => trivial
    refine hperm.eq_of_pairwise (fun a b ha hb _ _ => ?_) (hany _) (hany _)
    obtain ⟨ha, hfits⟩ := List.mem_filter.1 (hperm.mem_iff.1 ha)
    obtain ⟨hb, hfits'⟩ := List.mem_filter.1 hb
    exact hone a ha hfits b hb hfits'
  · push Not at hone
    obtain ⟨s, hs, hfits, s', hs', hfits', hne⟩ := hone
    obtain ⟨u, hu, hsole⟩ := hc.sole_of_rivals hcandidate hs hs' hfits hfits' hne
    rw [mergedSkeletons, mergedSkeletons,
      Tree.filter_membersOf_mergeAll_of_sole Tree.grown_empty (fun v _ => v.grown_skeleton naming) hu
        hsole,
      Tree.filter_membersOf_mergeAll_of_sole Tree.grown_empty (fun v _ => v.grown_skeleton naming)
        (hperm.mem_iff.2 hu) fun v hv => hsole v (hperm.mem_iff.1 hv)]

theorem concordant (hperm : units'.Perm units) :
    (mergedSkeletons naming units).Concordant naming.delimiter (mergedSkeletons naming units') where
  grown := Tree.grown_mergeAll Tree.grown_empty (grown_skeletons naming units)
  grown' := Tree.grown_mergeAll Tree.grown_empty (grown_skeletons naming units')
  symbol_root := by
    rw [mergedSkeletons, mergedSkeletons,
      Tree.symbol_root_mergeAll Tree.grown_empty (grown_skeletons naming units),
      Tree.symbol_root_mergeAll Tree.grown_empty (grown_skeletons naming units')]
  isSome := Tree.isSome_entry_mergeAll_of_perm Tree.grown_empty (grown_skeletons naming units)
    (hperm.map _)
  marked _ := Tree.mem_attributesOf_mergeAll_of_perm Tree.grown_empty
    (grown_skeletons naming units) (hperm.map _)
  order _ _ _ := hc.order hperm

end Compatible

/-! ## The run -/

section Run

variable {naming : Naming} (libraries : List Library) {units units' : List CompilationUnit}

theorem Compatible.corresponds_declaredApplication (hc : Compatible naming units)
    (hperm : units'.Perm units) :
    (declaredApplication naming libraries units).Corresponds
      (declaredApplication naming libraries units') := by
  have hprogram := (hc.concordant hperm).corresponds
  obtain ⟨hnaming, -⟩ := Analyzer.withLibraries_application naming libraries
  rw [declaredApplication_eq, declaredApplication_eq]
  refine ⟨rfl, rfl, ?_⟩
  rw [hnaming]
  exact hprogram

/-- A unit has one tree, whatever the order of the others. -/
theorem Compatible.treeOf_eq (hc : Compatible naming units) (hperm : units'.Perm units)
    (phase : Phase) :
    (declaredApplication naming libraries units').treeOf phase =
      (declaredApplication naming libraries units).treeOf phase :=
  funext fun u => (hc.corresponds_declaredApplication libraries hperm).build_eq phase {} {} u

variable {x : List Symbol}

/-- What one unit alone declares comes from its two trees. -/
theorem entry_analyze_of_sole {u : CompilationUnit} (hu : u ∈ units)
    (hsole : ∀ v ∈ units, v ≠ u → (v.skeleton naming).entry x = none) :
    (analyze naming libraries units).1.components.entry x =
      Tree.Entry.join (Tree.Entry.join (Tree.empty.entry x) ((u.skeleton naming).entry x))
        (((declaredApplication naming libraries units).treeOf .structural u).entry x) := by
  have hgrown := grown_skeletons naming units
  have hstructural : ∀ v ∈ units, v ≠ u →
      ((declaredApplication naming libraries units).treeOf .structural v).entry x = none := by
    intro v hv hne
    have halike := (declaredApplication naming libraries units).alike_treeOf .structural v
    rw [declaredApplication_naming] at halike
    rw [← Option.not_isSome_iff_eq_none, halike.isSome_entry, hsole v hv hne]
    nofun
  rw [(analyze_spec naming libraries units).2, Tree.mergeAll_append,
    Tree.entry_mergeAll_of_sole (Tree.grown_mergeAll Tree.grown_empty hgrown)
      (fun v _ => Application.grown_treeOf _ _ v) hu hstructural,
    Tree.entry_mergeAll_of_sole Tree.grown_empty (fun v _ => v.grown_skeleton naming) hu hsole]

/-- A node that all units list without repetition has its attributes listed once. -/
theorem nodup_attributesOf_analyze
    (hskeletons : ∀ u ∈ units, (attributesOf ((u.skeleton naming).entry x)).Nodup) :
    (attributesOf ((analyze naming libraries units).1.components.entry x)).Nodup := by
  have hgrown := grown_skeletons naming units
  have htrees : ∀ s ∈ units.map ((declaredApplication naming libraries units).treeOf .structural),
      s.Grown := List.forall_mem_map.2 fun v _ => Application.grown_treeOf _ _ v
  rw [(analyze_spec naming libraries units).2, Tree.mergeAll_append]
  apply Tree.nodup_attributesOf_mergeAll (Tree.grown_mergeAll Tree.grown_empty hgrown) htrees
  · apply Tree.nodup_attributesOf_mergeAll Tree.grown_empty hgrown
      (CompilationUnit.attributesOf_empty x ▸ List.nodup_nil)
    exact List.forall_mem_map.2 fun u hu => .inr (hskeletons u hu)
  · refine List.forall_mem_map.2 fun u hu => ?_
    have halike := (declaredApplication naming libraries units).alike_treeOf .structural u
    rw [declaredApplication_naming] at halike
    cases hsome : ((declaredApplication naming libraries units).treeOf .structural u).entry x with
    | none => exact .inr List.nodup_nil
    | some e =>
      have hdeclared : ((u.skeleton naming).entry x).isSome := by
        rw [← halike.isSome_entry, hsome]
        rfl
      exact .inl ((Tree.isSome_entry_mergeAll Tree.grown_empty hgrown).2
        (.inr ⟨_, List.mem_map_of_mem hu, hdeclared⟩))

/-- A path belongs to one unit, or it is the root or a package, which list their attributes once. -/
theorem Compatible.sole_or_nodup (hc : Compatible naming units) (x : List Symbol) :
    (∃ u ∈ units, ∀ v ∈ units, v ≠ u → (v.skeleton naming).entry x = none) ∨
      ∀ u ∈ units, (attributesOf ((u.skeleton naming).entry x)).Nodup := by
  rcases List.eq_nil_or_concat' x with rfl | ⟨y, s, rfl⟩
  · refine .inr fun u _ => ?_
    rw [CompilationUnit.attributes_root]
    exact List.nodup_nil
  · by_cases hs : s.kind = .package
    · exact .inr fun u _ => CompilationUnit.nodup_attributes_package hs
    · by_cases hdeclared : ∃ u ∈ units, ((u.skeleton naming).entry (y ++ [s])).isSome
      · obtain ⟨u, hu, hself⟩ := hdeclared
        exact .inl ⟨u, hu, fun v hv hne => hc.entry_eq_none hu hv hne hself hs⟩
      · refine .inr fun u hu => ?_
        rw [Option.not_isSome_iff_eq_none.1 fun hself => hdeclared ⟨u, hu, hself⟩]
        exact List.nodup_nil

theorem Compatible.sameContent_analyze (hc : Compatible naming units)
    (hperm : units'.Perm units) :
    (analyze naming libraries units).1.components.SameContent
      (analyze naming libraries units').1.components := by
  have hspec := (analyze_spec naming libraries units).2
  have hspec' := (analyze_spec naming libraries units').2
  rw [hc.treeOf_eq libraries hperm] at hspec'
  have hgrown : ∀ s ∈ units.map (·.skeleton naming) ++
      units.map ((declaredApplication naming libraries units).treeOf .structural), s.Grown := by
    intro s hs
    rcases List.mem_append.1 hs with hs | hs
    · exact grown_skeletons naming units s hs
    · obtain ⟨u, -, rfl⟩ := List.mem_map.1 hs
      exact Application.grown_treeOf _ _ u
  have htrees := (hperm.map (·.skeleton naming)).append
    (hperm.map ((declaredApplication naming libraries units).treeOf .structural))
  have hgrown' := fun s hs => hgrown s (htrees.mem_iff.1 hs)
  have hmem : ∀ {x a}, a ∈ attributesOf ((analyze naming libraries units').1.components.entry x) ↔
      a ∈ attributesOf ((analyze naming libraries units).1.components.entry x) := by
    intro x a
    rw [hspec, hspec']
    exact Tree.mem_attributesOf_mergeAll_of_perm Tree.grown_empty hgrown htrees
  have hisSome : ∀ x, ((analyze naming libraries units').1.components.entry x).isSome =
      ((analyze naming libraries units).1.components.entry x).isSome := by
    intro x
    rw [hspec, hspec']
    exact Tree.isSome_entry_mergeAll_of_perm Tree.grown_empty hgrown htrees x
  refine ⟨?_, hisSome, fun x => ?_⟩
  · rw [hspec, hspec', Tree.symbol_root_mergeAll Tree.grown_empty hgrown,
      Tree.symbol_root_mergeAll Tree.grown_empty hgrown']
  · -- A component of one unit only is built alike; one of several has no attribute twice.
    by_cases hsole : ∃ u ∈ units, ∀ v ∈ units, v ≠ u → (v.skeleton naming).entry x = none
    · obtain ⟨u, hu, hsole⟩ := hsole
      rw [entry_analyze_of_sole libraries hu hsole,
        entry_analyze_of_sole libraries (hperm.mem_iff.2 hu) fun v hv =>
          hsole v (hperm.mem_iff.1 hv),
        hc.treeOf_eq libraries hperm]
    · have hnodup := (hc.sole_or_nodup x).resolve_left hsole
      rw [List.perm_ext_iff_of_nodup
        (nodup_attributesOf_analyze libraries fun u hu => hnodup u (hperm.mem_iff.1 hu))
        (nodup_attributesOf_analyze libraries hnodup)]
      exact fun a => hmem

end Run

/-- Compatible units give one symbol table in every order: one outline, and at every path one
collection of attributes, the edges to other types among them. -/
theorem canonicalOutline_analyze_of_perm (naming : Naming) (libraries : List Library)
    {units units' : List CompilationUnit} (hc : Compatible naming units)
    (hperm : units'.Perm units) :
    (analyze naming libraries units').1.components.canonicalOutline =
        (analyze naming libraries units).1.components.canonicalOutline ∧
      ∀ x, (attributesOf ((analyze naming libraries units').1.components.entry x)).Perm
        (attributesOf ((analyze naming libraries units).1.components.entry x)) := by
  have hcontent := hc.sameContent_analyze libraries hperm
  have hgrown := fun units : List CompilationUnit =>
    (declares_declaredApplication naming libraries units).grown.of_sameShape
      (analyze_spec naming libraries units).1.alike.sameShape
  exact ⟨hcontent.canonicalOutline (hgrown units) (hgrown units'), hcontent.attributes⟩

theorem compatible_twoFiles : Compatible {} [baseUnit, derivedUnit] where
  shared := by
    intro u hu v hv hne
    simp only [List.mem_cons, List.not_mem_nil, or_false] at hu hv
    rcases hu with rfl | rfl <;> rcases hv with rfl | rfl
    · exact absurd rfl hne
    · decide +kernel
    · decide +kernel
    · exact absurd rfl hne
  coordinates := by
    intro u hu v hv hne
    simp only [List.mem_cons, List.not_mem_nil, or_false] at hu hv
    rcases hu with rfl | rfl <;> rcases hv with rfl | rfl
    · exact absurd rfl hne
    · decide +kernel
    · decide +kernel
    · exact absurd rfl hne

theorem canonicalOutline_analyze_twoFiles :
    Compatible {} [baseUnit, derivedUnit] ∧ [derivedUnit, baseUnit].Perm [baseUnit, derivedUnit] ∧
      (analyze {} [] [derivedUnit, baseUnit]).1.components.canonicalOutline =
        (analyze {} [] [baseUnit, derivedUnit]).1.components.canonicalOutline :=
  ⟨compatible_twoFiles, .swap _ _ _,
    (canonicalOutline_analyze_of_perm {} [] compatible_twoFiles (.swap _ _ _)).1⟩

end SymbolTable
