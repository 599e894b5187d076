import SymbolTable.Proofs.Analysis.Session
import SymbolTable.Proofs.Tree.Union

/-!
# Merging a file again

The tree of a file is acyclic and has no equal siblings, from whatever state of the analysis it was
built. An application that merged such a tree once is left as it is when it merges the tree again,
however much it merged in between and whatever siblings it holds itself.
-/

namespace SymbolTable

open SymbolTable.Tree (root)

/-- Merging any trees, root to root, keeps a tree linked and what it has. -/
theorem Tree.linked_mergeAll {t : Tree} (h : t.Linked) (hroot : root < t.size)
    (others : List Tree) : (t.mergeAll others).Linked ∧ t.Extends (t.mergeAll others) := by
  apply List.foldlRecOn (motive := fun acc => acc.Linked ∧ t.Extends acc) _ _ ⟨h, Extends.refl t⟩
  rintro acc ⟨hacc, hgrowth⟩ other -
  obtain ⟨hlinked, hmore⟩ := linked_mergeAt other root hacc (hgrowth.lt hroot)
  exact ⟨hlinked, hgrowth.trans hmore⟩

theorem Tree.merge_mergeAll_merge {t source : Tree} (h : t.Linked) (hroot : root < t.size)
    (hacyclic : source.Acyclic) (hs : source.HasUniqueSiblings) (others : List Tree) :
    ((t.merge source).mergeAll others).merge source = (t.merge source).mergeAll others := by
  obtain ⟨hlinked, hext⟩ := linked_mergeAt source root h hroot
  have hroot' : root < (t.merge source).size := hext.lt hroot
  obtain ⟨hlinked', hext'⟩ := linked_mergeAll hlinked hroot' others
  exact mergeAt_eq_self hacyclic hs root hlinked' (hext'.lt hroot')
    ((absorbs_mergeAt hacyclic hs root h hroot).extends hlinked hroot' hext')

theorem Application.foldl_merge (app : Application) (others : List Tree) :
    others.foldl Application.merge app =
      { app with components := app.components.mergeAll others } := by
  induction others generalizing app with
  | nil => rfl
  | cons other others ih => exact ih (app.merge other)

theorem Scope.grown_build (s : Scope) (app : Application) (phase : Phase) (u : CompilationUnit) :
    (s.build app phase u).1.Grown :=
  (u.grown_skeleton app.naming).of_sameShape (u.alike_skeleton s app phase).sameShape

/-- Merging an acyclic tree without equal siblings a second time changes nothing, and all trees of
files are such trees. -/
theorem merge_again_eq :
    (∀ (app : Application) (source : Tree) (others : List Tree),
      app.components.isConsistent = true → source.Acyclic → source.HasUniqueSiblings →
      (others.foldl Application.merge (app.merge source)).merge source =
        others.foldl Application.merge (app.merge source)) ∧
    ∀ (s : Scope) (app : Application) (phase : Phase) (u : CompilationUnit),
      (s.build app phase u).1.Acyclic ∧ (s.build app phase u).1.HasUniqueSiblings := by
  constructor
  · intro app source others hconsistent hacyclic hs
    obtain ⟨hroot, -, -, hlinked⟩ := Tree.isConsistent_iff.1 hconsistent
    rw [Application.foldl_merge, Application.merge, Application.merge,
      Tree.merge_mergeAll_merge hlinked hroot hacyclic hs]
  · intro s app phase u
    exact ⟨(s.grown_build app phase u).acyclic, (s.grown_build app phase u).uniqueSiblings⟩

/-- A program that lists the package `p` twice. -/
def doubledApplication (naming : Naming) : Application :=
  { naming
    components :=
      (Tree.empty.add root { kind := .package, value := "p" }).add root
        { kind := .package, value := "p" } }

/-- Only the first of two equal packages is filled, and it stays filled. -/
theorem merge_again_doubled :
    (doubledApplication default).components.isConsistent = true ∧
    ¬ (doubledApplication default).components.HasUniqueSiblings ∧
    (Tree.packageWith ["A"]).Acyclic ∧ (Tree.packageWith ["A"]).HasUniqueSiblings ∧
    (([Tree.packageWith ["B"]].foldl Application.merge
      ((doubledApplication default).merge (Tree.packageWith ["A"]))).merge
        (Tree.packageWith ["A"])) =
      [Tree.packageWith ["B"]].foldl Application.merge
        ((doubledApplication default).merge (Tree.packageWith ["A"])) := by
  have hconsistent : (doubledApplication default).components.isConsistent = true := by decide
  have hA := Tree.grown_packageWith ["A"]
  have hdoubled : ¬ (doubledApplication default).components.HasUniqueSiblings :=
    fun h => absurd (h root) (by decide)
  exact ⟨hconsistent, hdoubled, hA.acyclic, hA.uniqueSiblings,
    merge_again_eq.1 _ _ _ hconsistent hA.acyclic hA.uniqueSiblings⟩

end SymbolTable
