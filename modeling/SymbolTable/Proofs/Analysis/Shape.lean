import SymbolTable.Proofs.Analysis.Idempotence
import SymbolTable.Proofs.Tree.Attached

/-!
# The shape of an application

An application is built by registering libraries, naming revisions and running passes, in any order
and any number of times. Of these only a pass touches the tree, and it does so by merging trees of
files, which are grown whatever the application looked like when they were built. So the tree of the
application is grown at each moment, and a grown tree has the shape that callers rely on.
-/

namespace SymbolTable

open SymbolTable.Tree (root)

/-! ## Well-shaped trees -/

/-- The tree passes its check, has one root from which all nodes are reached, lists every other node
once, below its parent, and has no equal siblings. -/
structure Tree.WellShaped (t : Tree) : Prop where
  consistent : t.isConsistent = true
  kind_eq_root : ∀ id < t.size, (t.node id).kind = .root ↔ id = root
  reachable : ∀ id < t.size, id = root ∨ t.Below root id
  listed : ∀ id < t.size, id ≠ root → ∃ p, t.parent id = some p ∧
    ∀ above, (t.children above).count id = if above = p then 1 else 0
  uniqueSiblings : t.HasUniqueSiblings

namespace Tree.Grown

variable {t : Tree} (h : t.Grown)
include h

theorem isConsistent : t.isConsistent = true :=
  isConsistent_iff.2 ⟨h.root_lt, h.kind_root, h.parent_root, h.linked⟩

theorem kind_eq_root_iff {id : NodeId} (hid : id < t.size) :
    (t.node id).kind = .root ↔ id = root := by
  constructor
  · intro hkind
    by_contra hne
    exact h.kind_ne_root (Nat.pos_of_ne_zero hne) hid hkind
  · rintro rfl
    exact h.kind_root

/-- The parent of a node lists it once, and no other node lists it. -/
theorem count_children {id p : NodeId} (hp : id ∈ t.children p) (above : NodeId) :
    (t.children above).count id = if above = p then 1 else 0 := by
  split
  · next heq =>
    subst heq
    exact List.count_eq_one_of_mem (h.children_nodup above) hp
  · next hne =>
    refine List.count_eq_zero_of_not_mem fun habove => hne ?_
    have hparents : some above = some p :=
      (h.parent_child habove).symm.trans (h.parent_child hp)
    exact Option.some.inj hparents

theorem wellShaped : t.WellShaped where
  consistent := h.isConsistent
  kind_eq_root _ hid := h.kind_eq_root_iff hid
  reachable _ hid := attached_iff.1 (h.attached_of_lt hid)
  listed id hid hne := by
    obtain ⟨p, hp⟩ := h.attached (Nat.pos_of_ne_zero hne) hid
    exact ⟨p, h.parent_child hp, h.count_children hp⟩
  uniqueSiblings := h.uniqueSiblings

end Tree.Grown

/-! ## Sessions -/

namespace Analyzer

/-- What an analysis can be asked to do. -/
inductive Command where
  | registerLibrary (l : Library)
  | setRevision (id : String)
  | runPass (phase : Phase) (units : List CompilationUnit)

def perform (a : Analyzer) : Command → Analyzer
  | .registerLibrary l => (a.registerLibrary l).1
  | .setRevision id => a.setRevision id
  | .runPass phase units => (a.runPass phase units).1

/-- The analysis after the commands, in order. -/
def session (naming : Naming) (commands : List Command) : Analyzer :=
  commands.foldl perform (new naming)

/-- A run of both passes is a session. -/
theorem analyze_eq_session (naming : Naming) (libraries : List Library)
    (units : List CompilationUnit) :
    (analyze naming libraries units).1 =
      (session naming (libraries.map .registerLibrary ++
        [.runPass .declaration units, .runPass .structural units])).application := by
  have hlibraries : (libraries.map Command.registerLibrary).foldl perform (new naming) =
      withLibraries naming libraries := List.foldl_map
  rw [session, List.foldl_append, hlibraries]
  rfl

/-! ### What each step keeps -/

/-- Whatever the scope was used for before, a unit leaves a grown tree grown. -/
theorem grown_absorb {a : Analyzer} (h : a.application.components.Grown) (phase : Phase)
    (u : CompilationUnit) : (a.absorb phase u).1.application.components.Grown := by
  rw [absorb_application]
  exact Tree.grown_merge h (a.scope.grown_build a.application phase u)

theorem grown_absorbAll {a : Analyzer} (h : a.application.components.Grown) (phase : Phase)
    (units : List CompilationUnit) :
    (a.absorbAll phase units).1.application.components.Grown := by
  induction units generalizing a with
  | nil => exact h
  | cons u rest ih =>
    rw [absorbAll_cons]
    exact ih (grown_absorb h phase u)

theorem grown_perform {a : Analyzer} (h : a.application.components.Grown) (command : Command) :
    (a.perform command).application.components.Grown := by
  cases command with
  | registerLibrary l =>
    have hsame : (a.registerLibrary l).1.application.components = a.application.components :=
      (addLibrary_naming_components a.application l).2
    rw [perform, hsame]
    exact h
  | setRevision id => exact h
  | runPass phase units =>
    rw [perform, runPass_application]
    exact grown_absorbAll h phase units

theorem grown_session (naming : Naming) (commands : List Command) :
    (session naming commands).application.components.Grown := by
  apply List.foldlRecOn
    (motive := fun a : Analyzer => a.application.components.Grown) _ _ Tree.grown_empty
  rintro a h command -
  exact grown_perform h command

/-- The tree of the application is well shaped after each command of a session, and after each unit
that a pass has merged. -/
theorem wellShaped_session (naming : Naming) (commands : List Command) :
    (session naming commands).application.components.WellShaped ∧
      ∀ (phase : Phase) (merged : List CompilationUnit),
        ((session naming commands).absorbAll phase merged).1.application.components.WellShaped := by
  have hgrown := grown_session naming commands
  exact ⟨hgrown.wellShaped, fun phase merged => (grown_absorbAll hgrown phase merged).wellShaped⟩

end Analyzer

end SymbolTable
