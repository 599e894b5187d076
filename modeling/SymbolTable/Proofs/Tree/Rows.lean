import Mathlib.Data.List.TakeWhile
import SymbolTable.Proofs.Tree.WayUp

/-!
# The rows of an outline

The outline is written by one recursion and the nodes below the root are listed with a stack, but
both take the nodes in the same order. So the outline has one row for each node of the listing,
indented by the steps that lead down to it from the root. Where the links agree they are the steps
up to the root. The walk that lists the parents of a node counts these as long as no other node of
kind `root` is on the way; it stops before such a node.
-/

namespace SymbolTable

/-! ## Texts of several parts -/

theorem join_flatMap {α : Type} (l : List α) (f : α → List String) :
    String.join (l.flatMap f) = String.join (l.map fun a => String.join (f a)) := by
  induction l with
  | nil => rfl
  | cons a l ih => rw [List.flatMap_cons, String.join_append, ih, List.map_cons, String.join_cons]

theorem notMem_toList_intercalate {c : Char} {separator : String} {texts : List String}
    (hseparator : c ∉ separator.toList) (htexts : ∀ text ∈ texts, c ∉ text.toList) :
    c ∉ (separator.intercalate texts).toList := by
  induction texts with
  | nil => simp [String.intercalate_nil]
  | cons text rest ih =>
    rw [List.forall_mem_cons] at htexts
    cases rest with
    | nil => simpa [String.intercalate_singleton] using htexts.1
    | cons next rest =>
      simp only [String.intercalate_cons_cons, String.toList_append, List.mem_append, not_or]
      exact ⟨⟨htexts.1, hseparator⟩, ih htexts.2⟩

/-- Texts that each end in a mark which is nowhere else in them are told apart by the mark. -/
theorem splitOn_flatMap_ended {mark : Char} {texts : List (List Char)}
    (h : ∀ text ∈ texts, mark ∉ text) :
    (texts.flatMap fun text => text ++ [mark]).splitOn mark = texts ++ [[]] := by
  have hended : ∀ texts : List (List Char), (texts.flatMap fun text => text ++ [mark]) =
      [mark].intercalate (texts ++ [[]]) := by
    intro texts
    induction texts with
    | nil => rfl
    | cons text texts ih =>
      rw [List.flatMap_cons, List.cons_append, List.intercalate_cons_of_ne_nil (by simp), ih,
        List.append_assoc]
  rw [hended]
  refine List.splitOn_intercalate mark (fun text htext => ?_) (by simp)
  rcases List.mem_append.1 htext with htext | htext
  · exact h text htext
  · obtain rfl := List.mem_singleton.1 htext
    exact List.not_mem_nil

/-! ## One component, one line -/

theorem ComponentKind.lineBreak_notMem_label (kind : ComponentKind) :
    '\n' ∉ kind.label.toList := by
  cases kind with
  | importOf kind => cases kind <;> decide
  | _ => decide

theorem AttributeKind.lineBreak_notMem_label (kind : AttributeKind) :
    '\n' ∉ kind.label.toList := by
  cases kind <;> decide

namespace Component

/-- No text that the component holds has a line break. -/
structure IsOneLine (c : Component) : Prop where
  value : '\n' ∉ c.value.toList
  signature : '\n' ∉ (c.signature.getD "").toList
  attributes : ∀ a ∈ c.attributes, '\n' ∉ a.value.toList

instance (c : Component) : Decidable c.IsOneLine :=
  decidable_of_iff ('\n' ∉ c.value.toList ∧ '\n' ∉ (c.signature.getD "").toList ∧
      ∀ a ∈ c.attributes, '\n' ∉ a.value.toList)
    ⟨fun ⟨hvalue, hsignature, hattributes⟩ => ⟨hvalue, hsignature, hattributes⟩,
      fun h => ⟨h.value, h.signature, h.attributes⟩⟩

theorem IsOneLine.lineBreak_notMem {c : Component} (h : c.IsOneLine) :
    '\n' ∉ (c.outlineLine c.attributes).toList := by
  have hdisplay : '\n' ∉ c.display.toList := by
    simp only [display, String.toList_append, List.mem_append, not_or]
    exact ⟨⟨⟨c.kind.lineBreak_notMem_label, by decide⟩, h.value⟩, h.signature⟩
  have hattributes : ∀ text ∈ c.attributes.map Attribute.display, '\n' ∉ text.toList := by
    refine List.forall_mem_map.2 fun a ha => ?_
    simp only [Attribute.display, String.toList_append, List.mem_append, not_or]
    exact ⟨⟨a.kind.lineBreak_notMem_label, by decide⟩, h.attributes a ha⟩
  unfold outlineLine
  split
  · exact hdisplay
  · simp only [String.toList_append, List.mem_append, not_or]
    exact ⟨⟨⟨hdisplay, by decide⟩, notMem_toList_intercalate (by decide) hattributes⟩, by decide⟩

end Component

namespace Tree

/-- The line of a component, behind two spaces for each step down to it. -/
def outlineRow (t : Tree) (depth : Nat) (id : NodeId) : String :=
  String.ofList (List.replicate (2 * depth) ' ') ++
    (t.node id).outlineLine (t.node id).attributes

def rowsWithin (t : Tree) : Nat → Nat → NodeId → List (Nat × NodeId)
  | 0, depth, id => [(depth, id)]
  | fuel + 1, depth, id => (depth, id) :: (t.children id).flatMap (t.rowsWithin fuel (depth + 1))

/-- The root and the nodes below it in pre-order, each with the number of child links down to it. -/
def rows (t : Tree) : List (Nat × NodeId) := t.rowsWithin t.size 0 root

variable {t : Tree} {id : NodeId} {above : List NodeId}

theorem indentation_eq (depth : Nat) :
    indentation depth = String.ofList (List.replicate (2 * depth) ' ') := by
  induction depth with
  | zero => rfl
  | succ depth ih =>
    rw [indentation] at ih ⊢
    rw [List.replicate_succ, String.join_cons, ih, Nat.mul_succ, Nat.add_comm,
      List.replicate_add, String.ofList_append]
    rfl

theorem lineBreak_notMem_outlineRow (h : (t.node id).IsOneLine) (depth : Nat) :
    '\n' ∉ (t.outlineRow depth id).toList := by
  rw [outlineRow, String.toList_append, List.mem_append, not_or, String.toList_ofList]
  exact ⟨fun hmem => absurd (List.eq_of_mem_replicate hmem) (by decide), h.lineBreak_notMem⟩

/-! ## Rows in pre-order -/

theorem map_snd_rowsWithin (fuel depth : Nat) (id : NodeId) :
    (t.rowsWithin fuel depth id).map Prod.snd = id :: t.preorderWithin fuel id := by
  induction fuel generalizing depth id with
  | zero => rfl
  | succ fuel ih =>
    rw [rowsWithin, List.map_cons, List.map_flatMap, preorderWithin]
    exact congrArg (id :: ·) (List.flatMap_congr fun c _ => ih (depth + 1) c)

theorem atDepth_of_mem_rowsWithin {fuel depth : Nat} (hid : t.AtDepth depth id)
    {row : Nat × NodeId} (hrow : row ∈ t.rowsWithin fuel depth id) : t.AtDepth row.1 row.2 := by
  induction fuel generalizing depth id with
  | zero =>
    obtain rfl := List.mem_singleton.1 hrow
    exact hid
  | succ fuel ih =>
    rcases List.mem_cons.1 hrow with rfl | hrow
    · exact hid
    · obtain ⟨c, hc, hrow⟩ := List.mem_flatMap.1 hrow
      exact ih (.child hid hc) hrow

/-- The induction is on the height of the subtree. A child is one step further from the root. -/
theorem outlineWithin_eq_rows {n : Nat} (hf : t.Shallow n id) (depth : Nat) :
    t.outlineWithin (n + 1) depth id =
      String.join ((t.rowsWithin n depth id).map fun row => t.outlineRow row.1 row.2 ++ "\n") := by
  induction n generalizing id depth with
  | zero =>
    have hnil : t.children id = [] := hf
    simp [outlineWithin, rowsWithin, hnil, outlineRow, indentation_eq]
  | succ n ih =>
    have hblocks : ∀ c ∈ t.children id, t.outlineWithin (n + 1) (depth + 1) c =
        String.join ((t.rowsWithin n (depth + 1) c).map fun row =>
          t.outlineRow row.1 row.2 ++ "\n") :=
      fun c hc => ih (hf c hc) (depth + 1)
    rw [outlineWithin, List.map_congr_left hblocks, rowsWithin, List.map_cons, String.join_cons,
      List.map_flatMap, join_flatMap, outlineRow, indentation_eq]

section Acyclic

variable (h : t.Acyclic)
include h

theorem map_snd_rows : t.rows.map Prod.snd = root :: t.descendants root := by
  rw [rows, map_snd_rowsWithin, descendants_eq_preorder (h.shallow root), preorder]

/-- Each row is a line of its own if no text of a listed component has a line break. -/
theorem splitOn_outline (hlines : ∀ id ∈ root :: t.descendants root, (t.node id).IsOneLine) :
    t.outline.toList.splitOn '\n' =
      t.rows.map (fun row => (t.outlineRow row.1 row.2).toList) ++ [[]] := by
  have hrows : t.outline.toList =
      (t.rows.map fun row => (t.outlineRow row.1 row.2).toList).flatMap
        fun line => line ++ ['\n'] := by
    rw [outline, outlineWithin_eq_rows (h.shallow root), String.toList_join, List.flatMap_map,
      List.flatMap_map]
    exact List.flatMap_congr fun row _ => String.toList_append
  rw [hrows, splitOn_flatMap_ended]
  refine List.forall_mem_map.2 fun row hrow => lineBreak_notMem_outlineRow (hlines row.2 ?_) _
  rw [← map_snd_rows h]
  exact List.mem_map_of_mem hrow

end Acyclic

/-! ## Steps up to the root -/

section Consistent

variable (h : t.isConsistent = true)
include h

theorem ancestors_eq_of_chain (hchain : t.Chain id above) : t.ancestors id = above := by
  obtain ⟨hlt, -, hroot, hlinked⟩ := isConsistent_iff.1 h
  exact ancestorsWithin_eq hlinked hroot hchain
    (Nat.le_of_lt (hchain.length_lt hlinked hroot hlt))

theorem length_ancestors_of_atDepth {n : Nat} (hid : t.AtDepth n id) :
    (t.ancestors id).length = n := by
  obtain ⟨above, hchain, rfl⟩ := atDepth_iff.1 hid
  rw [ancestors_eq_of_chain h hchain]

theorem exists_ancestors_eq (hid : t.Below root id) :
    ∃ between, t.ancestors id = between ++ [root] ∧ root ∉ between := by
  obtain ⟨-, -, hroot, hlinked⟩ := isConsistent_iff.1 h
  obtain ⟨above, hchain⟩ := attached_iff.2 (.inr hid)
  have hne : above ≠ [] := by
    rintro rfl
    cases hchain
    exact Chain.root.not_below_self hlinked hroot hid
  have hlast : above.dropLast ++ [root] = above := by
    have hgetLast := hchain.getLast_eq
    rw [List.getLast_cons hne] at hgetLast
    rw [← hgetLast, List.dropLast_append_getLast hne]
  have hnodup := hchain.nodup hlinked hroot
  rw [← hlast] at hnodup
  refine ⟨above.dropLast, ?_, fun hmem => ?_⟩
  · rw [ancestors_eq_of_chain h hchain, hlast]
  · exact (List.nodup_append.1 hnodup).2.2 root hmem root (List.mem_singleton_self _) rfl

/-- The listing of the parents stops before the first node of kind `root`, so it takes all steps but
the last one just when the root is the only such node on the way. -/
theorem ancestors_eq_parents_iff (hid : t.Below root id) :
    t.ancestors id = t.parents id ++ [root] ↔
      ∀ a ∈ t.ancestors id, (t.node a).kind = .root → a = root := by
  obtain ⟨-, hkind, -, -⟩ := isConsistent_iff.1 h
  obtain ⟨between, hancestors, hnotMem⟩ := exists_ancestors_eq h hid
  have hclimb := climbable_of_attached h (attached_iff.2 (.inr hid))
  constructor
  · intro heq a ha haroot
    rw [heq, hclimb.parents_eq_takeWhile] at ha
    rcases List.mem_append.1 ha with ha | ha
    · exact absurd haroot (by simpa using List.mem_takeWhile_imp ha)
    · exact List.mem_singleton.1 ha
  · intro honly
    have hbetween : ∀ a ∈ between, decide ((t.node a).kind ≠ .root) = true := by
      intro a ha
      refine decide_eq_true fun haroot => hnotMem ?_
      rwa [← honly a (hancestors ▸ List.mem_append_left _ ha) haroot]
    rw [hclimb.parents_eq_takeWhile, hancestors, List.takeWhile_append_of_pos hbetween]
    simp [hkind]

end Consistent

/-- The stack lists the subtree below every node in pre-order, however many steps it is given beyond
those it needs. The lines of the outline are those of the root and of the nodes that the stack lists
below it, in this order, each indented by the links down to it. Where the links agree these are its
steps up to the root: the parents of the node and the root, just when the root is the only node of
kind `root` on the way. -/
theorem traversals_agree (h : t.Acyclic) :
    (∀ id, t.descendants id = t.preorder id ∧
      (∀ extra, t.drain (t.visits id + extra) (t.children id) = t.preorder id) ∧
      t.preorder id = (t.children id).flatMap fun c => c :: t.preorder c) ∧
    (t.rows.map Prod.snd = root :: t.descendants root ∧
      (∀ row ∈ t.rows, t.AtDepth row.1 row.2) ∧
      ((∀ id ∈ root :: t.descendants root, (t.node id).IsOneLine) →
        t.outline.toList.splitOn '\n' =
          t.rows.map (fun row => (t.outlineRow row.1 row.2).toList) ++ [[]])) ∧
    (t.isConsistent = true →
      (∀ row ∈ t.rows, row.1 = (t.ancestors row.2).length) ∧
      t.ancestors root = [] ∧
      ∀ id ∈ t.descendants root, (t.ancestors id = t.parents id ++ [root] ↔
        ∀ a ∈ t.ancestors id, (t.node a).kind = .root → a = root)) := by
  have hdepth : ∀ row ∈ t.rows, t.AtDepth row.1 row.2 :=
    fun row hrow => atDepth_of_mem_rowsWithin .root hrow
  refine ⟨fun id => ⟨descendants_eq_preorder (h.shallow id), drain_visits (h.shallow id),
    preorder_eq (h.shallow id)⟩, ⟨map_snd_rows h, hdepth, splitOn_outline h⟩,
    fun hconsistent => ⟨fun row hrow => ?_, ancestors_eq_of_chain hconsistent .root,
      fun id hid => ?_⟩⟩
  · exact (length_ancestors_of_atDepth hconsistent (hdepth row hrow)).symm
  · rw [descendants_eq_preorder (h.shallow root), mem_preorder_iff h] at hid
    exact ancestors_eq_parents_iff hconsistent hid

/-- The package `p` is younger than its class `A`, which is younger than its field, and the class
`C` hangs nowhere. -/
def scatteredTree : Tree where
  nodes := #[
    { kind := .root, value := "ROOT", children := [4, 1] },
    { kind := .classType, value := "B", parent := some 0 },
    { kind := .field, value := "x", parent := some 3 },
    { kind := .classType, value := "A", attributes := [⟨.modifier, "public"⟩], children := [2],
      parent := some 4 },
    { kind := .package, value := "p", children := [3], parent := some 0 },
    { kind := .classType, value := "C", children := [6] },
    { kind := .method, value := "m", signature := some "(int)", parent := some 5 }]

theorem traversals_agree_scattered :
    scatteredTree.Acyclic ∧ scatteredTree.isConsistent = true ∧
    (∀ id ∈ root :: scatteredTree.descendants root, (scatteredTree.node id).IsOneLine) ∧
    scatteredTree.descendants 5 = scatteredTree.preorder 5 ∧
    scatteredTree.rows = [(0, root), (1, 4), (2, 3), (3, 2), (1, 1)] ∧
    scatteredTree.outline.toList.splitOn '\n' =
      scatteredTree.rows.map (fun row => (scatteredTree.outlineRow row.1 row.2).toList) ++ [[]] ∧
    scatteredTree.outlineRow 3 2 = "      FIELD -> x" ∧
    (scatteredTree.ancestors 2).length = 3 ∧
    (scatteredTree.ancestors 2 = scatteredTree.parents 2 ++ [root] ↔
      ∀ a ∈ scatteredTree.ancestors 2, (scatteredTree.node a).kind = .root → a = root) := by
  have hacyclic : scatteredTree.Acyclic := acyclic_of_rank
    (fun id => if id = 2 then 3 else if id = 3 then 2 else if id = 0 ∨ id = 5 then 0 else 1)
    (by decide)
  have hconsistent : scatteredTree.isConsistent = true := by decide
  have hlines : ∀ id ∈ root :: scatteredTree.descendants root,
      (scatteredTree.node id).IsOneLine := by decide
  have hrow : (3, 2) ∈ scatteredTree.rows := by decide
  obtain ⟨hlisting, ⟨-, -, hlined⟩, hlinked⟩ := traversals_agree hacyclic
  obtain ⟨hlength, -, hsteps⟩ := hlinked hconsistent
  exact ⟨hacyclic, hconsistent, hlines, (hlisting 5).1, by decide, hlined hlines, by decide,
    (hlength _ hrow).symm, hsteps 2 (by decide)⟩

/-- The class `A` is below a second node of kind `root`. -/
def nestedRootTree : Tree where
  nodes := #[
    { kind := .root, value := "ROOT", children := [1] },
    { kind := .root, value := "R", children := [2], parent := some 0 },
    { kind := .classType, value := "A", parent := some 1 }]

/-- The class `A` is listed by the package, but has no parent. -/
def orphanTree : Tree where
  nodes := #[
    { kind := .root, value := "ROOT", children := [1] },
    { kind := .package, value := "p", children := [2], parent := some 0 },
    { kind := .classType, value := "A" }]

/-- The class has no parents, behind a second node of kind `root` or without a link to its package,
and still its row is indented by two steps. -/
theorem indented_beyond_parents :
    (nestedRootTree.Acyclic ∧ nestedRootTree.isConsistent = true ∧
      (∀ id ∈ root :: nestedRootTree.descendants root, (nestedRootTree.node id).IsOneLine) ∧
      nestedRootTree.descendants root = [1, 2] ∧ nestedRootTree.parents 2 = [] ∧
      nestedRootTree.outline = "ROOT -> ROOT\n  ROOT -> R\n    CLASS -> A\n" ∧
      ∀ depth ∈ [fun id => (nestedRootTree.parents id).length,
          fun id => if id = root then 0 else (nestedRootTree.parents id).length + 1],
        nestedRootTree.outline.toList.splitOn '\n' ≠
          (root :: nestedRootTree.descendants root).map
            (fun id => (nestedRootTree.outlineRow (depth id) id).toList) ++ [[]]) ∧
    orphanTree.Acyclic ∧
      (∀ id < orphanTree.size, (orphanTree.node id).kind = .root → id = root) ∧
      (∀ id ∈ root :: orphanTree.descendants root, (orphanTree.node id).IsOneLine) ∧
      orphanTree.descendants root = [1, 2] ∧ orphanTree.parents 2 = [] ∧
      orphanTree.outline = "ROOT -> ROOT\n  PACKAGE -> p\n    CLASS -> A\n" := by
  refine ⟨⟨acyclic_of_rank (fun id => id) (by decide), by decide, by decide, by decide, by decide,
    by decide +kernel, by decide +kernel⟩, acyclic_of_rank (fun id => id) (by decide), by decide,
    by decide, by decide, by decide, by decide +kernel⟩

end Tree

end SymbolTable
