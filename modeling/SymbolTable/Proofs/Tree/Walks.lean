import SymbolTable.Proofs.Tree.Links
import SymbolTable.Proofs.Tree.Search
import SymbolTable.Tree.Outline

/-!
# Walks over accepted lists of nodes end

An accepted list of nodes may repeat children and hold cycles that hang nowhere. Below the root
there is no cycle, since it would give a node a second chain of parents. So a walk that starts below
the root and goes along links ends and meets nodes of the tree only. The bounds that the walks carry
are never what ends them: each walk satisfies the equation of its recursion without a bound.
-/

namespace SymbolTable

namespace Tree

/-- A walk along `next` ends, whichever way it takes, and meets only nodes of the tree. -/
inductive Ends (t : Tree) (next : NodeId → List NodeId) : NodeId → Prop
  | node {id : NodeId} (hid : id < t.size) (h : ∀ j ∈ next id, Ends t next j) : Ends t next id

/-- The node one step up. -/
def above (t : Tree) (id : NodeId) : List NodeId := (t.parent id).toList

/-- The node is reached from the root over the given number of child links. -/
inductive AtDepth (t : Tree) : Nat → NodeId → Prop
  | root : AtDepth t 0 root
  | child {n : Nat} {id c : NodeId} (h : AtDepth t n id) (hc : c ∈ t.children id) :
    AtDepth t (n + 1) c

/-- No bound cuts a walk downwards short. Each equation reads the node and goes on with its
children. -/
structure DescendsFreely (t : Tree) (id : NodeId) : Prop where
  drain : ∀ k, t.drain (t.visits id + k) (t.children id) = t.descendants id
  descendants : t.descendants id = (t.children id).flatMap fun c => c :: t.descendants c
  outline : ∀ depth,
    t.outlineWithin (t.size + 1) depth id =
      indentation depth ++ (t.node id).outlineLine (t.node id).attributes ++ "\n" ++
        String.join ((t.children id).map (t.outlineWithin (t.size + 1) (depth + 1)))
  canonical : ∀ depth,
    t.canonicalWithin (t.size + 1) depth id =
      indentation depth ++ (t.node id).outlineLine (t.node id).sortedAttributes ++ "\n" ++
        String.join (((t.children id).map (t.canonicalWithin (t.size + 1) (depth + 1))).mergeSort
          fun a b => a ≤ b)
  copy : ∀ (target : Tree) (parent : NodeId),
    target.copySubtree parent t id =
      (t.children id).foldl (fun acc c => acc.copySubtree target.size t c)
        (target.add parent (t.node id))
  locate : ∀ delimiter rest,
    t.locateWithin delimiter t.size id rest =
      (t.children id).findSome? (t.locateAt delimiter t.size rest)

/-- No bound cuts a walk upwards short. Each equation reads the node and goes on with its parent. -/
structure ClimbsFreely (t : Tree) (id : NodeId) : Prop where
  ancestors : t.ancestors id =
    match t.parent id with
    | none => []
    | some p => p :: t.ancestors p
  parents : t.parents id =
    match t.parent id with
    | none => []
    | some p => if (t.node p).kind = .root then [] else p :: t.parents p
  findAncestor : ∀ accept, t.findAncestor id accept =
    match t.parent id with
    | none => none
    | some p => if accept (t.node p) then some p else t.findAncestor p accept
  outermost : ∀ accept, t.outermost id accept =
    match t.parent id with
    | none => if accept (t.node id) then some id else none
    | some p => (t.outermost p accept).or (if accept (t.node id) then some id else none)
  qualifiedName : ∀ nested, t.qualifiedName id nested =
    match t.parent id with
    | none => (t.node id).value
    | some p =>
      if t.hasEnclosing id then
        t.qualifiedName p nested ++ separator nested (t.node p).kind (t.node id).kind ++
          (t.node id).value
      else (t.node id).value

variable {t : Tree} {id c : NodeId}

/-! ## Downwards -/

/-- What is computed from a node and its children is settled by the height of the subtree: bounds
beyond it make no difference. -/
theorem eq_of_shallow {α : Sort*} {f : Nat → NodeId → α}
    (leaf : ∀ n id, t.children id = [] → f (n + 1) id = f 0 id)
    (step : ∀ n m id, (∀ c ∈ t.children id, f n c = f m c) → f (n + 1) id = f (m + 1) id)
    {k n m : Nat} (hf : t.Shallow k id) (hn : k ≤ n) (hm : k ≤ m) : f n id = f m id := by
  induction k generalizing n m id with
  | zero =>
    have hleaf : ∀ n, f n id = f 0 id := fun n => by
      cases n with
      | zero => rfl
      | succ n => exact leaf n id hf
    rw [hleaf n, hleaf m]
  | succ k ih =>
    obtain ⟨n, rfl⟩ := Nat.exists_eq_succ_of_ne_zero (Nat.ne_zero_of_lt hn)
    obtain ⟨m, rfl⟩ := Nat.exists_eq_succ_of_ne_zero (Nat.ne_zero_of_lt hm)
    exact step n m id fun c hc =>
      ih (hf c hc) (Nat.le_of_succ_le_succ hn) (Nat.le_of_succ_le_succ hm)

section Shallow

variable (hf : t.Shallow t.size id)
include hf

theorem preorder_eq : t.preorder id = (t.children id).flatMap fun c => c :: t.preorder c := by
  change t.preorderWithin t.size id = t.preorderWithin (t.size + 1) id
  refine eq_of_shallow (f := t.preorderWithin) (fun n id hnil => ?_) (fun n m id h => ?_) hf
    (Nat.le_refl _) (Nat.le_succ _)
  · simp [preorderWithin, hnil]
  · rw [preorderWithin_succ, preorderWithin_succ]
    exact List.flatMap_congr fun c hc => by rw [h c hc]

theorem outlineWithin_size_eq (depth : Nat) :
    t.outlineWithin (t.size + 2) depth id = t.outlineWithin (t.size + 1) depth id := by
  refine congrFun (eq_of_shallow (f := fun n id depth => t.outlineWithin (n + 1) depth id)
    (fun n id hnil => ?_) (fun n m id h => ?_) hf (Nat.le_succ _) (Nat.le_refl _)) depth
  · funext depth
    simp [outlineWithin, hnil]
  · funext depth
    rw [outlineWithin, outlineWithin, List.map_congr_left fun c hc => congrFun (h c hc) (depth + 1)]

theorem canonicalWithin_size_eq (depth : Nat) :
    t.canonicalWithin (t.size + 2) depth id = t.canonicalWithin (t.size + 1) depth id := by
  refine congrFun (eq_of_shallow (f := fun n id depth => t.canonicalWithin (n + 1) depth id)
    (fun n id hnil => ?_) (fun n m id h => ?_) hf (Nat.le_succ _) (Nat.le_refl _)) depth
  · funext depth
    simp [canonicalWithin, hnil]
  · funext depth
    rw [canonicalWithin, canonicalWithin,
      List.map_congr_left fun c hc => congrFun (h c hc) (depth + 1)]

theorem copyWithin_size_eq (target : Tree) (parent : NodeId) :
    t.copyWithin (t.size + 2) target parent id = t.copyWithin (t.size + 1) target parent id := by
  refine congrFun (congrFun (eq_of_shallow
    (f := fun n id target parent => t.copyWithin (n + 1) target parent id)
    (fun n id hnil => ?_) (fun n m id h => ?_) hf (Nat.le_succ _) (Nat.le_refl _)) target) parent
  · funext target parent
    simp [copyWithin, hnil]
  · funext target parent
    rw [copyWithin, copyWithin]
    exact List.foldl_ext _ _ _ fun acc c hc => congrFun (congrFun (h c hc) acc) target.size

theorem locateWithin_size_eq (delimiter rest : List Char) :
    t.locateWithin delimiter (t.size + 1) id rest = t.locateWithin delimiter t.size id rest := by
  refine congrFun (eq_of_shallow (f := t.locateWithin delimiter) (fun n id hnil => ?_)
    (fun n m id h => ?_) hf (Nat.le_succ _) (Nat.le_refl _)) rest
  · funext rest
    rw [locateWithin_succ, hnil]
    rfl
  · funext rest
    rw [locateWithin_succ, locateWithin_succ]
    refine findSome?_congr fun c hc => ?_
    unfold locateAt
    rw [h c hc]

end Shallow

theorem ends_children {n : Nat} (hlinked : t.Linked) (hid : id < t.size) (hf : t.Shallow n id) :
    t.Ends t.children id := by
  induction n generalizing id with
  | zero =>
    have hnil : t.children id = [] := hf
    exact .node hid fun j hj => absurd (hnil ▸ hj) List.not_mem_nil
  | succ n ih => exact .node hid fun j hj => ih (hlinked.child_lt hj) (hf j hj)

theorem descendsFreely (hf : t.Shallow t.size id)
    (hchildren : ∀ c ∈ t.children id, t.Shallow t.size c) : t.DescendsFreely id where
  drain k := by rw [drain_visits hf, descendants_eq_preorder hf]
  descendants := by
    rw [descendants_eq_preorder hf, preorder_eq hf]
    exact List.flatMap_congr fun c hc => by rw [descendants_eq_preorder (hchildren c hc)]
  outline depth := (outlineWithin_size_eq hf depth).symm
  canonical depth := (canonicalWithin_size_eq hf depth).symm
  copy target parent := (copyWithin_size_eq hf target parent).symm
  locate delimiter rest := (locateWithin_size_eq hf delimiter rest).symm

/-! ## Upwards -/

/-- The nodes above `id`, nearest first, up to one without parent. -/
inductive Ascent (t : Tree) : NodeId → List NodeId → Prop
  | top {id : NodeId} (hp : t.parent id = none) : Ascent t id []
  | step {id p : NodeId} {above : List NodeId} (hp : t.parent id = some p) (h : Ascent t p above) :
    Ascent t id (p :: above)

theorem Chain.ascent {above : List NodeId} (hlinked : t.Linked) (hroot : t.parent Tree.root = none)
    (hchain : t.Chain c above) : t.Ascent c above := by
  induction hchain with
  | root => exact .top hroot
  | child _ hc ih => exact .step (hlinked.parent_child hc) ih

namespace Ascent

variable {above : List NodeId}

/-- What is computed from a node and its parent is settled by the way up: bounds beyond its length
make no difference. -/
theorem eq_of_length_le {α : Sort*} {f : Nat → NodeId → α}
    (top : ∀ n id, t.parent id = none → f (n + 1) id = f 0 id)
    (step : ∀ n m id p, t.parent id = some p → f n p = f m p → f (n + 1) id = f (m + 1) id)
    (h : t.Ascent c above) {n m : Nat} (hn : above.length ≤ n) (hm : above.length ≤ m) :
    f n c = f m c := by
  induction h generalizing n m with
  | @top id hp =>
    have htop : ∀ n, f n id = f 0 id := fun n => by
      cases n with
      | zero => rfl
      | succ n => exact top n id hp
    rw [htop n, htop m]
  | @step id p above hp _ ih =>
    obtain ⟨n, rfl⟩ := Nat.exists_eq_succ_of_ne_zero (Nat.ne_zero_of_lt hn)
    obtain ⟨m, rfl⟩ := Nat.exists_eq_succ_of_ne_zero (Nat.ne_zero_of_lt hm)
    exact step n m id p hp (ih (Nat.le_of_succ_le_succ hn) (Nat.le_of_succ_le_succ hm))

theorem eq_succ_of_length_le {α : Sort*} {f : Nat → NodeId → α}
    (top : ∀ n id, t.parent id = none → f (n + 1) id = f 0 id)
    (step : ∀ n m id p, t.parent id = some p → f n p = f m p → f (n + 1) id = f (m + 1) id)
    (h : t.Ascent c above) {n : Nat} (hn : above.length ≤ n) : f n c = f (n + 1) c :=
  eq_of_length_le top step h hn (Nat.le_succ_of_le hn)

variable (h : t.Ascent c above)
include h

theorem ancestorsWithin_eq {fuel : Nat} (hf : above.length ≤ fuel) :
    t.ancestorsWithin fuel c = above := by
  induction h generalizing fuel with
  | top hp => cases fuel <;> simp [ancestorsWithin, hp]
  | step hp _ ih =>
    obtain ⟨fuel, rfl⟩ := Nat.exists_eq_succ_of_ne_zero (Nat.ne_zero_of_lt hf)
    rw [ancestorsWithin, hp]
    exact congrArg _ (ih (Nat.le_of_succ_le_succ hf))

theorem ends_above (hc : c < t.size) (habove : ∀ a ∈ above, a < t.size) : t.Ends t.above c := by
  induction h with
  | top hp => exact .node hc fun j hj => by simp [Tree.above, hp] at hj
  | @step id p above hp _ ih =>
    refine .node hc fun j hj => ?_
    have hj : j = p := by simpa [Tree.above, hp, eq_comm] using hj
    subst hj
    exact ih (habove _ List.mem_cons_self) fun a ha => habove a (List.mem_cons_of_mem _ ha)

/-- Bounds from the length of the way up on make no difference; `outermost` looks at the node itself
and needs one more. -/
theorem climbsFreely (hlength : above.length < t.size) : t.ClimbsFreely c where
  ancestors := by
    refine eq_succ_of_length_le (fun n id hp => ?_) (fun n m id p hp h => ?_) h
      (Nat.le_of_lt hlength)
    · simp only [ancestorsWithin, hp]
    · simp only [ancestorsWithin, hp, h]
  parents := by
    refine eq_succ_of_length_le (fun n id hp => ?_) (fun n m id p hp h => ?_) h
      (Nat.le_of_lt hlength)
    · simp only [parentsWithin, hp]
    · simp only [parentsWithin, hp, h]
  findAncestor accept := by
    refine eq_succ_of_length_le (fun n id hp => ?_) (fun n m id p hp h => ?_) h
      (Nat.le_of_lt hlength)
    · simp only [findAncestorWithin, hp]
    · simp only [findAncestorWithin, hp, h]
  outermost accept := by
    obtain ⟨size, hsize⟩ := Nat.exists_eq_succ_of_ne_zero (Nat.ne_zero_of_lt hlength)
    have hmore : t.outermostWithin accept (size + 1) c = t.outermostWithin accept (size + 2) c := by
      refine eq_succ_of_length_le (f := fun n => t.outermostWithin accept (n + 1))
        (fun n id hp => ?_) (fun n m id p hp h => ?_) h (Nat.le_of_lt_succ (hsize ▸ hlength))
      · simp only [outermostWithin, hp]
      · rw [outermostWithin, outermostWithin, hp]
        simp only [h]
    unfold Tree.outermost
    rw [hsize]
    exact hmore
  qualifiedName nested := by
    have hmore : t.qualifiedNameWithin nested t.size c =
        t.qualifiedNameWithin nested (t.size + 1) c := by
      refine eq_succ_of_length_le (fun n id hp => ?_) (fun n m id p hp h => ?_) h
        (Nat.le_of_lt hlength)
      · simp only [qualifiedNameWithin, hp]
      · simp only [qualifiedNameWithin, hp, h]
    rw [Tree.qualifiedName, hmore, qualifiedNameWithin]
    cases t.parent c <;> rfl

end Ascent

section Chain

variable (hlinked : t.Linked) (hroot : t.parent root = none) {above : List NodeId}
  (hchain : t.Chain c above)
include hlinked hroot hchain

theorem ancestorsWithin_eq {fuel : Nat} (hf : above.length ≤ fuel) :
    t.ancestorsWithin fuel c = above := (hchain.ascent hlinked hroot).ancestorsWithin_eq hf

theorem ends_above (hlt : root < t.size) : t.Ends t.above c :=
  (hchain.ascent hlinked hroot).ends_above (hchain.lt_size hlinked hlt) fun a ha =>
    (hchain.lies_below a ha).1

theorem climbsFreely (hlt : root < t.size) : t.ClimbsFreely c :=
  (hchain.ascent hlinked hroot).climbsFreely (hchain.length_lt hlinked hroot hlt)

end Chain

theorem atDepth_iff {n : Nat} :
    t.AtDepth n id ↔ ∃ above, t.Chain id above ∧ above.length = n := by
  constructor
  · intro h
    induction h with
    | root => exact ⟨[], .root, rfl⟩
    | child _ hc ih =>
      obtain ⟨above, hchain, rfl⟩ := ih
      exact ⟨_, .child hchain hc, rfl⟩
  · rintro ⟨above, hchain, rfl⟩
    induction hchain with
    | root => exact .root
    | child _ hc ih => exact .child ih hc

theorem Chain.getLast_eq {above : List NodeId} (h : t.Chain c above) :
    (c :: above).getLast (List.cons_ne_nil c above) = Tree.root := by
  induction h with
  | root => rfl
  | child _ _ ih => rw [List.getLast_cons (List.cons_ne_nil _ _), ih]

/-- Whatever else an accepted list of nodes holds, a node that is reached from the root has one
chain of parents, as long as the node is deep, up to the first node; it does not lie below itself;
and all walks from it, in either direction, end inside the tree without running into a bound. -/
theorem walks_end (h : t.isConsistent = true) (hid : id = root ∨ t.Below root id) :
    (t.Chain id (t.ancestors id) ∧
      (id :: t.ancestors id).getLast (List.cons_ne_nil _ _) = root ∧
      ∀ n, t.AtDepth n id ↔ (t.ancestors id).length = n) ∧
    ¬ t.Below id id ∧
    (t.Ends t.children id ∧ t.DescendsFreely id) ∧
    (t.Ends t.above id ∧ t.ClimbsFreely id) := by
  obtain ⟨hlt, -, hroot, hlinked⟩ := isConsistent_iff.1 h
  obtain ⟨above, hchain⟩ := attached_iff.2 hid
  have hancestors : t.ancestors id = above :=
    ancestorsWithin_eq hlinked hroot hchain (Nat.le_of_lt (hchain.length_lt hlinked hroot hlt))
  have hf := hchain.shallow hlinked hroot
  rw [hancestors]
  refine ⟨⟨hchain, hchain.getLast_eq, fun n => ?_⟩, hchain.not_below_self hlinked hroot,
    ⟨ends_children hlinked (hchain.lt_size hlinked hlt) hf, ?_⟩,
    ends_above hlinked hroot hchain hlt, climbsFreely hlinked hroot hchain hlt⟩
  · rw [atDepth_iff]
    constructor
    · rintro ⟨above', hchain', rfl⟩
      rw [hchain.unique hlinked hroot hchain']
    · exact fun hn => ⟨above, hchain, hn⟩
  · exact descendsFreely hf fun c hc => Chain.shallow hlinked hroot (.child hchain hc)

/-- The class `A` is listed twice, and the two fields hang nowhere, each below the other. -/
def tangledTree : Tree where
  nodes := #[
    { kind := .root, value := "ROOT", children := [1, 1] },
    { kind := .classType, value := "A", children := [2], parent := some 0 },
    { kind := .method, value := "m", parent := some 1 },
    { kind := .field, value := "f", children := [4], parent := some 4 },
    { kind := .field, value := "g", children := [3], parent := some 3 }]

theorem walks_end_tangledTree :
    tangledTree.isConsistent = true ∧ tangledTree.Below root 1 ∧ tangledTree.Below 3 3 ∧
    ((tangledTree.Chain 1 (tangledTree.ancestors 1) ∧
      (1 :: tangledTree.ancestors 1).getLast (List.cons_ne_nil _ _) = root ∧
      ∀ n, tangledTree.AtDepth n 1 ↔ (tangledTree.ancestors 1).length = n) ∧
    ¬ tangledTree.Below 1 1 ∧
    (tangledTree.Ends tangledTree.children 1 ∧ tangledTree.DescendsFreely 1) ∧
    (tangledTree.Ends tangledTree.above 1 ∧ tangledTree.ClimbsFreely 1)) := by
  have hconsistent : tangledTree.isConsistent = true := by decide
  have hbelow : tangledTree.Below root 1 := .child (by decide)
  have hcycle : tangledTree.Below 3 3 :=
    .step (.child (show 4 ∈ tangledTree.children 3 by decide)) (by decide)
  exact ⟨hconsistent, hbelow, hcycle, walks_end hconsistent (.inr hbelow)⟩

end Tree

end SymbolTable
