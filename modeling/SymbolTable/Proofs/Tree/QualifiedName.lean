import SymbolTable.Proofs.Tree.Ancestry

/-!
# Qualified names of paths

The qualified name of a node is built from the outermost component downwards, its path is collected
upwards. Wherever the way up comes to an end, the name is the path written with the separators
between its kinds, so it is the coordinate if these are dots, and the same in every tree that has
the path.
-/

namespace SymbolTable

/-- The values on a path, with `nested` between two type declarations and a dot between any other
two components. -/
def qualify (nested : String) : List Symbol → String
  | [] => ""
  | [s] => s.value
  | s :: s' :: rest =>
    s.value ++ (if s.kind.isTypeDeclaration && s'.kind.isTypeDeclaration then nested else ".") ++
      qualify nested (s' :: rest)

theorem qualify_concat (nested : String) (path : List Symbol) (s s' : Symbol) :
    qualify nested (path ++ [s, s']) =
      qualify nested (path ++ [s]) ++
        (if s.kind.isTypeDeclaration && s'.kind.isTypeDeclaration then nested else ".") ++
        s'.value := by
  induction path with
  | nil => rfl
  | cons a path ih =>
    cases path with
    | nil => simp [qualify, String.append_assoc]
    | cons b path =>
      simp only [List.cons_append] at ih ⊢
      rw [qualify, qualify, ih]
      simp only [String.append_assoc]

/-- With one separator throughout, a qualified name is a joined text. -/
theorem qualify_dot (path : List Symbol) :
    qualify "." path = ".".intercalate (path.map Symbol.value) := by
  induction path with
  | nil => rfl
  | cons s path ih =>
    cases path with
    | nil => rw [qualify, List.map_singleton, String.intercalate_singleton]
    | cons s' path =>
      rw [qualify, ite_self, ih]
      simp only [List.map_cons, String.intercalate_cons_cons]

namespace Tree

variable {t : Tree} {id p : NodeId}

/-! ## Paths on the way up -/

theorem map_value_identityPath (t : Tree) (id : NodeId) :
    (t.identityPath id).map Symbol.value = t.pathValues id := by
  rw [identityPath, pathValues, List.map_append, List.map_map]
  split <;> rfl

theorem separator_eq (nested : String) (above below : ComponentKind) :
    separator nested above below =
      if above.isTypeDeclaration && below.isTypeDeclaration then nested else "." := by
  rw [separator]
  simp only [Bool.and_eq_true]

theorem hasEnclosing_cases (t : Tree) (id : NodeId) :
    t.hasEnclosing id = false ∨
      ∃ p, t.parent id = some p ∧ (t.node p).kind ≠ .root ∧ t.hasEnclosing id = true := by
  unfold hasEnclosing
  cases t.parent id with
  | none => exact .inl rfl
  | some p => by_cases hkind : (t.node p).kind = .root <;> simp [hkind]

namespace ClimbsFreely

variable (h : t.ClimbsFreely id)
include h

theorem parents_of_outermost (hout : t.hasEnclosing id = false) : t.parents id = [] := by
  rw [h.parents]
  cases hp : t.parent id with
  | none => rfl
  | some p =>
    rw [hasEnclosing, hp] at hout
    simpa using hout

/-- The outermost component of a path is its first symbol. -/
theorem qualifiedName_of_outermost (hkind : (t.node id).kind ≠ .root)
    (hout : t.hasEnclosing id = false) (nested : String) :
    t.qualifiedName id nested = qualify nested (t.identityPath id) := by
  rw [identityPath, h.parents_of_outermost hout, if_neg hkind, h.qualifiedName]
  cases t.parent id with
  | none => rfl
  | some p => exact if_neg (by simp [hout])

/-- Every other component adds its symbol to the path of its parent. -/
theorem qualifiedName_of_parent (hkind : (t.node id).kind ≠ .root) (hp : t.parent id = some p)
    (habove : (t.node p).kind ≠ .root) (hin : t.hasEnclosing id = true) {nested : String}
    (hname : t.qualifiedName p nested = qualify nested (t.identityPath p)) :
    t.qualifiedName id nested = qualify nested (t.identityPath id) := by
  have hparents : t.parents id = p :: t.parents p := by
    rw [h.parents, hp]
    exact if_neg habove
  rw [identityPath, if_neg habove] at hname
  rw [identityPath, hparents, if_neg hkind, h.qualifiedName, hp]
  simp only [hin, if_true, hname, separator_eq, List.reverse_cons, List.map_append,
    List.map_singleton, List.append_assoc, List.singleton_append]
  exact (qualify_concat nested _ (t.node p).symbol (t.node id).symbol).symm

end ClimbsFreely

/-- A qualified name is built downwards and a path upwards, and they spell the same components. -/
theorem Climbable.qualifiedName_eq (h : t.Climbable id) (hkind : (t.node id).kind ≠ .root)
    (nested : String) : t.qualifiedName id nested = qualify nested (t.identityPath id) := by
  obtain ⟨above, hascent, hlt⟩ := h
  induction hascent with
  | @top id hp =>
    have hclimbs := Climbable.climbsFreely ⟨[], .top hp, hlt⟩
    exact hclimbs.qualifiedName_of_outermost hkind (by rw [hasEnclosing, hp]; rfl) nested
  | @step id p above hp hascent ih =>
    have hclimbs := Climbable.climbsFreely ⟨p :: above, .step hp hascent, hlt⟩
    rcases t.hasEnclosing_cases id with hout | ⟨q, hq, habove, hin⟩
    · exact hclimbs.qualifiedName_of_outermost hkind hout nested
    · obtain rfl := Option.some.inj (hp.symm.trans hq)
      exact hclimbs.qualifiedName_of_parent hkind hp habove hin
        (ih habove (List.forall_mem_cons.1 hlt).2)

/-- In a tree without cycles the qualified name of a component, attached or not, has the values of
its path, with the nested separator between two type declarations and a dot between any other two
components. It is the coordinate if the nested separator is a dot too. -/
theorem qualifiedName_spells_path (h : t.AcyclicParents)
    (hroot : ∀ i < t.size, (t.node i).kind = .root → i = root) (hid : id < t.size) (hne : id ≠ root)
    (nested : String) :
    t.qualifiedName id nested = qualify nested (t.identityPath id) ∧
    (t.identityPath id).map Symbol.value = t.pathValues id ∧
    t.qualifiedName id "." = t.coordinate id "." := by
  have hclimbable := h.climbable hid
  have hkind : (t.node id).kind ≠ .root := fun hkind => hne (hroot id hid hkind)
  refine ⟨hclimbable.qualifiedName_eq hkind nested, t.map_value_identityPath id, ?_⟩
  rw [hclimbable.qualifiedName_eq hkind, qualify_dot, map_value_identityPath, coordinate]

/-- A class that is attached to nothing has a nested class with a method. -/
def detachedTree : Tree where
  nodes := #[
    { kind := .root, value := "ROOT", children := [1] },
    { kind := .package, value := "p", parent := some 0 },
    { kind := .classType, value := "A", children := [3] },
    { kind := .classType, value := "In", children := [4], parent := some 2 },
    { kind := .method, value := "m", parent := some 3 }]

theorem qualifiedName_spells_path_detachedTree :
    detachedTree.AcyclicParents ∧
    (∀ i < detachedTree.size, (detachedTree.node i).kind = .root → i = root) ∧
    4 < detachedTree.size ∧ 4 ≠ root ∧
    (detachedTree.qualifiedName 4 "$" = qualify "$" (detachedTree.identityPath 4) ∧
      (detachedTree.identityPath 4).map Symbol.value = detachedTree.pathValues 4 ∧
      detachedTree.qualifiedName 4 "." = detachedTree.coordinate 4 ".") ∧
    detachedTree.qualifiedName 4 "$" = "A$In.m" ∧ detachedTree.coordinate 4 "." = "A.In.m" := by
  have hacyclic : detachedTree.AcyclicParents := acyclicParents_of_rank (fun id => id) (by decide)
  have hroot : ∀ i < detachedTree.size, (detachedTree.node i).kind = .root → i = root := by decide
  exact ⟨hacyclic, hroot, by decide, by decide,
    qualifiedName_spells_path hacyclic hroot (by decide) (by decide) "$", by decide, by decide⟩

namespace Grown

variable (h : t.Grown)
include h

theorem qualifiedName_of_follow (nested : String) {path : List Symbol}
    (hid : t.follow root path = some id) (hpath : path ≠ []) :
    t.qualifiedName id nested = qualify nested path := by
  have hlt := h.follow_lt h.root_lt hid
  have hpos : root < id := Nat.pos_of_ne_zero fun hzero => by
    subst hzero
    exact hpath (h.follow_inj hid (follow_nil t root))
  have hclimbable := climbable_of_attached (isConsistent_iff.2
    ⟨h.root_lt, h.kind_root, h.parent_root, h.linked⟩) (h.attached_of_lt hlt)
  rw [hclimbable.qualifiedName_eq (h.kind_ne_root hpos hlt), h.identityPath_of_follow hid]

theorem qualifiedName_root (nested : String) :
    t.qualifiedName root nested = (t.node root).value := by
  rw [qualifiedName]
  cases t.size with
  | zero => rfl
  | succ n => rw [qualifiedNameWithin, h.parent_root]

end Grown

/-- Nodes at one path have one qualified name. -/
theorem qualifiedName_eq_of_follow {t t' : Tree} (h : t.Grown) (h' : t'.Grown)
    (hroot : (t'.node root).symbol = (t.node root).symbol) {path : List Symbol} {id id' : NodeId}
    (hid : t.follow root path = some id) (hid' : t'.follow root path = some id')
    (nested : String) : t'.qualifiedName id' nested = t.qualifiedName id nested := by
  by_cases hpath : path = []
  · subst hpath
    obtain rfl := Option.some.inj hid
    obtain rfl := Option.some.inj hid'
    rw [h.qualifiedName_root, h'.qualifiedName_root]
    exact congrArg Symbol.value hroot
  · rw [h.qualifiedName_of_follow nested hid hpath, h'.qualifiedName_of_follow nested hid' hpath]

theorem Extends.qualifiedName {t t' : Tree} (he : t.Extends t') (h : t.Grown) (h' : t'.Grown)
    {id : NodeId} (hid : id < t.size) (nested : String) :
    t'.qualifiedName id nested = t.qualifiedName id nested := by
  have hpath := h.follow_identityPath hid
  exact qualifiedName_eq_of_follow h h' (he.symbol h.root_lt) hpath
    (he.follow h h.root_lt hpath) nested

end Tree

end SymbolTable
