import SymbolTable.Proofs.Tree.GraphReader
import SymbolTable.Proofs.Tree.Links

/-!
# What a graph says about its tree

The graph of a consistent tree is written in one statement for each node in pre-order, followed by
one for each of its children. Read back, it depicts the tree just when no value in it ends in a
backslash.
-/

namespace SymbolTable

/-! ## Labels -/

namespace ComponentKind

def all : List ComponentKind :=
  [.root, .package, .classType, .interfaceType, .enumType, .enumConstant, .annotationType,
    .constructor, .defaultConstructor, .method, .field, .parameter, .typeParameter,
    .importOf .single, .importOf .onDemand, .importOf .static, .importOf .staticOnDemand]

theorem mem_all (kind : ComponentKind) : kind ∈ all := by
  cases kind with
  | importOf kind => cases kind <;> decide
  | _ => decide

theorem nodup_labels : (all.map label).Nodup := by decide

theorem label_injective {a b : ComponentKind} (h : a.label = b.label) : a = b :=
  List.inj_on_of_nodup_map nodup_labels (mem_all a) (mem_all b) h

theorem colon_notMem_label (kind : ComponentKind) : ':' ∉ kind.label.toList := by
  have hall : ∀ kind ∈ all, ':' ∉ kind.label.toList := by decide
  exact hall kind (mem_all kind)

end ComponentKind

namespace Tree

theorem toList_graphLabel (c : Component) :
    (graphLabel c).toList = c.kind.label.toList ++ ':' :: c.value.toList := by
  simp [graphLabel]

/-- The label up to its first colon is the kind. -/
theorem takeWhile_graphLabel (c : Component) :
    (graphLabel c).toList.takeWhile (· ≠ ':') = c.kind.label.toList := by
  rw [toList_graphLabel, List.takeWhile_append_of_pos]
  · simp
  · rintro a ha
    have hne : a ≠ ':' := fun heq => c.kind.colon_notMem_label (heq ▸ ha)
    simpa using hne

theorem graphLabel_eq_iff {c d : Component} :
    graphLabel c = graphLabel d ↔ c.kind = d.kind ∧ c.value = d.value := by
  constructor
  · intro h
    have hlabel : c.kind.label.toList = d.kind.label.toList := by
      rw [← takeWhile_graphLabel, h, takeWhile_graphLabel]
    refine ⟨ComponentKind.label_injective (String.toList_injective hlabel), ?_⟩
    have htext := congrArg String.toList h
    rw [toList_graphLabel, toList_graphLabel, hlabel, List.append_cancel_left_eq] at htext
    exact String.toList_injective (List.cons.inj htext).2
  · rintro ⟨hkind, hvalue⟩
    rw [graphLabel, graphLabel, hkind, hvalue]

/-- Only the value decides how a label ends. -/
theorem getLast?_graphLabel (c : Component) :
    (graphLabel c).toList.getLast? = some '\\' ↔ c.value.toList.getLast? = some '\\' := by
  rw [toList_graphLabel, List.getLast?_append_cons, List.getLast?_cons]
  cases c.value.toList.getLast? <;> simp

/-! ## The statements of a tree -/

variable (t : Tree)

def statementsAt (id : NodeId) : List Graph.Statement :=
  .node (Graph.numeral id) (graphLabel (t.node id)).toList ::
    (t.children id).map fun c => .edge (Graph.numeral id) (Graph.numeral c)

/-- The graph that the text stands for. -/
def digraph : Graph.Digraph :=
  ⟨"Components".toList, (root :: t.preorder root).flatMap t.statementsAt⟩

theorem isNumbered_statementsAt (id : NodeId) : ∀ s ∈ t.statementsAt id, s.IsNumbered := by
  rw [statementsAt, List.forall_mem_cons, List.forall_mem_map]
  exact ⟨Graph.isNumeral_numeral id, fun c _ =>
    ⟨Graph.isNumeral_numeral id, Graph.isNumeral_numeral c⟩⟩

theorem isClosed_statementsAt_iff (id : NodeId) :
    (∀ s ∈ t.statementsAt id, s.IsClosed) ↔ (t.node id).value.toList.getLast? ≠ some '\\' := by
  rw [statementsAt, List.forall_mem_cons, List.forall_mem_map, Ne, ← getLast?_graphLabel]
  exact and_iff_left fun c _ => trivial

theorem flatMap_line_statementsAt (id : NodeId) :
    (t.statementsAt id).flatMap Graph.Statement.line =
      (t.graphStatements id).flatMap String.toList := by
  simp [statementsAt, graphStatements, Graph.quoted, Graph.numeral, List.flatMap_map]

theorem toList_graph (h : t.Shallow t.size root) :
    t.graph.toList = "digraph Components \x7b\n".toList ++
      (t.digraph.statements.flatMap Graph.Statement.line ++ ['\x7d']) := by
  have hclose : "\x7d".toList = ['\x7d'] := rfl
  unfold graph digraph
  rw [String.toList_append, String.toList_append, String.toList_join, hclose,
    descendants_eq_preorder h, List.flatMap_assoc, List.flatMap_assoc, List.append_assoc]
  simp only [flatMap_line_statementsAt]

theorem nodes_digraph :
    t.digraph.nodes = (root :: t.preorder root).map fun id =>
      (Graph.numeral id, (graphLabel (t.node id)).toList) := by
  have hnode (id : NodeId) : (t.statementsAt id).filterMap Graph.Statement.node? =
      [(Graph.numeral id, (graphLabel (t.node id)).toList)] := by
    simp [statementsAt, Graph.Statement.node?, List.filterMap_map, Function.comp_def]
  unfold Graph.Digraph.nodes digraph
  rw [List.filterMap_flatMap, List.map_eq_flatMap]
  simp only [hnode]

theorem edges_digraph :
    t.digraph.edges = (root :: t.preorder root).flatMap fun id =>
      (t.children id).map fun c => (Graph.numeral id, Graph.numeral c) := by
  have hedges (id : NodeId) : (t.statementsAt id).filterMap Graph.Statement.edge? =
      (t.children id).map fun c => (Graph.numeral id, Graph.numeral c) := by
    rw [statementsAt, List.filterMap_cons_none rfl, List.filterMap_map]
    exact congrFun List.filterMap_eq_map _
  unfold Graph.Digraph.edges digraph
  rw [List.filterMap_flatMap]
  simp only [hedges]

variable {t}

theorem nodup_children_of_lt (h : ∀ id < t.size, (t.children id).Nodup) (id : NodeId) :
    (t.children id).Nodup := by
  by_cases hid : id < t.size
  · exact h id hid
  · rw [children_of_size_le (Nat.le_of_not_lt hid)]
    exact List.nodup_nil

theorem nodup_listing (hlinked : t.Linked) (hroot : t.parent root = none)
    (hnodup : ∀ id, (t.children id).Nodup) : (root :: t.preorder root).Nodup := by
  have hchain : t.Chain root [] := .root
  have hshallow := hchain.shallow hlinked hroot
  refine List.nodup_cons.2 ⟨fun hmem => ?_, ?_⟩
  · exact hchain.not_below_self hlinked hroot ((mem_preorderWithin_iff hshallow).1 hmem)
  · exact (nodup_preorderWithin_iff hlinked hroot t.attached_root hshallow).2 fun j _ => hnodup j

theorem mem_listing_iff (hshallow : t.Shallow t.size root) {id : NodeId} :
    id ∈ root :: t.preorder root ↔ id = root ∨ t.Below root id := by
  rw [List.mem_cons, preorder, mem_preorderWithin_iff hshallow]

/-- The graph is that of the nodes that hang below the root: each is declared once, in pre-order,
under a label that tells its kind and its value, and the edges are the child links, each once. -/
structure DepictedBy (t : Tree) (g : Graph.Digraph) : Prop where
  nodes : g.nodes = (root :: t.preorder root).map fun id =>
    (Graph.numeral id, (graphLabel (t.node id)).toList)
  nodup_nodes : (g.nodes.map Prod.fst).Nodup
  mem_nodes_iff : ∀ name, name ∈ g.nodes.map Prod.fst ↔
    ∃ id, (id = root ∨ t.Below root id) ∧ name = Graph.numeral id
  label_determines : ∀ id label, (Graph.numeral id, label) ∈ g.nodes → ∀ c : Component,
    (graphLabel c).toList = label ↔ c.kind = (t.node id).kind ∧ c.value = (t.node id).value
  nodup_edges : g.edges.Nodup
  mem_edges_iff : ∀ edge, edge ∈ g.edges ↔ ∃ id c, (id = root ∨ t.Below root id) ∧
    c ∈ t.children id ∧ edge = (Graph.numeral id, Graph.numeral c)

theorem depictedBy_digraph (hlinked : t.Linked) (hroot : t.parent root = none)
    (hnodup : ∀ id, (t.children id).Nodup) : t.DepictedBy t.digraph := by
  have hshallow : t.Shallow t.size root := Chain.root.shallow hlinked hroot
  have hlisting := nodup_listing hlinked hroot hnodup
  have hnames : t.digraph.nodes.map Prod.fst = (root :: t.preorder root).map Graph.numeral := by
    rw [nodes_digraph, List.map_map]
    rfl
  refine {
    nodes := t.nodes_digraph
    nodup_nodes := ?_
    mem_nodes_iff := fun name => ?_
    label_determines := fun id label hmem c => ?_
    nodup_edges := ?_
    mem_edges_iff := fun edge => ?_ }
  · rw [hnames]
    exact hlisting.map Graph.numeral_injective
  · simp only [hnames, List.mem_map, mem_listing_iff hshallow, eq_comm]
  · rw [nodes_digraph] at hmem
    obtain ⟨i, -, hi⟩ := List.mem_map.1 hmem
    obtain ⟨hname, rfl⟩ := Prod.mk.inj hi
    obtain rfl := Graph.numeral_injective hname
    exact String.toList_inj.trans graphLabel_eq_iff
  · rw [edges_digraph, List.nodup_flatMap]
    refine ⟨fun id _ => (hnodup id).map fun c d h => ?_, hlisting.imp fun {i j} hne e hi hj => ?_⟩
    · exact Graph.numeral_injective (Prod.mk.inj h).2
    · obtain ⟨c, -, rfl⟩ := List.mem_map.1 hi
      obtain ⟨d, -, hd⟩ := List.mem_map.1 hj
      exact hne (Graph.numeral_injective (Prod.mk.inj hd).1.symm)
  · simp only [edges_digraph, List.mem_flatMap, List.mem_map, mem_listing_iff hshallow,
      exists_and_left, eq_comm]

/-- The text of the graph can be read, as a depiction of the tree, just when no value at the root or
below it ends in a backslash: such a backslash escapes the quote that should close the label. -/
theorem depictedBy_graph_iff (h : t.isConsistent = true) (hnodup : ∀ id, (t.children id).Nodup) :
    (∃ g, Graph.read t.graph = some g ∧ t.DepictedBy g) ↔
      ∀ id, id = root ∨ t.Below root id → (t.node id).value.toList.getLast? ≠ some '\\' := by
  obtain ⟨-, -, hroot, hlinked⟩ := isConsistent_iff.1 h
  have hshallow : t.Shallow t.size root := Chain.root.shallow hlinked hroot
  have hread := Graph.read_eq (t.toList_graph hshallow)
  have hnumbered : ∀ s ∈ t.digraph.statements, s.IsNumbered := by
    intro s hs
    obtain ⟨id, -, hid⟩ := List.mem_flatMap.1 hs
    exact t.isNumbered_statementsAt id s hid
  have hclosed : (∀ s ∈ t.digraph.statements, s.IsClosed) ↔
      ∀ id, id = root ∨ t.Below root id → (t.node id).value.toList.getLast? ≠ some '\\' := by
    unfold digraph
    rw [List.forall_mem_flatMap]
    exact forall_congr' fun id => by
      rw [mem_listing_iff hshallow, t.isClosed_statementsAt_iff id]
  rw [hread, ← hclosed]
  constructor
  · rintro ⟨g, hg, hdepicted⟩
    obtain ⟨read, hlisting, rfl⟩ := Option.map_eq_some_iff.1 hg
    refine Graph.isClosed_of_listing hnumbered hlisting ?_
    exact t.nodes_digraph.trans hdepicted.nodes.symm
  · intro hall
    exact ⟨t.digraph, by rw [Graph.listing_lines hnumbered hall]; rfl,
      depictedBy_digraph hlinked hroot hnodup⟩

/-- Values that hold a quote after a backslash, a backslash and a line break. -/
def quotedTree : Tree where
  nodes := #[
    { kind := .root, value := "ROOT", children := [1] },
    { kind := .package, value := "a\\\"b", parent := some 0, children := [2] },
    { kind := .classType, value := "C\\D\n", parent := some 1 }]

theorem depictedBy_quotedTree :
    quotedTree.isConsistent = true ∧ (∀ id, (quotedTree.children id).Nodup) ∧
      ((∃ g, Graph.read quotedTree.graph = some g ∧ quotedTree.DepictedBy g) ↔
        ∀ id, id = root ∨ quotedTree.Below root id →
          (quotedTree.node id).value.toList.getLast? ≠ some '\\') := by
  have hconsistent : quotedTree.isConsistent = true := by decide
  have hnodup : ∀ id, (quotedTree.children id).Nodup := nodup_children_of_lt (by decide)
  exact ⟨hconsistent, hnodup, depictedBy_graph_iff hconsistent hnodup⟩

/-- The backslash at the end of the value of the class escapes the quote that should close its
label. -/
def slashTree : Tree where
  nodes := #[
    { kind := .root, value := "ROOT", children := [1] },
    { kind := .classType, value := "A\\", parent := some 0 }]

theorem slashTree_unreadable :
    slashTree.isConsistent = true ∧ (∀ id, (slashTree.children id).Nodup) ∧
      Graph.read slashTree.graph = none :=
  ⟨by decide, nodup_children_of_lt (by decide), by decide +kernel⟩

end Tree

end SymbolTable
