import SymbolTable.Proofs.Analysis.Acts
import SymbolTable.Proofs.Analysis.Exposure
import SymbolTable.Proofs.Analysis.Shape
import SymbolTable.Proofs.Tree.Assembly

/-!
# What a scope keeps in order

A caller may hold an application and a scope for a long time and work on both in any order: register
libraries, merge trees, build units, and move, fill and clear the scope by hand. A scope then says
nothing about the units it was used for, and what it has made visible may have been looked up in an
earlier state of the application. It keeps to a few rules all the same. The cursor can always be
reached from the root, although a move only asks whether the node has a parent; an import is
recorded once; and since an application only grows, references stay in range.

* `Scope.Tidy` are the rules for what a scope records, `Scope.tidy_steps` carries them through a walk;
* `Analyzer.InOrder` is the invariant, `Analyzer.inOrder_operate` carries it through one operation.
-/

namespace SymbolTable

open SymbolTable.Tree (root)

/-! ## References stay in range -/

namespace Application

variable {app app' : Application} {r : ComponentRef}

/-- The trees of the application pass their check. -/
structure Consistent (app : Application) : Prop where
  program : app.components.isConsistent = true
  libraries : ∀ l ∈ app.libraries, l.components.isConsistent = true

/-- The application has grown: its program has no fewer nodes, and its libraries are still there. -/
structure GrowsTo (app app' : Application) : Prop where
  size_le : app.components.size ≤ app'.components.size
  libraries : app.libraries <+: app'.libraries

theorem GrowsTo.refl (app : Application) : app.GrowsTo app := ⟨Nat.le_refl _, List.prefix_rfl⟩

theorem Holds.grow (hr : app.Holds r) (h : app.GrowsTo app') : app'.Holds r := by
  obtain ⟨origin, id⟩ := r
  obtain ⟨horigin, hid⟩ := hr
  cases origin with
  | program => exact ⟨trivial, Nat.lt_of_lt_of_le hid h.size_le⟩
  | library index =>
    obtain ⟨more, hmore⟩ := h.libraries
    have hindex : index < app.libraries.length := horigin
    have hsame : app'.libraries[index]? = app.libraries[index]? := by
      rw [← hmore, List.getElem?_append_left hindex]
    refine ⟨?_, ?_⟩
    · change index < app'.libraries.length
      rw [← hmore, List.length_append]
      omega
    · have htree : app'.tree (.library index) = app.tree (.library index) := by
        rw [tree, tree, hsame]
      rw [htree]
      exact hid

namespace Consistent

variable (h : app.Consistent)
include h

theorem linked : app.components.Linked := (Tree.isConsistent_iff.1 h.program).2.2.2

theorem root_lt : Tree.root < app.components.size := (Tree.isConsistent_iff.1 h.program).1

theorem holds_library {l : Library} {index : Nat} (hl : app.libraries[index]? = some l)
    {id : NodeId} (hid : l.components.Linked → Tree.root < l.components.size → id < l.components.size) :
    app.Holds ⟨.library index, id⟩ := by
  obtain ⟨hindex, -⟩ := List.getElem?_eq_some_iff.1 hl
  obtain ⟨hroot, -, -, hlinked⟩ := Tree.isConsistent_iff.1 (h.libraries l (List.mem_of_getElem? hl))
  refine ⟨hindex, ?_⟩
  simpa [tree, hl] using hid hlinked hroot

theorem holds_root : app.Holds Application.root := ⟨trivial, h.root_lt⟩

theorem holds_libraryRoot {index : Nat} (hindex : index < app.libraries.length) :
    app.Holds (libraryRoot index) :=
  h.holds_library (List.getElem?_eq_getElem hindex) fun _ hroot => hroot

theorem holds_findInProgram {coordinate : String} {id : NodeId}
    (hid : app.findInProgram coordinate = some id) : app.Holds (.program id) :=
  ⟨trivial, h.linked.locate_lt hid⟩

theorem holds_findInLibraries {coordinate : String}
    (hr : app.findInLibraries coordinate = some r) : app.Holds r := by
  obtain ⟨⟨l, index⟩, hmem, hlocate⟩ := List.exists_of_findSome?_eq_some hr
  obtain ⟨id, hid, rfl⟩ := Option.map_eq_some_iff.1 hlocate
  have hl : app.libraries[index]? = some l := List.mem_zipIdx_iff_getElem?.1 hmem
  exact h.holds_library hl fun hlinked _ => hlinked.locate_lt hid

theorem holds_find {coordinate : String} (hr : app.find coordinate = some r) : app.Holds r := by
  unfold find at hr
  split at hr
  · next id hid => exact Option.some.inj hr ▸ h.holds_findInProgram hid
  · exact h.holds_findInLibraries hr

theorem addLibrary {l : Library} (hl : l.components.isConsistent = true) :
    (app.addLibrary l).1.Consistent ∧ app.GrowsTo (app.addLibrary l).1 := by
  unfold Application.addLibrary
  split
  · exact ⟨h, GrowsTo.refl app⟩
  · refine ⟨⟨h.program, fun known hknown => ?_⟩, Nat.le_refl _, List.prefix_append _ _⟩
    rcases List.mem_append.1 hknown with hknown | hknown
    · exact h.libraries known hknown
    · exact List.mem_singleton.1 hknown ▸ hl

theorem mergeAt {target : NodeId} (source : Tree) (id : NodeId)
    (htarget : target < app.components.size) :
    (app.mergeAt target source id).Consistent ∧ app.GrowsTo (app.mergeAt target source id) :=
  ⟨⟨Tree.isConsistent_mergeAt source id h.program htarget, h.libraries⟩,
    (Tree.linked_mergeAt source id h.linked htarget).2.size_le, List.prefix_rfl⟩

end Consistent

end Application

/-! ## What a scope records -/

namespace Scope

/-- No import and no visible component is recorded twice, and what is visible or open exists. -/
structure Tidy (s : Scope) (app : Application) : Prop where
  imports : (s.imports.map Component.symbol).Nodup
  visible : s.visible.Nodup
  holds : ∀ r ∈ s.visible ++ s.containers, app.Holds r

namespace Tidy

variable {s s' : Scope} {app app' : Application} (h : s.Tidy app)
include h

/-- Only the records count. -/
theorem of_records (himports : s'.imports = s.imports) (hvisible : s'.visible = s.visible)
    (hcontainers : s'.containers = s.containers) : s'.Tidy app where
  imports := by
    rw [himports]
    exact h.imports
  visible := by
    rw [hvisible]
    exact h.visible
  holds := by
    rw [hvisible, hcontainers]
    exact h.holds

theorem grow (hgrows : app.GrowsTo app') : s.Tidy app' :=
  ⟨h.imports, h.visible, fun r hr => (h.holds r hr).grow hgrows⟩

theorem addImport (c : Component) : (s.addImport c).1.Tidy app := by
  unfold Scope.addImport
  split
  · exact h
  · next hfresh =>
    refine ⟨?_, h.visible, h.holds⟩
    rw [List.map_append, List.map_singleton, List.nodup_append]
    refine ⟨h.imports, List.nodup_singleton _, ?_⟩
    rintro known hknown new hnew rfl
    obtain ⟨c', hc', hsymbol⟩ := List.mem_map.1 hknown
    refine hfresh (List.any_eq_true.2 ⟨c', hc', Component.sameSymbol_iff.2 ?_⟩)
    rw [hsymbol, List.mem_singleton.1 hnew]

theorem addVisible {r : ComponentRef} (hr : app.Holds r) : (s.addVisible r).1.Tidy app := by
  unfold Scope.addVisible
  split
  · exact h
  · next hfresh =>
    refine ⟨h.imports, ?_, fun r' hr' => ?_⟩
    · refine List.nodup_append.2 ⟨h.visible, List.nodup_singleton _, ?_⟩
      rintro known hknown new hnew rfl
      exact hfresh (List.mem_singleton.1 hnew ▸ hknown)
    · have hr' : r' ∈ s.visible ++ s.containers ∨ r' = r := by
        simp only [List.mem_append, List.mem_singleton] at hr' ⊢
        tauto
      rcases hr' with hr' | rfl
      · exact h.holds r' hr'
      · exact hr

theorem addContainers {rs : List ComponentRef} (hrs : ∀ r ∈ rs, app.Holds r) :
    Tidy { s with containers := s.containers ++ rs } app := by
  refine ⟨h.imports, h.visible, fun r hr => ?_⟩
  rw [← List.append_assoc] at hr
  exact (List.mem_append.1 hr).elim (h.holds r) (hrs r)

theorem addContainer {r : ComponentRef} (hr : app.Holds r) : (s.addContainer r).Tidy app :=
  h.addContainers fun _ hr' => List.mem_singleton.1 hr' ▸ hr

theorem clearVisible : s.clearVisible.Tidy app :=
  ⟨h.imports, List.nodup_nil, fun _ hr => absurd hr List.not_mem_nil⟩

theorem marks (hmarks : s.Marks s') : s'.Tidy app :=
  h.of_records hmarks.alike.imports hmarks.sameView.visible hmarks.sameView.containers

variable (happ : app.Consistent)
include happ

theorem seed : (s.seed app).Tidy app := by
  unfold Scope.seed
  simp only [List.append_assoc]
  refine h.addContainers fun r hr => ?_
  rcases List.mem_append.1 hr with hr | hr
  · obtain ⟨name, -, hr⟩ := List.mem_filterMap.1 hr
    split at hr
    · next hfound => exact Option.some.inj hr ▸ happ.holds_findInLibraries hfound
    · obtain ⟨id, hid, rfl⟩ := Option.map_eq_some_iff.1 hr
      exact happ.holds_findInProgram hid
  · rcases List.mem_append.1 hr with hr | hr
    · exact List.mem_singleton.1 hr ▸ happ.holds_root
    · obtain ⟨index, hindex, rfl⟩ := List.mem_map.1 hr
      exact happ.holds_libraryRoot (List.mem_range.1 hindex)

theorem openPackage (coordinate : String) : (s.openPackage app coordinate).Tidy app := by
  unfold Scope.openPackage
  split
  · next r hr => exact h.addContainer (happ.holds_find hr)
  · exact h

theorem openImport (i : ImportDecl) : (s.openImport app i).Tidy app := by
  unfold Scope.openImport
  split
  · next r hr =>
    split
    · exact h.addContainer (happ.holds_find hr)
    · exact h.addVisible (happ.holds_find hr)
  · exact h

end Tidy

theorem tidy_fullReset (s : Scope) (app : Application) : s.fullReset.Tidy app :=
  ⟨List.nodup_nil, List.nodup_nil, fun _ hr => absurd hr List.not_mem_nil⟩

/-- A walk goes along with itself, and its scopes are tidy. -/
theorem lockstep_tidy {app : Application} (happ : app.Consistent) (phase : Phase) :
    Lockstep app app phase phase fun s s' => s' = s ∧ s.Tidy app where
  naming := rfl
  shape := fun {s _} h => h.1 ▸ Tree.SameShape.refl s.tree
  cursor h := h.1 ▸ rfl
  file h := h.1 ▸ rfl
  hasPackage h := h.1 ▸ rfl
  imports h := h.1 ▸ rfl
  setFile := by rintro s _ file ⟨rfl, h⟩; exact ⟨rfl, h.of_records rfl rfl rfl⟩
  moveTo := by rintro s _ id ⟨rfl, h⟩; exact ⟨rfl, h.of_records rfl rfl rfl⟩
  put := by
    rintro s _ parent c ⟨rfl, h⟩
    refine ⟨rfl, ?_⟩
    rw [put_eq]
    exact h.of_records rfl rfl rfl
  openOwn := by
    rintro _ s coordinate ⟨rfl, h⟩
    have hopened : Tidy { s with hasPackage := true } app := h.of_records rfl rfl rfl
    exact ⟨rfl, hopened.openPackage happ coordinate⟩
  addImport := by rintro s _ c ⟨rfl, h⟩; exact ⟨rfl, h.addImport c⟩
  openImport := by rintro s _ i ⟨rfl, h⟩; exact ⟨rfl, h.openImport happ i⟩
  relateType := by
    rintro s _ id header ⟨rfl, h⟩
    exact ⟨rfl, h.marks (relates_relateType _ app id phase header).marks⟩
  relateCallable := by
    rintro s _ id header ⟨rfl, h⟩
    exact ⟨rfl, h.marks (relates_relateCallable _ app id phase header).marks⟩
  relateConstant := by
    rintro s _ id owner - ⟨rfl, h⟩
    exact ⟨rfl, h.marks (marks_relateConstant _ app id phase owner)⟩

theorem tidy_steps {app : Application} (happ : app.Consistent) (phase : Phase) (s : Scope)
    (events : List Event) :
    (events.foldl (step app phase) (s.fullReset.seed app)).Tidy app := by
  have hsteps := Lockstep.foldl (fun {s s'} e (h : s' = s ∧ s.Tidy app) =>
    (lockstep_tidy happ phase).step h e) events ⟨rfl, (tidy_fullReset s app).seed happ⟩
  exact hsteps.2

end Scope

/-! ## Operations on an application and a scope -/

namespace Tree.Attached

variable {t t' : Tree} {id p : NodeId} (h : t.Attached id)
include h

theorem mono (hchildren : ∀ {id c}, c ∈ t.children id → c ∈ t'.children id) : t'.Attached id :=
  attached_iff.2 ((attached_iff.1 h).imp_right (Below.mono hchildren))

theorem parent (hlinked : t.Linked) (hroot : t.parent root = none) (hp : t.parent id = some p) :
    t.Attached p := by
  obtain ⟨above, hchain⟩ := h
  cases hchain with
  | root =>
    rw [hroot] at hp
    cases hp
  | child hchain hc =>
    obtain rfl := Option.some.inj ((hlinked.parent_child hc).symm.trans hp)
    exact ⟨_, hchain⟩

end Tree.Attached

namespace Analyzer

/-- What a caller that holds an application and a scope may do with the two. -/
inductive Operation where
  | addLibrary (l : Library)
  | merge (file : Tree)
  | mergeAt (target : NodeId) (source : Tree) (id : NodeId)
  | build (phase : Phase) (u : CompilationUnit)
  | create (c : Component)
  | add (c : Component)
  | descend (id : NodeId)
  | ascend
  | addImport (c : Component)
  | addVisible (r : ComponentRef)
  | addContainer (r : ComponentRef)
  | seed
  | clearVisible
  | reset
  | fullReset
  | takeTree

/-- A move that fails changes nothing. A unit that is built is not merged by that, and what becomes
of a tree that is taken is up to the caller. -/
def operate (a : Analyzer) : Operation → Analyzer
  | .addLibrary l => (a.registerLibrary l).1
  | .merge file => { a with application := a.application.merge file }
  | .mergeAt target source id =>
    { a with application := a.application.mergeAt target source id }
  | .build phase u => { a with scope := (a.scope.build a.application phase u).2 }
  | .create c => { a with scope := { a.scope with tree := a.scope.tree.create c } }
  | .add c => { a with scope := { a.scope with tree := a.scope.tree.add a.scope.cursor c } }
  | .descend id =>
    match a.scope.descend id with
    | .ok scope => { a with scope }
    | .error _ => a
  | .ascend => { a with scope := a.scope.ascend }
  | .addImport c => { a with scope := (a.scope.addImport c).1 }
  | .addVisible r => { a with scope := (a.scope.addVisible r).1 }
  | .addContainer r => { a with scope := a.scope.addContainer r }
  | .seed => { a with scope := a.scope.seed a.application }
  | .clearVisible => { a with scope := a.scope.clearVisible }
  | .reset => { a with scope := a.scope.reset }
  | .fullReset => { a with scope := a.scope.fullReset }
  | .takeTree => { a with scope := a.scope.takeTree.2 }

/-- Libraries have passed the check of their tree, and what the caller names exists. -/
def Allows (a : Analyzer) : Operation → Prop
  | .addLibrary l => l.components.isConsistent = true
  | .mergeAt target _ _ => target < a.application.components.size
  | .addVisible r => a.application.Holds r
  | .addContainer r => a.application.Holds r
  | _ => True

/-- Each operation is allowed in the state that the ones before it leave. -/
def AllowsAll (a : Analyzer) : List Operation → Prop
  | [] => True
  | operation :: rest => a.Allows operation ∧ (a.operate operation).AllowsAll rest

/-- A new application and a new scope. -/
def start (naming : Naming) (revisionId : Option String) : Analyzer :=
  { application := { naming }, scope := { revisionId } }

/-- The state after the operations, in order. -/
def operated (naming : Naming) (revisionId : Option String) (operations : List Operation) :
    Analyzer := operations.foldl operate (start naming revisionId)

/-- The cursor is the root of the tree of the scope or lies below it, the tree passes its check, and
the records are tidy. -/
structure InOrder (a : Analyzer) : Prop where
  cursor : a.scope.cursor = root ∨ a.scope.tree.Below root a.scope.cursor
  consistent : a.scope.tree.isConsistent = true
  tidy : a.scope.Tidy a.application

/-- What operations keep. The nodes of the tree that have a parent hang below the root, which is why
it is enough to ask for a parent when the cursor is to move. -/
structure Upheld (a : Analyzer) : Prop where
  application : a.application.Consistent
  wellLinked : a.scope.tree.WellLinked
  cursor : a.scope.tree.Attached a.scope.cursor
  hangs : ∀ {id p}, a.scope.tree.parent id = some p → a.scope.tree.Attached id
  tidy : a.scope.Tidy a.application

namespace Upheld

variable {a : Analyzer} (h : a.Upheld)
include h

theorem inOrder : a.InOrder :=
  ⟨Tree.attached_iff.1 h.cursor, h.wellLinked.isConsistent, h.tidy⟩

/-- A larger application changes nothing for the scope. -/
theorem grow {app : Application} (happ : app.Consistent) (hgrows : a.application.GrowsTo app) :
    Upheld { a with application := app } :=
  ⟨happ, h.wellLinked, h.cursor, h.hangs, h.tidy.grow hgrows⟩

/-- Records do not touch the tree. -/
theorem record {s : Scope} (htree : s.tree = a.scope.tree) (hcursor : s.cursor = a.scope.cursor)
    (htidy : s.Tidy a.application) : Upheld { a with scope := s } where
  application := h.application
  wellLinked := by rw [htree]; exact h.wellLinked
  cursor := by rw [htree, hcursor]; exact h.cursor
  hangs := by rw [htree]; exact h.hangs
  tidy := htidy

/-- A scope with a new tree is at its root. -/
theorem renew {s : Scope} (htree : s.tree = .empty) (hcursor : s.cursor = root)
    (htidy : s.Tidy a.application) : Upheld { a with scope := s } where
  application := h.application
  wellLinked := by rw [htree]; exact Tree.wellLinked_empty
  cursor := by rw [hcursor]; exact s.tree.attached_root
  hangs := by
    intro id p hp
    rw [htree] at hp
    have hlisted := Tree.wellLinked_empty.agree.parent_iff.1 hp
    rw [Tree.children_empty] at hlisted
    cases hlisted
  tidy := htidy

theorem moveTo {id : NodeId} (hid : a.scope.tree.Attached id) :
    Upheld { a with scope := a.scope.moveTo id } :=
  ⟨h.application, h.wellLinked, hid, h.hangs, h.tidy.of_records rfl rfl rfl⟩

theorem create (c : Component) : (a.operate (.create c)).Upheld := by
  have hs := Tree.sameLinks_create a.scope.tree c
  have hkeeps : ∀ {id}, a.scope.tree.Attached id → (a.scope.tree.create c).Attached id :=
    fun hid => hid.mono fun hc => by rwa [hs.children]
  exact {
    application := h.application
    wellLinked := h.wellLinked.of_sameLinks hs
    cursor := hkeeps h.cursor
    hangs := fun hp => hkeeps (h.hangs ((hs.parent _).symm.trans hp))
    tidy := h.tidy.of_records rfl rfl rfl }

theorem add (c : Component) : (a.operate (.add c)).Upheld := by
  obtain ⟨above, hchain⟩ := h.cursor
  have hlt := hchain.lt_size h.wellLinked.linked h.wellLinked.root_lt
  have hchildren := Tree.children_add a.scope.tree c hlt
  have hkeeps : ∀ {id}, a.scope.tree.Attached id →
      (a.scope.tree.add a.scope.cursor c).Attached id := by
    refine fun hid => hid.mono fun {id d} hd => ?_
    rw [hchildren]
    split
    · next heq => exact List.mem_append_left _ (heq ▸ hd)
    · exact hd
  refine ⟨h.application, h.wellLinked.add c hlt, hkeeps h.cursor, fun {id p} hp => ?_,
    h.tidy.of_records rfl rfl rfl⟩
  change (a.scope.tree.add a.scope.cursor c).parent id = some p at hp
  have hlisted := (h.wellLinked.add c hlt).agree.parent_iff.1 hp
  rcases Tree.mem_children_add hlt hlisted with hold | ⟨rfl, -⟩
  · exact hkeeps (h.hangs (h.wellLinked.linked.parent_child hold))
  · exact (hkeeps h.cursor).child hlisted

theorem descend_of_attached {id : NodeId} (hid : a.scope.tree.Attached id) :
    a.scope.descend id = .ok (a.scope.moveTo id) := by
  unfold Scope.descend
  rw [if_pos]
  obtain ⟨above, hchain⟩ := hid
  cases hchain with
  | root => exact .inl rfl
  | child _ hc =>
    rw [h.wellLinked.linked.parent_child hc]
    exact .inr rfl

theorem descend_of_not_attached {id : NodeId} (hid : ¬ a.scope.tree.Attached id) :
    a.scope.descend id = .error .detached := by
  unfold Scope.descend
  rw [if_neg]
  rintro (rfl | hparent)
  · exact hid a.scope.tree.attached_root
  · obtain ⟨p, hp⟩ := Option.isSome_iff_exists.1 hparent
    exact hid (h.hangs hp)

theorem descend (id : NodeId) : (a.operate (.descend id)).Upheld := by
  by_cases hid : a.scope.tree.Attached id
  · simp only [operate, h.descend_of_attached hid]
    exact h.moveTo hid
  · simp only [operate, h.descend_of_not_attached hid]
    exact h

theorem ascend : (a.operate .ascend).Upheld := by
  simp only [operate, Scope.ascend]
  split
  · next p hp =>
    exact h.moveTo (h.cursor.parent h.wellLinked.linked h.wellLinked.parent_root hp)
  · exact h

theorem build (phase : Phase) (u : CompilationUnit) : (a.operate (.build phase u)).Upheld :=
  h.renew rfl rfl
    ((Scope.tidy_steps h.application phase a.scope u.events).of_records rfl rfl rfl)

theorem operate {operation : Operation} (hallows : a.Allows operation) :
    (a.operate operation).Upheld := by
  cases operation with
  | addLibrary l =>
    obtain ⟨happ, hgrows⟩ := h.application.addLibrary hallows
    exact h.grow happ hgrows
  | merge file =>
    obtain ⟨happ, hgrows⟩ := h.application.mergeAt file root h.application.root_lt
    exact h.grow happ hgrows
  | mergeAt target source id =>
    obtain ⟨happ, hgrows⟩ := h.application.mergeAt source id hallows
    exact h.grow happ hgrows
  | build phase u => exact h.build phase u
  | create c => exact h.create c
  | add c => exact h.add c
  | descend id => exact h.descend id
  | ascend => exact h.ascend
  | addImport c =>
    refine h.record ?_ ?_ (h.tidy.addImport c) <;> rw [Scope.addImport_fst]
  | addVisible r =>
    refine h.record ?_ ?_ (h.tidy.addVisible hallows) <;> unfold Scope.addVisible <;>
      split <;> rfl
  | addContainer r => exact h.record rfl rfl (h.tidy.addContainer hallows)
  | seed => exact h.record rfl rfl (h.tidy.seed h.application)
  | clearVisible => exact h.record rfl rfl h.tidy.clearVisible
  | reset => exact h.renew rfl rfl (h.tidy.of_records rfl rfl rfl)
  | fullReset => exact h.renew rfl rfl (Scope.tidy_fullReset _ _)
  | takeTree => exact h.renew rfl rfl (h.tidy.of_records rfl rfl rfl)

/-- In the middle of a unit the scope is in order as well. -/
theorem inOrder_steps (phase : Phase) (events : List Event) :
    InOrder { a with
      scope := events.foldl (Scope.step a.application phase)
        (a.scope.fullReset.seed a.application) } := by
  have hsound := Scope.sound_seed a.scope a.application
  have hacts : Scope.Acts a.application phase _ _ := Scope.acts_steps hsound events
  have hsteps := hacts.sound hsound
  exact ⟨Tree.attached_iff.1 (hsteps.grown.attached_of_lt hsteps.cursor_lt),
    hsteps.grown.isConsistent, Scope.tidy_steps h.application phase a.scope events⟩

theorem foldl_operate {operations : List Operation} (hallows : a.AllowsAll operations) :
    (operations.foldl Analyzer.operate a).Upheld := by
  induction operations generalizing a with
  | nil => exact h
  | cons operation rest ih => exact ih (h.operate hallows.1) hallows.2

end Upheld

theorem upheld_start (naming : Naming) (revisionId : Option String) :
    (start naming revisionId).Upheld where
  application := ⟨rfl, fun _ hl => absurd hl List.not_mem_nil⟩
  wellLinked := Tree.wellLinked_empty
  cursor := Tree.attached_root _
  hangs hp := absurd (Tree.wellLinked_empty.agree.parent_iff.1 hp) (by simp)
  tidy := ⟨List.nodup_nil, List.nodup_nil, fun _ hr => absurd hr List.not_mem_nil⟩

/-- Whatever was done with an application and a scope, in whatever order, the cursor is the root of
the tree of the scope or lies below it, the tree passes its check, the records are tidy, and
references are in range. This holds between the events of a unit that is built next, too. The cursor
can be sent to the root and to what lies below it, and to no other node. -/
theorem inOrder_operated {naming : Naming} {revisionId : Option String}
    {operations : List Operation} (h : (start naming revisionId).AllowsAll operations) :
    (operated naming revisionId operations).InOrder ∧
    (∀ (phase : Phase) (events : List Event),
      InOrder { operated naming revisionId operations with
        scope := events.foldl
          (Scope.step (operated naming revisionId operations).application phase)
          ((operated naming revisionId operations).scope.fullReset.seed
            (operated naming revisionId operations).application) }) ∧
    ∀ id,
      (id = root ∨ (operated naming revisionId operations).scope.tree.Below root id →
        (operated naming revisionId operations).scope.descend id =
          .ok ((operated naming revisionId operations).scope.moveTo id)) ∧
      (¬ (id = root ∨ (operated naming revisionId operations).scope.tree.Below root id) →
        (operated naming revisionId operations).scope.descend id = .error .detached ∧
          (operated naming revisionId operations).operate (.descend id) =
            operated naming revisionId operations) := by
  have hupheld : (operated naming revisionId operations).Upheld :=
    (upheld_start naming revisionId).foldl_operate h
  refine ⟨hupheld.inOrder, hupheld.inOrder_steps, fun id => ⟨fun hid => ?_, fun hid => ?_⟩⟩
  · exact hupheld.descend_of_attached (Tree.attached_iff.2 hid)
  · have hfails := hupheld.descend_of_not_attached fun hattached =>
      hid (Tree.attached_iff.1 hattached)
    exact ⟨hfails, by simp only [operate, hfails]⟩

/-- A library with one package. -/
def packageLibrary : Library where
  groupId := "jdk"
  artifactId := "rt"
  version := "17"
  revisionId := none
  components := Tree.empty.add root { kind := .package, value := "java" }

/-- A program with one package, built and merged, and a scope that is used by hand. The first
component has no place in the tree, so the cursor does not move to it. -/
def mixedOperations : List Operation := [
  .addLibrary packageLibrary,
  .build .declaration baseUnit,
  .merge (Tree.empty.add root { kind := .package, value := "a" }),
  .seed,
  .create { kind := .field, value := "f" },
  .descend 1,
  .add { kind := .package, value := "p" },
  .descend 2,
  .add { kind := .classType, value := "C" },
  .ascend,
  .addImport { kind := .importOf .single, value := "a.A" },
  .addImport { kind := .importOf .single, value := "a.A" },
  .addVisible (.program 1),
  .addVisible (.program 1),
  .addContainer ⟨.library 0, 1⟩,
  .build .structural derivedUnit,
  .addVisible (.program 1),
  .takeTree]

theorem inOrder_mixedOperations :
    (start {} none).AllowsAll mixedOperations ∧
    (operated {} none mixedOperations).InOrder ∧
    (∀ (phase : Phase) (events : List Event),
      InOrder { operated {} none mixedOperations with
        scope := events.foldl
          (Scope.step (operated {} none mixedOperations).application phase)
          ((operated {} none mixedOperations).scope.fullReset.seed
            (operated {} none mixedOperations).application) }) ∧
    ∀ id,
      (id = root ∨ (operated {} none mixedOperations).scope.tree.Below root id →
        (operated {} none mixedOperations).scope.descend id =
          .ok ((operated {} none mixedOperations).scope.moveTo id)) ∧
      (¬ (id = root ∨ (operated {} none mixedOperations).scope.tree.Below root id) →
        (operated {} none mixedOperations).scope.descend id = .error .detached ∧
          (operated {} none mixedOperations).operate (.descend id) =
            operated {} none mixedOperations) := by
  have hallows : (start {} none).AllowsAll mixedOperations :=
    ⟨rfl, trivial, trivial, trivial, trivial, trivial, trivial, trivial, trivial, trivial, trivial,
      trivial, ⟨trivial, by decide +kernel⟩, ⟨trivial, by decide +kernel⟩,
      ⟨by decide +kernel, by decide +kernel⟩, trivial, ⟨trivial, by decide +kernel⟩, trivial,
      trivial⟩
  exact ⟨hallows, inOrder_operated hallows⟩

end Analyzer

end SymbolTable
