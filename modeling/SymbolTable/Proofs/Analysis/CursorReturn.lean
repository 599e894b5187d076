import SymbolTable.Proofs.Analysis.Audit
import SymbolTable.Proofs.Analysis.Arrival
import SymbolTable.Proofs.Analysis.Shape

/-!
# The cursor returns

The events of a construct move the cursor to its component when it starts and back when it ends, and
in between they build below that component. This is one step for each kind of event and an induction
over the syntax. A construct is taken where its events are in the walk, whatever is around them: all
that matters of the scope is that it is sound and that the file has a package by then. The exception
is the first type of a file without a package, which opens the default package and leaves the cursor
there.
-/

namespace SymbolTable

open SymbolTable.Tree (root)
open SymbolTable.Scope (constantComponent callableComponent)

/-- The events that start a construct with a component of its own. -/
def Event.opens : Event → Bool
  | .enterType _ | .enterConstant _ | .enterConstructor _ | .enterMethod _ => true
  | _ => false

namespace Scope

section Package

variable (s : Scope) (app : Application) (phase : Phase)

theorem hasPackage_step (h : s.hasPackage = true) (e : Event) :
    (step app phase s e).hasPackage = true := by
  cases he : e.isHeading with
  | false => exact (s.sameView_step app phase h he).hasPackage.trans h
  | true =>
    cases e with
    | enterPackage p => exact congrArg Scope.hasPackage (clearVisible_openPackage _ app _)
    | enterImport i =>
      have hclear := clearVisible_openImport (s.addImport (importComponent i)).1 app i
      rw [step, enterImport_eq, (of_clearVisible_eq hclear).2.2.2.1, addImport_fst]
      exact h
    | _ => cases he

theorem hasPackage_steps (h : s.hasPackage = true) (events : List Event) :
    (events.foldl (step app phase) s).hasPackage = true := by
  apply List.foldlRecOn (motive := fun s : Scope => s.hasPackage = true) _ _ h
  exact fun s h e _ => s.hasPackage_step app phase h e

/-- A type opens the package of its file first, whatever follows. -/
theorem foldl_enterType_ensurePackage (d : TypeDecl) (rest : List Event) :
    (Event.enterType d :: rest).foldl (step app phase) (s.ensurePackage app) =
      (Event.enterType d :: rest).foldl (step app phase) s := by
  rw [List.foldl_cons, List.foldl_cons, step, step, s.enterType_ensurePackage app phase d.header]

theorem hasPackage_enterType (h : TypeHeader) : (s.enterType app phase h).hasPackage = true := by
  rw [← s.enterType_ensurePackage app phase h]
  exact (sameView_enterType _ app phase h (s.hasPackage_ensurePackage app)).hasPackage.trans
    (s.hasPackage_ensurePackage app)

end Package

section Cursor

variable {s : Scope} (app : Application) (phase : Phase)

theorem cursor_enterType (hpackage : s.hasPackage = true) (h : TypeHeader) :
    (s.enterType app phase h).cursor = (s.putHere (s.typeComponent h)).1 := by
  rw [s.enterType_eq_entered app phase hpackage]
  exact (relates_relateType _ app _ phase h).marks.alike.cursor

theorem cursor_enterCallable (kind : ComponentKind) (h : CallableHeader) :
    (s.enterCallable app phase kind h).cursor = (s.putHere (callableComponent kind h)).1 :=
  (relates_relateCallable _ app _ phase h).marks.alike.cursor

theorem cursor_enterConstant (h : ConstantHeader) :
    (s.enterConstant app phase h).cursor = (s.putHere (constantComponent h)).1 :=
  (marks_relateConstant _ app _ phase _).alike.cursor

theorem cursor_ascend {above : NodeId} (h : s.tree.parent s.cursor = some above) :
    s.ascend.cursor = above := by
  rw [ascend, h]
  rfl

end Cursor

end Scope

namespace Audited

variable {app : Application} {phase : Phase}

theorem walk_append (events events' : List Event) :
    walk app phase (events ++ events') = walk app phase events >>= fun _ => walk app phase events' :=
  List.forM_append

/-- A construct starts with its component, and the cursor is moved there. -/
theorem opens_step (app : Application) (phase : Phase) {s : Scope} (hs : s.Sound)
    (hpackage : s.hasPackage = true) {e : Event} (he : e.opens = true) :
    Opens (step app phase e) s.cursor (Scope.step app phase s e).cursor s ()
      (Scope.step app phase s e) := by
  cases e with
  | enterType d =>
    rw [Scope.step, Scope.cursor_enterType app phase hpackage]
    exact opens_enterType app phase hs hpackage d.header
  | enterConstant d =>
    rw [Scope.step, Scope.cursor_enterConstant]
    exact opens_enterConstant app phase hs d.header
  | enterConstructor d =>
    rw [Scope.step, Scope.cursor_enterCallable]
    exact opens_enterCallable app phase hs .constructor (by decide) d.header
  | enterMethod d =>
    rw [Scope.step, Scope.cursor_enterCallable]
    exact opens_enterCallable app phase hs .method (by decide) d.header
  | _ => cases he

theorem passes_walk_one (app : Application) (phase : Phase) {s : Scope} (hs : s.Sound) (e : Event) :
    Passes (walk app phase [e]) s.cursor s () (Scope.step app phase s e) :=
  (passes_step app phase hs e).bind (.pure (passes_step app phase hs e).sound ())

/-! ## Constructs -/

/-- In a file with a package the events return the cursor, and all that they build lies below it. -/
def Returns (app : Application) (phase : Phase) (events : List Event) : Prop :=
  ∀ s : Scope, s.Sound → s.hasPackage = true →
    Passes (walk app phase events) s.cursor s () (events.foldl (Scope.step app phase) s) ∧
      (events.foldl (Scope.step app phase) s).cursor = s.cursor

/-- The events send the cursor to its parent, and all that they build lies below where it was. -/
def Leaves (app : Application) (phase : Phase) (events : List Event) : Prop :=
  ∀ s : Scope, s.Sound →
    Passes (walk app phase events) s.cursor s () (events.foldl (Scope.step app phase) s) ∧
      ∀ above, s.tree.parent s.cursor = some above →
        (events.foldl (Scope.step app phase) s).cursor = above

/-- In a file with a package the events return the cursor. They start with a component right below
it, where the first of them moves it, and all else that they build lies below that component. -/
def Encloses (app : Application) (phase : Phase) (enter : Event) (rest : List Event) : Prop :=
  ∀ s : Scope, s.Sound → s.hasPackage = true →
    Opens (walk app phase (enter :: rest)) s.cursor (Scope.step app phase s enter).cursor s ()
        ((enter :: rest).foldl (Scope.step app phase) s) ∧
      ((enter :: rest).foldl (Scope.step app phase) s).cursor = s.cursor

theorem Encloses.returns {enter : Event} {rest : List Event} (h : Encloses app phase enter rest) :
    Returns app phase (enter :: rest) :=
  fun s hs hpackage => (h s hs hpackage).imp_left Opens.passes

namespace Returns

theorem nil : Returns app phase [] := fun _ hs _ => ⟨.pure hs (), rfl⟩

theorem append {events events' : List Event} (h : Returns app phase events)
    (h' : Returns app phase events') : Returns app phase (events ++ events') := by
  intro s hs hpackage
  obtain ⟨hpasses, hcursor⟩ := h s hs hpackage
  obtain ⟨hpasses', hcursor'⟩ := h' _ hpasses.sound (s.hasPackage_steps app phase hpackage events)
  rw [hcursor] at hpasses' hcursor'
  rw [walk_append, List.foldl_append]
  exact ⟨hpasses.bind hpasses', hcursor'⟩

/-- An event that leaves the cursor where it is. -/
theorem one {e : Event} (hcursor : ∀ s : Scope, (Scope.step app phase s e).cursor = s.cursor) :
    Returns app phase [e] :=
  fun s hs _ => ⟨passes_walk_one app phase hs e, hcursor s⟩

theorem parameters (ps : List ParameterDecl) : Returns app phase (ps.map .enterParameter) := by
  induction ps with
  | nil => exact nil
  | cons p ps ih =>
    exact append (one (e := .enterParameter p) fun s => s.cursor_put s.cursor _) ih

theorem field (f : FieldDecl) : Returns app phase [.enterField f] := by
  refine one fun s => ?_
  apply List.foldlRecOn (motive := fun s' : Scope => s'.cursor = s.cursor) _ _ rfl
  exact fun s' hcursor name _ => (s'.cursor_put s'.cursor _).trans hcursor

end Returns

namespace Leaves

theorem callable {e : Event} (he : ∀ s : Scope, Scope.step app phase s e = s.ascend) :
    Leaves app phase [e] := by
  refine fun s hs => ⟨passes_walk_one app phase hs e, fun above h => ?_⟩
  rw [List.foldl_cons, List.foldl_nil, he]
  exact Scope.cursor_ascend h

theorem cursor_ascend_of_growth {s s' : Scope} (hs : s.Sound) (hgrowth : s.tree.Extends s'.tree)
    (hcursor : s'.cursor = s.cursor) {above : NodeId} (h : s.tree.parent s.cursor = some above) :
    s'.ascend.cursor = above := by
  apply Scope.cursor_ascend
  rw [hcursor, hgrowth.parent hs.cursor_lt]
  exact h

theorem constant (d : ConstantDecl) : Leaves app phase [.exitConstant d] := by
  refine fun s hs => ⟨passes_walk_one app phase hs _, fun above h => ?_⟩
  exact cursor_ascend_of_growth hs (passes_ensureDefaultConstructor hs).growth
    (s.cursor_ensureDefaultConstructor _) h

theorem type (d : TypeDecl) : Leaves app phase [.exitTypeBody d, .exitType d] := by
  intro s hs
  have hbody := passes_exitTypeBody hs d.header
  have hcursor := s.cursor_exitTypeBody d.header
  have hexit := passes_walk_one app phase hbody.sound (.exitType d)
  rw [hcursor] at hexit
  exact ⟨hbody.bind hexit, fun above h => cursor_ascend_of_growth hs hbody.growth hcursor h⟩

end Leaves

theorem Encloses.bracket {enter : Event} (henter : enter.opens = true) {inner leave : List Event}
    (hinner : Returns app phase inner) (hleave : Leaves app phase leave) :
    Encloses app phase enter (inner ++ leave) := by
  intro s hs hpackage
  have hopens := opens_step app phase hs hpackage henter
  obtain ⟨hpasses, hcursor⟩ := hinner _ hopens.sound (s.hasPackage_step app phase hpackage enter)
  obtain ⟨hpasses', hleft⟩ := hleave _ hpasses.sound
  -- The component hangs where the cursor was, and ascending from it leads back there.
  have hchild := hpasses.sound.grown.parent_child (hpasses.growth.mem_children hopens.child)
  rw [hcursor] at hpasses' hleft
  rw [List.foldl_cons, List.foldl_append]
  refine ⟨?_, hleft _ hchild⟩
  have hrest := hpasses.bind (f := fun _ => walk app phase leave) hpasses'
  rw [← walk_append] at hrest
  exact hopens.bind hrest

/-! ## The induction over the syntax -/

variable (app : Application) (phase : Phase)

theorem encloses_type {h : TypeHeader} {members : List Member}
    (hmembers : Returns app phase (Member.eventsOfList members)) :
    Encloses app phase (.enterType (.mk h members)) (Member.eventsOfList members ++
      [.exitTypeBody (.mk h members), .exitType (.mk h members)]) :=
  .bracket rfl hmembers (.type _)

theorem encloses_constructor {d : CallableDecl} (hinner : Returns app phase d.inner) :
    Encloses app phase (.enterConstructor d) (d.inner ++ [.exitConstructor d]) :=
  .bracket rfl hinner (.callable fun _ => rfl)

theorem encloses_method {d : CallableDecl} (hinner : Returns app phase d.inner) :
    Encloses app phase (.enterMethod d) (d.inner ++ [.exitMethod d]) :=
  .bracket rfl hinner (.callable fun _ => rfl)

theorem encloses_constant {d : ConstantDecl} {body : List Member}
    (hbody : Returns app phase (Member.eventsOfList body)) :
    Encloses app phase (.enterConstant d) (Member.eventsOfList body ++ [.exitConstant d]) :=
  .bracket rfl hbody (.constant d)

mutual
theorem returns_type : ∀ d : TypeDecl, Returns app phase d.events
  | .mk h members => by
    rw [TypeDecl.events]
    exact (encloses_type app phase (returns_members members)).returns

theorem returns_types : ∀ ds : List TypeDecl, Returns app phase (TypeDecl.eventsOfList ds)
  | [] => by
    rw [TypeDecl.eventsOfList]
    exact .nil
  | d :: rest => by
    rw [TypeDecl.eventsOfList]
    exact (returns_type d).append (returns_types rest)

theorem returns_member : ∀ m : Member, Returns app phase m.events
  | .type d => by
    rw [Member.events]
    exact returns_type d
  | .constructor d => by
    rw [Member.events]
    exact (encloses_constructor app phase (returns_inner d)).returns
  | .method d => by
    rw [Member.events]
    exact (encloses_method app phase (returns_inner d)).returns
  | .field f => by
    rw [Member.events]
    exact .field f
  | .enumConstant d => by
    rw [Member.events]
    exact returns_constant d

theorem returns_members : ∀ ms : List Member, Returns app phase (Member.eventsOfList ms)
  | [] => by
    rw [Member.eventsOfList]
    exact .nil
  | m :: rest => by
    rw [Member.eventsOfList]
    exact (returns_member m).append (returns_members rest)

theorem returns_inner : ∀ d : CallableDecl, Returns app phase d.inner
  | .mk h localTypes => by
    rw [CallableDecl.inner]
    exact .append (.parameters h.parameters) (returns_types localTypes)

theorem returns_constant : ∀ d : ConstantDecl, Returns app phase d.events
  | .mk h none => by
    rw [ConstantDecl.events]
    have hbody : Returns app phase (Member.eventsOfList []) := by
      rw [Member.eventsOfList]
      exact .nil
    exact (encloses_constant app phase hbody).returns
  | .mk h (some body) => by
    rw [ConstantDecl.events]
    exact (encloses_constant app phase (returns_members body)).returns
end

theorem encloses_member {m : Member} {enter : Event} {rest : List Event}
    (hevents : m.events = enter :: rest) (hm : ∀ f, m ≠ .field f) :
    enter.opens = true ∧ Encloses app phase enter rest := by
  cases m with
  | type d =>
    obtain ⟨h, members⟩ := d
    rw [Member.events, TypeDecl.events] at hevents
    obtain ⟨rfl, rfl⟩ := List.cons.inj hevents
    exact ⟨rfl, encloses_type app phase (returns_members app phase members)⟩
  | constructor d =>
    rw [Member.events] at hevents
    obtain ⟨rfl, rfl⟩ := List.cons.inj hevents
    exact ⟨rfl, encloses_constructor app phase (returns_inner app phase d)⟩
  | method d =>
    rw [Member.events] at hevents
    obtain ⟨rfl, rfl⟩ := List.cons.inj hevents
    exact ⟨rfl, encloses_method app phase (returns_inner app phase d)⟩
  | field f => exact absurd rfl (hm f)
  | enumConstant d =>
    obtain ⟨h, body⟩ := d
    cases body with
    | none =>
      rw [Member.events, ConstantDecl.events] at hevents
      obtain ⟨rfl, rfl⟩ := List.cons.inj hevents
      exact ⟨rfl, encloses_constant app phase (returns_members app phase [])⟩
    | some body =>
      rw [Member.events, ConstantDecl.events] at hevents
      obtain ⟨rfl, rfl⟩ := List.cons.inj hevents
      exact ⟨rfl, encloses_constant app phase (returns_members app phase body)⟩

end Audited

/-! ## The first type of a file -/

theorem Event.opens_of_mem_heading {u : CompilationUnit} {e : Event} (he : e ∈ u.headingEvents) :
    e.opens = false := by
  rcases List.mem_cons.1 he with rfl | he
  · rfl
  · rcases List.mem_append.1 he with he | he
    · obtain ⟨p, -, rfl⟩ := List.mem_map.1 he
      rfl
    · obtain ⟨i, -, rfl⟩ := List.mem_map.1 he
      rfl

namespace CompilationUnit

variable {u : CompilationUnit}

theorem events_eq (u : CompilationUnit) :
    u.events = u.headingEvents ++ (TypeDecl.eventsOfList u.types ++ [.exitUnit u]) := by
  rw [events, headingEvents]
  simp

section First

variable {enter : Event} {before after : List Event} (henter : enter.opens = true)
  (hevents : u.events = before ++ enter :: after)
include henter hevents

/-- A construct starts after the heading. -/
theorem exists_earlier : ∃ earlier, before = u.headingEvents ++ earlier ∧
    TypeDecl.eventsOfList u.types ++ [.exitUnit u] = earlier ++ enter :: after := by
  rw [events_eq] at hevents
  rcases List.append_eq_append_iff.1 hevents with h | ⟨surplus, hsurplus, hrest⟩
  · exact h
  · cases surplus with
    | nil =>
      rw [List.append_nil] at hsurplus
      exact ⟨[], by rw [hsurplus, List.append_nil], hrest.symm⟩
    | cons e surplus =>
      obtain ⟨rfl, -⟩ := List.cons.inj hrest
      have hmem : enter ∈ u.headingEvents := by
        rw [hsurplus]
        exact List.mem_append_right _ List.mem_cons_self
      rw [Event.opens_of_mem_heading hmem] at henter
      cases henter

/-- After the heading a type comes first. -/
theorem first_of_opens : (before = u.headingEvents ∧ ∃ d, enter = .enterType d) ∨
    ∃ d earlier, before = u.headingEvents ++ .enterType d :: earlier := by
  obtain ⟨earlier, rfl, htypes⟩ := exists_earlier henter hevents
  cases hu : u.types with
  | nil =>
    rw [hu, TypeDecl.eventsOfList, List.nil_append] at htypes
    obtain ⟨-, hexit⟩ | ⟨-, hnone⟩ := List.append_eq_singleton_iff.1 htypes.symm
    · obtain ⟨rfl, -⟩ := List.cons.inj hexit
      cases henter
    · cases hnone
  | cons d ds =>
    obtain ⟨h, members⟩ := d
    rw [hu, TypeDecl.eventsOfList, TypeDecl.events, List.cons_append, List.cons_append] at htypes
    cases earlier with
    | nil => exact .inl ⟨List.append_nil _, _, (List.cons.inj htypes).1.symm⟩
    | cons e earlier => exact .inr ⟨_, earlier, by rw [(List.cons.inj htypes).1]⟩

end First

end CompilationUnit

namespace Audited

/-- A type of a file without a package opens the default package first. -/
theorem run_enterType_ensurePackage (app : Application) (phase : Phase) {s : Scope} (hs : s.Sound)
    (hpackage : s.hasPackage = false) (d : TypeDecl) (rest : List Event) (built : List NodeId) :
    (walk app phase (.enterType d :: rest)).run ⟨s, built⟩ =
      (walk app phase (.enterType d :: rest)).run
        ⟨s.ensurePackage app, built ++ [(s.ensurePackage app).cursor]⟩ := by
  have hwalk : walk app phase (.enterType d :: rest) = (ensurePackage app >>= fun _ =>
      declareType app phase d.header >>= fun _ => walk app phase rest) := bind_assoc _ _ _
  rw [hwalk, StateT.run_bind, StateT.run_bind, run_ensurePackage app hs hpackage,
    run_ensurePackage_of_hasPackage app (s.hasPackage_ensurePackage app)]

/-- What the events of a construct do in the scope `s`, seen in the finished tree `t`. The cursor is
moved to the component of the construct, a child of `home`, and ends at `home`. Apart from `opened`
that component is the first that is built, and all that is built later lies below it. -/
structure Enclosed (app : Application) (phase : Phase) (t : Tree) (s : Scope) (home : NodeId)
    (opened : List NodeId) (enter : Event) (rest : List Event) : Prop where
  child : (Scope.step app phase s enter).cursor ∈ t.children home
  returns : ((enter :: rest).foldl (Scope.step app phase) s).cursor = home
  run : ∃ ids, (∀ built, (walk app phase (enter :: rest)).run ⟨s, built⟩ =
      .ok ((), ⟨(enter :: rest).foldl (Scope.step app phase) s,
        built ++ opened ++ (Scope.step app phase s enter).cursor :: ids⟩)) ∧
    ∀ id ∈ ids, t.Below (Scope.step app phase s enter).cursor id

theorem Encloses.enclosed {app : Application} {phase : Phase} {enter : Event} {rest : List Event}
    (h : Encloses app phase enter rest) {s : Scope} (hs : s.Sound) (hpackage : s.hasPackage = true)
    {t : Tree} (ht : ((enter :: rest).foldl (Scope.step app phase) s).tree.Extends t) :
    Enclosed app phase t s s.cursor [] enter rest := by
  obtain ⟨hopens, hcursor⟩ := h s hs hpackage
  obtain ⟨ids, hrun, hids⟩ := hopens.run
  refine ⟨ht.mem_children hopens.child, hcursor, ids, fun built => ?_, fun id hid => ?_⟩
  · rw [List.append_nil]
    exact hrun built
  · exact ht.below (hids id hid)

/-- The first type of a file without a package is enclosed by the default package. -/
theorem Encloses.enclosed_first {app : Application} {phase : Phase} {d : TypeDecl} {rest : List Event}
    (h : Encloses app phase (.enterType d) rest) {s : Scope} (hs : s.Sound)
    (hpackage : s.hasPackage = false) {t : Tree}
    (ht : ((.enterType d :: rest).foldl (Scope.step app phase) s).tree.Extends t) :
    Enclosed app phase t s (s.ensurePackage app).cursor [(s.ensurePackage app).cursor]
      (.enterType d) rest := by
  have hstep : Scope.step app phase (s.ensurePackage app) (.enterType d) =
      Scope.step app phase s (.enterType d) := s.enterType_ensurePackage app phase d.header
  have hfold := s.foldl_enterType_ensurePackage app phase d rest
  rw [← hfold] at ht
  obtain ⟨hchild, hreturns, ids, hrun, hids⟩ :=
    h.enclosed (opens_ensurePackage app hs hpackage).sound (s.hasPackage_ensurePackage app) ht
  rw [hstep] at hchild hrun hids
  rw [hfold] at hreturns hrun
  refine ⟨hchild, hreturns, ids, fun built => ?_, hids⟩
  rw [run_enterType_ensurePackage app phase hs hpackage, hrun, List.append_nil]

end Audited

namespace Scope

theorem follow_ensurePackage {s : Scope} (app : Application) (hs : s.Sound)
    (hpackage : s.hasPackage = false) (hat : s.At []) :
    (s.ensurePackage app).tree.follow root [packageSymbol app.naming.defaultPackage] =
      some (s.ensurePackage app).cursor := by
  have hput := hat.putHere hs (packageComponent app.naming.defaultPackage s.file.toList)
  have htree := (of_clearVisible_eq (clearVisible_openPackage
    { s.entered (packageComponent app.naming.defaultPackage s.file.toList) [] with
      hasPackage := true } app app.naming.defaultPackage)).1
  rw [s.cursor_ensurePackage app hpackage, s.ensurePackage_eq_entered app hpackage, htree]
  exact hput

section Build

variable (s : Scope) (app : Application) (phase : Phase) {u : CompilationUnit}

theorem sound_before (before : List Event) :
    (before.foldl (step app phase) (s.fullReset.seed app)).Sound :=
  (acts_steps (sound_seed s app) before).sound (sound_seed s app)

theorem extends_build {before events after : List Event}
    (hevents : u.events = before ++ events ++ after) :
    (events.foldl (step app phase) (before.foldl (step app phase) (s.fullReset.seed app))).tree.Extends
      (s.build app phase u).1 := by
  have hsound := s.sound_before app phase (before ++ events)
  have hgrowth := (acts_steps hsound after : Acts app phase _ _).growth hsound
  rw [← List.foldl_append, ← hevents, List.foldl_append] at hgrowth
  exact hgrowth

theorem hasPackage_before {before : List Event} {enter : Event}
    (hfirst : (before = u.headingEvents ∧ ∃ d, enter = .enterType d) ∨
      ∃ d earlier, before = u.headingEvents ++ .enterType d :: earlier)
    (h : ¬(u.package = none ∧ before = u.headingEvents)) :
    (before.foldl (step app phase) (s.fullReset.seed app)).hasPackage = true := by
  rcases hfirst with ⟨rfl, -⟩ | ⟨d, earlier, rfl⟩
  · obtain ⟨p, hp⟩ := Option.ne_none_iff_exists'.1 fun hnone => h ⟨hnone, rfl⟩
    exact (s.heading_of_package app phase u hp).2.hasPackage
  · rw [List.foldl_append, List.foldl_cons]
    exact hasPackage_steps _ app phase (hasPackage_enterType _ app phase d.header) earlier

/-- Without a package nothing is built before the first type. -/
theorem start_of_no_package (hp : u.package = none) :
    (s.heading app phase u).hasPackage = false ∧ (s.heading app phase u).cursor = root ∧
      (s.heading app phase u).At [] := by
  have hclear : (s.heading app phase u).clearVisible =
      clearVisible { file := u.source, imports := u.importComponents, revisionId := s.revisionId } :=
    s.heading_of_no_package app phase u hp
  obtain ⟨-, hcursor, -, hpackage, -⟩ := of_clearVisible_eq hclear
  exact ⟨hpackage, hcursor, congrArg some hcursor.symm⟩

end Build

/-- A unit is walked without a check that fails. Each type, constructor, method and enum constant,
with all that is nested in it, returns the cursor to where it was, and what is built for it lies
below its component; only the first type of a unit without a package leaves the cursor at the
default package. The tree in the end is attached as a whole and consistent. -/
theorem cursor_returns (s : Scope) (app : Application) (phase : Phase) (u : CompilationUnit) :
    (∃ built, (Audited.walk app phase u.events).run ⟨s.fullReset.seed app, []⟩ =
      .ok ((), ⟨s.walk app phase u, built⟩)) ∧
    (s.build app phase u).1.WellShaped ∧
    ∀ (before : List Event) (m : Member) (enter : Event) (rest after : List Event),
      u.events = before ++ m.events ++ after → m.events = enter :: rest → (∀ f, m ≠ .field f) →
      let s₀ := before.foldl (step app phase) (s.fullReset.seed app)
      (¬(u.package = none ∧ before = u.headingEvents) →
        Audited.Enclosed app phase (s.build app phase u).1 s₀ s₀.cursor [] enter rest) ∧
      (u.package = none → before = u.headingEvents → s₀.cursor = root ∧ ∃ home,
        (s.build app phase u).1.follow root [packageSymbol app.naming.defaultPackage] = some home ∧
        Audited.Enclosed app phase (s.build app phase u).1 s₀ home [home] enter rest) := by
  refine ⟨?_, (s.grown_build app phase u).wellShaped, ?_⟩
  · obtain ⟨ids, hrun⟩ := Audited.run_walk app phase (sound_seed s app) u.events
    exact ⟨_, hrun []⟩
  · intro before m enter rest after hevents hm hfield s₀
    obtain ⟨henter, hencloses⟩ := Audited.encloses_member app phase hm hfield
    rw [hm] at hevents
    have hsplit : u.events = before ++ enter :: (rest ++ after) := by
      rw [hevents, List.append_assoc, List.cons_append]
    have hs₀ : s₀.Sound := s.sound_before app phase before
    have hfirst := CompilationUnit.first_of_opens henter hsplit
    have ht := s.extends_build app phase hevents
    refine ⟨fun h => hencloses.enclosed hs₀ (s.hasPackage_before app phase hfirst h) ht, ?_⟩
    -- Of what follows the heading only a type can come first, and it is the type that opens the package.
    rintro hnone rfl
    obtain ⟨hpackage, hcursor, hat⟩ := s.start_of_no_package app phase hnone
    obtain ⟨d, rfl⟩ : ∃ d, enter = .enterType d := by
      rcases hfirst with ⟨-, henter⟩ | ⟨d, earlier, hbefore⟩
      · exact henter
      · exact absurd (List.append_right_eq_self.1 hbefore.symm) (List.cons_ne_nil _ _)
    have hens : (s₀.ensurePackage app).Sound :=
      (Audited.opens_ensurePackage app hs₀ hpackage).sound
    have hgrowth : (s₀.ensurePackage app).tree.Extends (s.build app phase u).1 := by
      have hsteps := (acts_steps hens (.enterType d :: rest) : Acts app phase _ _).growth hens
      rw [s₀.foldl_enterType_ensurePackage app phase d rest] at hsteps
      exact hsteps.trans ht
    refine ⟨hcursor, (s₀.ensurePackage app).cursor, ?_, hencloses.enclosed_first hs₀ hpackage ht⟩
    exact hgrowth.follow hens.grown hens.grown.root_lt (follow_ensurePackage app hs₀ hpackage hat)

end Scope

/-! ## A method with a local class -/

def localMethod : CallableDecl :=
  .mk ⟨"m", [], [], [], some "void", default⟩
    [.mk ⟨.classType, "In", [], [], none, [], false, default⟩ []]

/-- `class T { void m() { class In { } } }`. -/
def localType : TypeDecl :=
  .mk ⟨.classType, "T", [], [], none, [], false, default⟩ [.method localMethod]

def localUnit : CompilationUnit where
  sourceName := "T.java"
  package := none
  imports := []
  types := [localType]

theorem events_localType :
    (Member.type localType).events = .enterType localType ::
      ((Member.method localMethod).events ++ [.exitTypeBody localType, .exitType localType]) := by
  rw [Member.events, localType, TypeDecl.events, Member.eventsOfList, Member.eventsOfList,
    List.append_nil]

theorem events_localMethod :
    (Member.method localMethod).events =
      .enterMethod localMethod :: (localMethod.inner ++ [.exitMethod localMethod]) := by
  rw [Member.events]

theorem events_localUnit :
    localUnit.events =
      [.enterUnit localUnit] ++ (Member.type localType).events ++ [.exitUnit localUnit] := by
  rw [Member.events, CompilationUnit.events, localUnit, TypeDecl.eventsOfList, TypeDecl.eventsOfList,
    List.append_nil]
  rfl

/-- The class is enclosed by the default package, and the method by the class. -/
theorem cursor_returns_localUnit :
    let app : Application := { naming := {} }
    let t := (Scope.build {} app .structural localUnit).1
    let after (events : List Event) : Scope :=
      events.foldl (Scope.step app .structural) (Scope.seed (Scope.fullReset {}) app)
    (∃ home, t.follow root [packageSymbol "default"] = some home ∧
      Audited.Enclosed app .structural t (after [.enterUnit localUnit]) home [home]
        (.enterType localType)
        ((Member.method localMethod).events ++ [.exitTypeBody localType, .exitType localType])) ∧
    Audited.Enclosed app .structural t (after [.enterUnit localUnit, .enterType localType])
      (after [.enterUnit localUnit, .enterType localType]).cursor [] (.enterMethod localMethod)
      (localMethod.inner ++ [.exitMethod localMethod]) := by
  intro app t after
  have hreturns := (Scope.cursor_returns {} app .structural localUnit).2.2
  constructor
  · exact ((hreturns _ _ _ _ _ events_localUnit events_localType nofun).2 rfl rfl).2
  · have hevents : localUnit.events = [.enterUnit localUnit, .enterType localType] ++
        (Member.method localMethod).events ++
          [.exitTypeBody localType, .exitType localType, .exitUnit localUnit] := by
      rw [events_localUnit, events_localType]
      simp
    refine (hreturns _ _ _ _ _ hevents events_localMethod nofun).1 fun h => ?_
    exact absurd (congrArg List.length h.2) (by decide)

end SymbolTable
