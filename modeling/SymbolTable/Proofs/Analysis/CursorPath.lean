import SymbolTable.Proofs.Analysis.DeclaredTypes
import SymbolTable.Proofs.Analysis.Exposure
import SymbolTable.Proofs.Analysis.ProgramScope

/-!
# Where the cursor is

Each construct moves the cursor down when it starts and back up when it ends. So below the heading
of a file the path of the cursor can be read off the events alone, without the tree: `pathAfter`
says what one event does to it, and `at_steps` that a walk keeps to it, in either phase.
-/

namespace SymbolTable

open SymbolTable.Tree (root)

def CallableHeader.symbol (kind : ComponentKind) (h : CallableHeader) : Symbol :=
  ⟨kind, h.name, some h.signature⟩

def ConstantHeader.symbol (h : ConstantHeader) : Symbol := ⟨.enumConstant, h.name, none⟩

/-- The path of the cursor after an event, from the path before it. -/
def Event.pathAfter (path : List Symbol) : Event → List Symbol
  | .enterType d => path ++ [d.header.symbol]
  | .enterConstant d => path ++ [d.header.symbol]
  | .enterConstructor d => path ++ [d.header.symbol .constructor]
  | .enterMethod d => path ++ [d.header.symbol .method]
  | .exitType _ | .exitConstant _ | .exitConstructor _ | .exitMethod _ => path.dropLast
  | .enterPackage p => path ++ p.segments.map packageSymbol
  | .enterUnit _ | .exitUnit _ | .enterImport _ | .exitTypeBody _ | .enterParameter _
  | .enterField _ => path

namespace Scope

/-- The cursor is at the path. -/
def At (s : Scope) (path : List Symbol) : Prop := s.tree.follow root path = some s.cursor

section Steps

variable (app : Application) (phase : Phase) {s s' : Scope} (hs : s.Sound) {path : List Symbol}
include hs

theorem At.of_growth (h : s.At path) (hgrowth : s.tree.Extends s'.tree)
    (hcursor : s'.cursor = s.cursor) : s'.At path := by
  rw [At, hcursor]
  exact hgrowth.follow hs.grown hs.grown.root_lt h

/-- What is put at the cursor is found one step further. -/
theorem At.putHere (h : s.At path) (c : Component) :
    (s.putHere c).2.tree.follow root (path ++ [c.symbol]) = some (s.putHere c).1 := by
  rw [Scope.putHere, put_eq]
  exact hs.grown.follow_put h

theorem At.ascend (h : s.At path) : s.ascend.At path.dropLast := by
  rcases List.eq_nil_or_concat' path with rfl | ⟨outer, sym, rfl⟩
  · have hcursor : root = s.cursor := Option.some.inj h
    have hparent : s.tree.parent s.cursor = none := hcursor ▸ hs.grown.parent_root
    rw [Scope.ascend, hparent]
    exact h
  · rw [At, Tree.follow_concat] at h
    obtain ⟨p, hp, hchild⟩ := Option.bind_eq_some_iff.1 h
    have hparent := hs.grown.parent_child (Tree.mem_children_of_childWith hchild)
    rw [Scope.ascend, hparent, List.dropLast_concat]
    exact hp

theorem at_fill {listed : Scope} (hlisted : Acts app phase s listed) {id : NodeId}
    (hid : s.tree.follow root path = some id) (ps : List TypeParameterDecl) :
    ((listed.declareTypeParameters id ps).moveTo id).At path :=
  ((acts_fill hs hlisted (hs.grown.follow_lt hs.grown.root_lt hid) ps).growth hs).follow hs.grown
    hs.grown.root_lt hid

theorem at_declareType (hpackage : s.hasPackage = true) (h : s.At path) (header : TypeHeader) :
    (s.declareType app header).2.At (path ++ [header.symbol]) := by
  have hput : Acts app .declaration s (s.putHere (s.typeComponent header)).2 :=
    acts_putHere hs (plain_typeComponent hs.file header)
  have hsput := hput.sound hs
  have hself := h.putHere hs (s.typeComponent header)
  rw [symbol_typeComponent] at hself
  have hid := hsput.grown.follow_lt hsput.grown.root_lt hself
  rw [declareType, s.ensurePackage_of_hasPackage app hpackage]
  refine at_fill app .declaration hsput ?_ hself header.typeParameters
  split
  · exact acts_puts _ hsput.imports hsput hid
  · exact .refl _

theorem at_enterType (hpackage : s.hasPackage = true) (h : s.At path) (header : TypeHeader) :
    (s.enterType app phase header).At (path ++ [header.symbol]) := by
  have hdeclare : Acts app phase s (s.declareType app header).2 := acts_declareType hs header
  have hmarks := (relates_relateType (s.declareType app header).2 app
    (s.declareType app header).1 phase header).marks
  rw [enterType_eq]
  exact (at_declareType app hs hpackage h header).of_growth (hdeclare.sound hs) hmarks.growth
    hmarks.alike.cursor

theorem at_enterCallable (h : s.At path) {kind : ComponentKind} (hroot : kind ≠ .root)
    (hconstant : kind ≠ .enumConstant) (header : CallableHeader) :
    (s.enterCallable app phase kind header).At (path ++ [header.symbol kind]) := by
  have hput : Acts app phase s (s.putHere (callableComponent kind header)).2 :=
    acts_putHere hs (plain_callableComponent hroot hconstant header)
  have hself := h.putHere hs (callableComponent kind header)
  rw [symbol_callableComponent] at hself
  have hid := hs.put_fst_lt s.cursor (callableComponent kind header)
  have hdeclare : Acts app phase s (s.declareCallable kind header).2 :=
    hput.trans (acts_fill (hput.sound hs) (.refl _) hid header.typeParameters)
  have hmarks := (relates_relateCallable (s.declareCallable kind header).2 app
    (s.declareCallable kind header).1 phase header).marks
  rw [enterCallable_eq]
  have hat : (s.declareCallable kind header).2.At (path ++ [header.symbol kind]) :=
    at_fill app phase (hput.sound hs) (.refl _) hself header.typeParameters
  exact hat.of_growth (hdeclare.sound hs) hmarks.growth hmarks.alike.cursor

theorem at_enterConstant (h : s.At path) (header : ConstantHeader) :
    (s.enterConstant app phase header).At (path ++ [header.symbol]) := by
  have hroot : (constantComponent header).kind ≠ .root := kind_constantComponent header ▸ nofun
  have hself := h.putHere hs (constantComponent header)
  rw [symbol_constantComponent] at hself
  have hmarks := marks_relateConstant (s.enter (constantComponent header)).2 app
    (s.enter (constantComponent header)).1 phase s.cursor
  have hat : (s.enter (constantComponent header)).2.At (path ++ [header.symbol]) := hself
  rw [enterConstant_eq]
  exact hat.of_growth (hs.enter hroot) hmarks.growth hmarks.alike.cursor

end Steps

/-! ## Walks -/

theorem cursor_put (s : Scope) (parent : NodeId) (c : Component) :
    (s.put parent c).2.cursor = s.cursor := by rw [put_eq]

theorem cursor_ensureDefaultConstructor (s : Scope) (owner : NodeId) :
    (s.ensureDefaultConstructor owner).cursor = s.cursor := by
  unfold ensureDefaultConstructor
  split
  · rfl
  · exact s.cursor_put owner _

theorem cursor_exitTypeBody (s : Scope) (h : TypeHeader) : (s.exitTypeBody h).cursor = s.cursor := by
  unfold exitTypeBody
  split
  · exact s.cursor_ensureDefaultConstructor _
  · exact s.cursor_ensureDefaultConstructor _
  · rfl
  · rfl

section Walk

variable (app : Application) (phase : Phase) {s : Scope} (hs : s.Sound)
  (hpackage : s.hasPackage = true) {path : List Symbol} (h : s.At path)
include hs hpackage h

theorem at_step {e : Event} (he : e.isHeading = false) :
    (step app phase s e).At (e.pathAfter path) := by
  have hstay : (step app phase s e).cursor = s.cursor → (step app phase s e).At path :=
    h.of_growth hs ((acts_step hs e).growth hs)
  cases e with
  | enterPackage p => cases he
  | enterImport i => cases he
  | enterUnit u => exact h
  | exitUnit u => exact h
  | enterType d => exact at_enterType app phase hs hpackage h d.header
  | exitTypeBody d => exact hstay (s.cursor_exitTypeBody d.header)
  | exitType d => exact h.ascend hs
  | enterConstant d => exact at_enterConstant app phase hs h d.header
  | exitConstant d =>
    have hconstructor : Acts app phase s (s.ensureDefaultConstructor s.cursor) :=
      acts_ensureDefaultConstructor hs.cursor_lt
    have hat := h.of_growth hs (hconstructor.growth hs) (s.cursor_ensureDefaultConstructor _)
    exact hat.ascend (hconstructor.sound hs)
  | enterConstructor d =>
    exact at_enterCallable app phase hs h (by decide) (by decide) d.header
  | exitConstructor d => exact h.ascend hs
  | enterMethod d => exact at_enterCallable app phase hs h (by decide) (by decide) d.header
  | exitMethod d => exact h.ascend hs
  | enterParameter p => exact hstay (s.cursor_put s.cursor _)
  | enterField f =>
    refine hstay (List.foldlRecOn f.names _ (motive := fun s' : Scope => s'.cursor = s.cursor) rfl ?_)
    exact fun s' hcursor name _ => (s'.cursor_put s'.cursor _).trans hcursor

/-- The cursor follows the path that the events spell. -/
theorem at_steps {events : List Event} (hevents : ∀ e ∈ events, e.isHeading = false) :
    (events.foldl (step app phase) s).At (events.foldl Event.pathAfter path) := by
  induction events generalizing s path with
  | nil => exact h
  | cons e events ih =>
    have he := hevents e List.mem_cons_self
    have hview := s.sameView_step app phase hpackage he
    exact ih ((acts_step hs e).sound hs) (hview.hasPackage.trans hpackage)
      (at_step app phase hs hpackage h he) fun e' he' => hevents e' (List.mem_cons_of_mem e he')

end Walk

end Scope

/-! ## Constructs return -/

mutual
theorem TypeDecl.foldl_pathAfter : ∀ (path : List Symbol) (d : TypeDecl),
    d.events.foldl Event.pathAfter path = path
  | path, .mk h members => by
    rw [TypeDecl.events, List.foldl_cons, List.foldl_append, Member.foldl_pathAfterOfList]
    exact List.dropLast_concat

theorem TypeDecl.foldl_pathAfterOfList : ∀ (path : List Symbol) (ds : List TypeDecl),
    (TypeDecl.eventsOfList ds).foldl Event.pathAfter path = path
  | path, [] => by rw [TypeDecl.eventsOfList]; rfl
  | path, d :: rest => by
    rw [TypeDecl.eventsOfList, List.foldl_append, TypeDecl.foldl_pathAfter,
      TypeDecl.foldl_pathAfterOfList]

theorem Member.foldl_pathAfter : ∀ (path : List Symbol) (m : Member),
    m.events.foldl Event.pathAfter path = path
  | path, .type d => by
    rw [Member.events]
    exact TypeDecl.foldl_pathAfter path d
  | path, .constructor d => by
    rw [Member.events, List.foldl_cons, List.foldl_append, CallableDecl.foldl_pathAfter]
    exact List.dropLast_concat
  | path, .method d => by
    rw [Member.events, List.foldl_cons, List.foldl_append, CallableDecl.foldl_pathAfter]
    exact List.dropLast_concat
  | path, .field f => by rw [Member.events]; rfl
  | path, .enumConstant d => by
    rw [Member.events]
    exact ConstantDecl.foldl_pathAfter path d

theorem Member.foldl_pathAfterOfList : ∀ (path : List Symbol) (ms : List Member),
    (Member.eventsOfList ms).foldl Event.pathAfter path = path
  | path, [] => by rw [Member.eventsOfList]; rfl
  | path, m :: rest => by
    rw [Member.eventsOfList, List.foldl_append, Member.foldl_pathAfter,
      Member.foldl_pathAfterOfList]

theorem CallableDecl.foldl_pathAfter : ∀ (path : List Symbol) (d : CallableDecl),
    d.inner.foldl Event.pathAfter path = path
  | path, .mk h localTypes => by
    have hparameters : (h.parameters.map Event.enterParameter).foldl Event.pathAfter path = path := by
      rw [List.foldl_map]
      exact List.foldl_fixed ..
    rw [CallableDecl.inner, List.foldl_append, hparameters, TypeDecl.foldl_pathAfterOfList]

theorem ConstantDecl.foldl_pathAfter : ∀ (path : List Symbol) (d : ConstantDecl),
    d.events.foldl Event.pathAfter path = path
  | path, .mk h none => by
    rw [ConstantDecl.events]
    exact List.dropLast_concat
  | path, .mk h (some body) => by
    rw [ConstantDecl.events, List.foldl_cons, List.foldl_append, Member.foldl_pathAfterOfList]
    exact List.dropLast_concat
end

end SymbolTable
