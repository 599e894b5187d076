import SymbolTable.Proofs.Analysis.Arrival

/-!
# In the midst of a file

Below the heading of a file that the program contains, resolution relies on little: where the cursor
is, that every node of the file has its copy in the program, and what the file sees. Edges add
nothing to it and take nothing away.
-/

namespace SymbolTable

open SymbolTable.Tree (root)

namespace Scope

/-! ## Searching outwards -/

section Enclosing

variable (s : Scope) (app : Application) (name : String)

/-- A type or a type parameter of the name. -/
def acceptsMember (name : String) (c : Component) : Bool := c.isNamedType name || c.isTypeParameter name

/-- A scope below the packages is searched for members, in the file before the program, and then for
its own name before the scope around it. -/
theorem resolveEnclosing_succ (fuel : Nat) {id : NodeId} (hroot : (s.tree.node id).kind ≠ .root)
    (hpackage : (s.tree.node id).kind ≠ .package) :
    s.resolveEnclosing app name (fuel + 1) id =
      (s.fileMember id (acceptsMember name)).or ((s.programMember app id (acceptsMember name)).or
        (if (s.tree.node id).isNamedType name then some (.inFile id)
          else (s.tree.parent id).bind (s.resolveEnclosing app name fuel))) := by
  have hprobe : acceptsMember name = fun c => c.isNamedType name || c.isTypeParameter name := rfl
  simp only [resolveEnclosing, hprobe]
  cases hkind : (s.tree.node id).kind
  case root => exact absurd hkind hroot
  case package => exact absurd hkind hpackage
  all_goals
    cases s.fileMember id fun c => c.isNamedType name || c.isTypeParameter name with
    | some found => rfl
    | none =>
      cases s.programMember app id fun c => c.isNamedType name || c.isTypeParameter name with
      | some found => rfl
      | none =>
        simp only [Option.none_or]
        split
        · rfl
        · cases s.tree.parent id <;> rfl

/-- The search ends at a package, whose types so far it still takes. -/
theorem resolveEnclosing_package (fuel : Nat) {id : NodeId}
    (hpackage : (s.tree.node id).kind = .package) :
    s.resolveEnclosing app name (fuel + 1) id = s.fileMember id (·.isNamedType name) := by
  rw [resolveEnclosing]
  simp only [hpackage]

theorem resolveEnclosing_root (fuel : Nat) {id : NodeId} (hroot : (s.tree.node id).kind = .root) :
    s.resolveEnclosing app name (fuel + 1) id = none := by
  rw [resolveEnclosing]
  simp only [hroot]

theorem resolveSimple_eq (place : NodeId) : s.resolveSimple app place name =
    (s.resolveEnclosing app name s.tree.size place).or
      ((s.findVisible app name (·.kind.isTypeDeclaration)).map .known) := by
  rw [resolveSimple]
  cases s.resolveEnclosing app name s.tree.size place <;> rfl

end Enclosing

/-- The scope is below the heading of a file that the program contains, with the cursor at the
path. -/
structure Midway (s : Scope) (app : Application) (u : CompilationUnit) (path : List Symbol) :
    Prop where
  grown : s.tree.Grown
  cursor : s.At path
  copied : ∀ {x j}, s.tree.follow root x = some j → ∃ k, app.components.follow root x = some k ∧
    (app.components.node k).symbol = (s.tree.node j).symbol ∧
    (anonymousMark ∈ (s.tree.node j).attributes →
      anonymousMark ∈ (app.components.node k).attributes) ∧
    ∀ nested, app.components.qualifiedName k nested = s.tree.qualifiedName j nested
  views : s.Views app u

namespace Midway

variable {s s' : Scope} {app : Application} {u : CompilationUnit} {path : List Symbol}

theorem of_alike (h : s.Midway app u path) (ha : s.Alike s') (hview : s.SameView s') :
    s'.Midway app u path where
  grown := h.grown.of_sameShape ha.tree.sameShape
  cursor := by
    rw [At, ha.tree.sameShape.follow, ha.cursor]
    exact h.cursor
  copied {x j} hj := by
    have hgrown := h.grown.of_sameShape ha.tree.sameShape
    have hj' := hj
    rw [ha.tree.sameShape.follow] at hj'
    obtain ⟨k, hk, hsymbol, hmarked, hname⟩ := h.copied hj'
    refine ⟨k, hk, hsymbol.trans (ha.tree.node j).symbol.symm,
      fun hmark => hmarked ((ha.tree.node j).marked.1 hmark), fun nested => ?_⟩
    rw [hname, Tree.qualifiedName_eq_of_follow h.grown hgrown (ha.tree.node root).symbol hj' hj]
  views := h.views.of_sameView hview

end Midway

/-- Below the heading every point of a walk is midway. -/
theorem midway_walkTo {naming : Naming} {libraries : List Library} {units : List CompilationUnit}
    {app : Application} (happ : (analyze naming libraries units).1 = app) {u : CompilationUnit}
    (hu : u ∈ units) (s : Scope) (phase : Phase) (n : Nat) {path : List Symbol}
    (hcursor : (s.walkTo app phase u n).At path) (hviews : (s.walkTo app phase u n).Views app u) :
    (s.walkTo app phase u n).Midway app u path where
  grown := (s.sound_walkTo app phase u n).grown
  cursor := hcursor
  copied hj := by
    obtain ⟨k, hk, hsymbol, hattributes, hname⟩ := exists_copy_analyze happ hu s phase n hj
    exact ⟨k, hk, hsymbol, hattributes _, hname⟩
  views := hviews

end Scope

end SymbolTable
