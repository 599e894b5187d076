import SymbolTable.Proofs.Analysis.Reading

/-!
# Reading a name before the file is complete

While a file is walked for its edges, only a part of it is in the tree. What is missing is found in
the program, so a name means what the program says it means, at any time: provided that coordinates
are legible, that what the file declares with a name is not marked as anonymous, and that a type
that shares its file with others is the first of its name that the file sees.
-/

namespace SymbolTable

open SymbolTable.Tree (root)
open SymbolTable.Tree.Entry (attributesOf)

/-- A type that shares its file with others is what the file finds under its name. -/
def CompilationUnit.SeesOwnTypes (app : Application) (u : CompilationUnit) : Prop :=
  ∀ d ∈ u.types, (∃ e ∈ u.types, e.header.symbol ≠ d.header.symbol) →
    ∀ id ∈ app.components.follow root (u.packagePath app.naming ++ [d.header.symbol]),
      (app.components.node id).isNamedType d.header.name = true →
        app.firstType (u.searched app) d.header.name = some (.program id)

namespace Scope

/-- The file as far as it has been walked is a part of the program. -/
structure Mirrors (s : Scope) (app : Application) (u : CompilationUnit) : Prop where
  grown : s.tree.Grown
  symbol_root : (app.components.node root).symbol = (s.tree.node root).symbol
  copied : ∀ {x j}, s.tree.follow root x = some j → ∃ k, app.components.follow root x = some k
  marked : ∀ {x j k}, s.tree.follow root x = some j → app.components.follow root x = some k →
    (s.tree.node j).kind.isTypeDeclaration = true →
      (anonymousMark ∈ (app.components.node k).attributes ↔
        anonymousMark ∈ (s.tree.node j).attributes)
  topLevel : ∀ {sym : Symbol}, sym.kind.isTypeDeclaration = true →
    (s.tree.entry (u.packagePath app.naming ++ [sym])).isSome → ∃ d ∈ u.types, d.header.symbol = sym
  views : s.Views app u

/-- A resolved name and the component that it stands for in the program. -/
inductive Denotes (s : Scope) (app : Application) : Resolved → ComponentRef → Prop
  | inFile {x : List Symbol} {j k : NodeId} (hx : x ≠ []) (hj : s.tree.follow root x = some j)
      (hk : app.components.follow root x = some k) : Denotes s app (.inFile j) (.program k)
  | known (r : ComponentRef) : Denotes s app (.known r) r

theorem Denotes.map_known (s : Scope) (app : Application) (found : Option ComponentRef) :
    Option.Rel (s.Denotes app) (found.map .known) found := by
  cases found with
  | none => exact .none
  | some r => exact .some (.known r)

variable {s : Scope} {app : Application} {u : CompilationUnit} (hs : s.Mirrors app u)
  (happ : app.components.Grown) (hlegible : app.components.Legible app.naming.delimiter)

section Members

variable {x : List Symbol} {j k : NodeId} (hj : s.tree.follow root x = some j)
  (hk : app.components.follow root x = some k) {accept : Component → Bool}
  (haccept : TypeProbe accept)

include hs hj hk haccept in
theorem Mirrors.accept_eq : accept (app.components.node k) = accept (s.tree.node j) :=
  haccept.congr (Tree.symbol_eq_of_follow hs.symbol_root hj hk) (hs.marked hj hk)

include hs happ hlegible hj hk haccept in
/-- In the program the member is looked for by coordinate, under which another component without
members may come first. -/
theorem Mirrors.programMember (hx : x ≠ []) :
    Option.Rel (s.Denotes app) (s.programMember app j accept)
      (app.memberOf (.program k) accept) := by
  have hcoordinate : s.tree.coordinate j app.naming.delimiter =
      app.components.coordinate k app.naming.delimiter := by
    rw [hs.grown.coordinate_of_follow hj, happ.coordinate_of_follow hk]
  have hlt := happ.follow_lt happ.root_lt hk
  have hroot := (happ.ne_root_of_follow hk).2 hx
  rw [Scope.programMember, programScope, hcoordinate, Application.findInProgram]
  by_cases hempty : app.components.coordinate k app.naming.delimiter = ""
  · have hinert := Application.inert_program (hlegible.spelled k hlt hroot hempty)
    rw [hempty, happ.locate_eq, if_pos rfl, hinert.memberOf haccept]
    exact .none
  · obtain ⟨i, hi, rfl | ⟨hinert, hinert'⟩⟩ := hlegible.locate happ hlt hroot hempty
    · rw [hi]
      exact Denotes.map_known s app _
    · have hnone := (Application.inert_program hinert').memberOf haccept
      rw [Application.memberOf] at hnone
      rw [hi, (Application.inert_program hinert).memberOf haccept, Option.map_some]
      simp only [hnone]
      exact .none

include hs happ hlegible hj hk haccept in
/-- A member is found in the file or, failing that, in the program. -/
theorem Mirrors.member (hx : x ≠ []) :
    Option.Rel (s.Denotes app) ((s.fileMember j accept).or (s.programMember app j accept))
      (app.memberOf (.program k) accept) := by
  have hmember : app.memberOf (.program k) accept =
      ((app.components.children k).find? fun c => accept (app.components.node c)).map .program :=
    List.find?_map ..
  cases hfile : (s.tree.children j).find? fun c => accept (s.tree.node c) with
  | some c =>
    have hc := hs.grown.childWith_iff.2 ⟨List.mem_of_find?_eq_some hfile, rfl⟩
    have hpath := Tree.follow_of_childWith hj hc
    obtain ⟨c', hc'⟩ := hs.copied hpath
    have hfits : accept (s.tree.node c) = true :=
      List.find?_some (p := fun c => accept (s.tree.node c)) hfile
    have hfits' := (hs.accept_eq hpath hc' haccept).trans hfits
    have hchild : c' ∈ app.components.children k := by
      have hc' := hc'
      rw [Tree.follow_concat, hk] at hc'
      exact Tree.mem_children_of_childWith hc'
    rw [fileMember, hfile, hmember, hlegible.find?_children happ haccept hchild hfits']
    exact .some (.inFile (List.append_ne_nil_of_right_ne_nil x (List.cons_ne_nil _ [])) hpath hc')
  | none =>
    rw [fileMember, hfile, Option.map_none, Option.none_or]
    exact hs.programMember happ hlegible hj hk haccept hx

end Members

include hs happ in
theorem Mirrors.describe_eq {found : Resolved} {r : ComponentRef} (h : s.Denotes app found r) :
    s.describe app found = (app.qualifiedName r, (app.get r).kind) := by
  cases h with
  | known r => rfl
  | inFile hx hj hk =>
    have hname := Tree.qualifiedName_eq_of_follow hs.grown happ hs.symbol_root hj hk
    have hkind := congrArg Symbol.kind (Tree.symbol_eq_of_follow hs.symbol_root hj hk)
    exact Prod.ext (hname _).symm hkind.symm

/-! ## From the inside out -/

/-- What a simple name is resolved to, from a node outwards and then in sight. -/
def sighted (s : Scope) (app : Application) (name : String) (fuel : Nat) (id : NodeId) :
    Option Resolved :=
  (s.resolveEnclosing app name fuel id).or
    ((s.findVisible app name (·.kind.isTypeDeclaration)).map .known)

section Outwards

variable {name : String} {outer : List Symbol} {sym : Symbol} {p j : NodeId} {fuel : Nat}
  (hp : s.tree.follow root (u.packagePath app.naming ++ outer.reverse) = some p)
  (hj : s.tree.follow root (u.packagePath app.naming ++ (sym :: outer).reverse) = some j)
include hs happ hlegible hp hj

/-- One step outwards. -/
theorem Mirrors.sighted_succ (hroot : sym.kind ≠ .root) (hpackage : sym.kind ≠ .package)
    (houter : (s.tree.node j).isNamedType name = false →
      Option.Rel (s.Denotes app) (s.sighted app name fuel p) (app.outwards u name outer)) :
    Option.Rel (s.Denotes app) (s.sighted app name (fuel + 1) j)
      (app.outwards u name (sym :: outer)) := by
  have hpath : u.packagePath app.naming ++ (sym :: outer).reverse =
      u.packagePath app.naming ++ outer.reverse ++ [sym] := by
    rw [List.reverse_cons, List.append_assoc]
  have hne : u.packagePath app.naming ++ (sym :: outer).reverse ≠ [] := by
    rw [hpath]
    exact List.append_ne_nil_of_right_ne_nil _ (List.cons_ne_nil _ _)
  obtain ⟨k, hk⟩ := hs.copied hj
  have hself := hs.accept_eq hj hk (.isNamedType name)
  have hmember := hs.member happ hlegible hj hk (.acceptsMember name) hne
  rw [Application.outwards, Application.around, hk, Option.bind_some, Option.or_assoc]
  rw [hpath] at hj
  have hkind : (s.tree.node j).kind = sym.kind :=
    congrArg Symbol.kind (Tree.symbol_of_follow_concat hj)
  rw [sighted, resolveEnclosing_succ _ _ _ _ (hkind ▸ hroot) (hkind ▸ hpackage),
    hs.grown.parent_of_follow hp hj, ← Option.or_assoc, Option.or_assoc]
  refine rel_or hmember ?_
  rw [hself]
  cases hnamed : (s.tree.node j).isNamedType name with
  | true => exact .some (.inFile hne (hpath ▸ hj) hk)
  | false =>
    simp only [Bool.false_eq_true, if_false, Option.bind_some, Option.none_or]
    exact houter hnamed

end Outwards

section TopLevel

variable {name : String} {top : Symbol} {p j : NodeId} {fuel : Nat}
  (hp : s.tree.follow root (u.packagePath app.naming) = some p)
  (hj : s.tree.follow root (u.packagePath app.naming ++ [top]) = some j)
  (hown : u.SeesOwnTypes app) (htop : ∃ d ∈ u.types, d.header.symbol = top)
include hs hp hj hown htop

/-- Another type of the file is what the file finds under its name. -/
theorem Mirrors.firstType_eq (hnot : (s.tree.node j).isNamedType name = false) {c : NodeId}
    (hc : c ∈ s.tree.children p) (hfits : (s.tree.node c).isNamedType name = true) :
    ∃ k, app.components.follow root (u.packagePath app.naming ++ [(s.tree.node c).symbol]) =
        some k ∧ app.firstType (u.searched app) name = some (.program k) := by
  have hpath := Tree.follow_of_childWith hp (hs.grown.childWith_iff.2 ⟨hc, rfl⟩)
  obtain ⟨d, hd, hsymbol⟩ := hs.topLevel (Component.isTypeDeclaration_of_isNamedType hfits)
    (Tree.isSome_entry_iff.2 ⟨c, hpath⟩)
  have hname : d.header.name = name :=
    (congrArg Symbol.value hsymbol).trans (Component.value_of_isNamedType hfits)
  obtain ⟨e, he, hesymbol⟩ := htop
  -- The type at `j` shares the file with it, and is another one, since `j` is not named so.
  have hother : e.header.symbol ≠ d.header.symbol := by
    rw [hesymbol, hsymbol]
    intro heq
    rw [← heq, hj] at hpath
    rw [Option.some.inj hpath, hfits] at hnot
    cases hnot
  obtain ⟨k, hk⟩ := hs.copied hpath
  have hnamed := (hs.accept_eq hpath hk (.isNamedType name)).trans hfits
  refine ⟨k, hk, ?_⟩
  rw [← hname]
  exact hown d hd ⟨e, he, hother⟩ k (hsymbol ▸ hk) (hname ▸ hnamed)

/-- Seen from a top-level type, another type of the file is the same whether the file has it already
or only the program. -/
theorem Mirrors.sighted_package (hfuel : p < fuel)
    (hnot : (s.tree.node j).isNamedType name = false) :
    Option.Rel (s.Denotes app) (s.sighted app name fuel p) (app.outwards u name []) := by
  obtain ⟨fuel, rfl⟩ : ∃ n, fuel = n + 1 := ⟨fuel - 1, (Nat.succ_pred_eq_of_pos
    (Nat.lt_of_le_of_lt (Nat.zero_le p) hfuel)).symm⟩
  have hvisible : Option.Rel (s.Denotes app)
      ((s.findVisible app name (·.kind.isTypeDeclaration)).map .known)
      (app.firstType (u.searched app) name) := by
    rw [hs.views.findVisible]
    exact Denotes.map_known s app _
  obtain ⟨names, hnames⟩ := u.exists_packagePath app.naming
  have hiff := kind_eq_package_iff hs.grown (hnames ▸ hp)
  rw [sighted, Application.outwards]
  -- The search outwards ends at the package, whose types it looks at, or else at the root.
  by_cases hnil : names.map packageSymbol = []
  · rw [hnames, hnil] at hp
    obtain rfl : root = p := Option.some.inj hp
    rw [resolveEnclosing_root _ _ _ _ hs.grown.kind_root, Option.none_or]
    exact hvisible
  · rw [resolveEnclosing_package _ _ _ _ (hiff.2 hnil), fileMember]
    cases hfile : (s.tree.children p).find? fun c => (s.tree.node c).isNamedType name with
    | none => exact hvisible
    | some c =>
      have hc := List.mem_of_find?_eq_some hfile
      have hfits : (s.tree.node c).isNamedType name = true :=
        List.find?_some (p := fun c => (s.tree.node c).isNamedType name) hfile
      obtain ⟨k, hk, hfirst⟩ := hs.firstType_eq hp hj hown htop hnot hc hfits
      have hpath := Tree.follow_of_childWith hp (hs.grown.childWith_iff.2 ⟨hc, rfl⟩)
      rw [hfirst]
      exact .some (.inFile (List.append_ne_nil_of_right_ne_nil _ (List.cons_ne_nil _ _)) hpath hk)

end TopLevel

/-! ## Whole texts -/

theorem memberType_inFile (s : Scope) (app : Application) (j : NodeId) (name : String) :
    s.memberType app (.inFile j) name =
      (s.fileMember j (·.isNamedType name)).or (s.programMember app j (·.isNamedType name)) := by
  rw [memberType]
  cases s.fileMember j (·.isNamedType name) <;> rfl

theorem selectType_eq (s : Scope) (app : Application) (place : NodeId) (text : String) :
    s.selectType app place text =
      match TypeText.segments (TypeText.erase text) with
      | [] => none
      | first :: rest =>
        ((s.sighted app first s.tree.size place).bind fun start =>
          rest.foldlM (fun found segment => s.memberType app found segment) start).or
          (if rest.isEmpty then none
            else (resolveQualified app (TypeText.erase text)).map .known) := by
  unfold selectType
  simp only
  generalize TypeText.segments (TypeText.erase text) = segments
  cases segments with
  | nil => rfl
  | cons first rest =>
    have hsimple : s.resolveSimple app place first = s.sighted app first s.tree.size place :=
      s.resolveSimple_eq app first place
    simp only [resolveChain, hsimple]
    cases (s.sighted app first s.tree.size place).bind fun start =>
      rest.foldlM (fun found segment => s.memberType app found segment) start with
    | some found => rfl
    | none => rfl

section Reading

variable {top : Symbol} (hown : u.SeesOwnTypes app) (htop : ∃ d ∈ u.types, d.header.symbol = top)
include hs happ hlegible

include hown htop in
/-- Seen from inside of a top-level type, a simple name means what the program says. -/
theorem Mirrors.sighted_outwards {name : String} {inner : List Symbol}
    (hinner : ∀ sym ∈ inner, sym.kind ≠ .root ∧ sym.kind ≠ .package) {j : NodeId} {fuel : Nat}
    (hj : s.tree.follow root (u.packagePath app.naming ++ (inner ++ [top]).reverse) = some j)
    (hfuel : j < fuel) :
    Option.Rel (s.Denotes app) (s.sighted app name fuel j)
      (app.outwards u name (inner ++ [top])) := by
  obtain ⟨fuel, rfl⟩ : ∃ n, fuel = n + 1 := ⟨fuel - 1, (Nat.succ_pred_eq_of_pos
    (Nat.lt_of_le_of_lt (Nat.zero_le j) hfuel)).symm⟩
  induction inner generalizing j fuel with
  | nil =>
    have hself := hj
    rw [List.nil_append, List.reverse_singleton, Tree.follow_concat] at hj
    obtain ⟨p, hp, hchild⟩ := Option.bind_eq_some_iff.1 hj
    have hlt := hs.grown.lt_child (Tree.mem_children_of_childWith hchild)
    have hkinds : top.kind ≠ .root ∧ top.kind ≠ .package := by
      obtain ⟨d, -, rfl⟩ := htop
      exact kind_ne_of_typeKind d.header.kind
    have hpackage : s.tree.follow root (u.packagePath app.naming ++ [].reverse) = some p := by
      rwa [List.reverse_nil, List.append_nil]
    refine hs.sighted_succ happ hlegible hpackage hself hkinds.1 hkinds.2 ?_
    exact hs.sighted_package hp hself hown htop
      (Nat.lt_of_lt_of_le hlt (Nat.le_of_lt_succ hfuel))
  | cons sym inner ih =>
    have hself := hj
    rw [List.cons_append, List.reverse_cons, ← List.append_assoc, Tree.follow_concat] at hj
    obtain ⟨p, hp, hchild⟩ := Option.bind_eq_some_iff.1 hj
    have hlt := hs.grown.lt_child (Tree.mem_children_of_childWith hchild)
    obtain ⟨⟨hroot, hpackage⟩, hinner⟩ := List.forall_mem_cons.1 hinner
    refine hs.sighted_succ happ hlegible hp hself hroot hpackage fun _ => ?_
    have hp' := Nat.lt_of_lt_of_le hlt (Nat.le_of_lt_succ hfuel)
    obtain ⟨fuel, rfl⟩ : ∃ n, fuel = n + 1 := ⟨fuel - 1, (Nat.succ_pred_eq_of_pos
      (Nat.lt_of_le_of_lt (Nat.zero_le p) hp')).symm⟩
    exact ih hinner hp fuel hp'

/-- With its simple names a whole text means what the program says. -/
theorem Mirrors.resolveType_eq_reads {x : List Symbol} {place : NodeId} {text : String}
    (hplace : ∀ name, Option.Rel (s.Denotes app) (s.sighted app name s.tree.size place)
      (app.outwards u name (x.drop (u.packagePath app.naming).length).reverse)) :
    s.resolveType app place text = app.reads u x text := by
  have hmember : ∀ {found r}, s.Denotes app found r → ∀ segment,
      Option.Rel (s.Denotes app) (s.memberType app found segment)
        (app.memberOf r (·.isNamedType segment)) := by
    intro found r hr segment
    cases hr with
    | known r => exact Denotes.map_known s app _
    | @inFile x j k hx hj hk =>
      rw [memberType_inFile]
      exact hs.member happ hlegible hj hk (.isNamedType segment) hx
  have hmembers : ∀ (rest : List String) {found r}, s.Denotes app found r →
      Option.Rel (s.Denotes app)
        (rest.foldlM (fun found segment => s.memberType app found segment) found)
        (rest.foldlM (fun r segment => app.memberOf r (·.isNamedType segment)) r) := by
    intro rest
    induction rest with
    | nil => exact fun hr => .some hr
    | cons segment rest ih => exact fun hr => rel_bind (hmember hr segment) ih
  have hmeant : Option.Rel (s.Denotes app) (s.selectType app place text) (app.meant u x text) := by
    rw [selectType_eq, Application.meant]
    generalize TypeText.segments (TypeText.erase text) = segments
    cases segments with
    | nil => exact .none
    | cons first rest =>
      refine rel_or (rel_bind (hplace first) (hmembers rest)) ?_
      split
      · exact .none
      · exact Denotes.map_known s app _
  rw [resolveType_eq, Application.reads]
  rcases rel_cases hmeant with ⟨hfound, hr⟩ | ⟨found, r, hfound, hr, hsame⟩
  · rw [hfound, hr]
    rfl
  · rw [hfound, hr, Option.map_some, Option.map_some, hs.describe_eq happ hsame]

end Reading

end Scope

end SymbolTable
