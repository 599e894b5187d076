import SymbolTable.Proofs.Analysis.Reading

/-!
# How the header of a type is read

A header is read at the type itself, where the type parameters are. So its names are looked up among
the members of the type first, in the file and in the program, which has all of them by then. What
such a name means outside of the type matters only when no member has it.
-/

namespace SymbolTable

open SymbolTable.Tree (root)

/-! ## Edges change no reading -/

namespace Tree.SameShape

variable {t t' : Tree} (h : t.SameShape t')
include h

theorem hasEnclosing (id : NodeId) : t'.hasEnclosing id = t.hasEnclosing id := by
  simp only [Tree.hasEnclosing, h.parent, h.kind]

theorem parentsWithin (fuel : Nat) (id : NodeId) :
    t'.parentsWithin fuel id = t.parentsWithin fuel id := by
  induction fuel generalizing id with
  | zero => rfl
  | succ fuel ih => simp only [Tree.parentsWithin, h.parent, h.kind, ih]

theorem coordinate (id : NodeId) (delimiter : String) :
    t'.coordinate id delimiter = t.coordinate id delimiter := by
  simp only [Tree.coordinate, Tree.pathValues, Tree.parents, h.size, h.parentsWithin, h.value,
    h.kind]

theorem qualifiedName (id : NodeId) (nested : String) :
    t'.qualifiedName id nested = t.qualifiedName id nested := by
  have hwithin : ∀ fuel id, t'.qualifiedNameWithin nested fuel id =
      t.qualifiedNameWithin nested fuel id := by
    intro fuel
    induction fuel with
    | zero => exact fun id => h.value id
    | succ fuel ih =>
      intro id
      simp only [Tree.qualifiedNameWithin, h.parent, h.hasEnclosing, h.kind, h.value, ih]
  rw [Tree.qualifiedName, Tree.qualifiedName, h.size, hwithin]

end Tree.SameShape

namespace Scope

section Marks

variable {s s' : Scope} (h : s.Marks s') (app : Application) {accept : Component → Bool}
include h

theorem Marks.fileMember (haccept : NameProbe accept) (id : NodeId) :
    s'.fileMember id accept = s.fileMember id accept := by
  have htree := h.alike.tree
  unfold Scope.fileMember
  rw [htree.sameShape.children]
  exact congrArg _ (List.find?_congr fun c _ =>
    haccept.congr (htree.node c).symbol (htree.node c).marked)

theorem Marks.programMember (id : NodeId) :
    s'.programMember app id accept = s.programMember app id accept := by
  unfold Scope.programMember Scope.programScope
  rw [h.alike.tree.sameShape.coordinate]

theorem Marks.resolveEnclosing (name : String) (fuel : Nat) (id : NodeId) :
    s'.resolveEnclosing app name fuel id = s.resolveEnclosing app name fuel id := by
  have htree := h.alike.tree
  have hself : ∀ id, (s'.tree.node id).isNamedType name = (s.tree.node id).isNamedType name :=
    fun id => Component.isNamedType_congr (htree.node id).symbol (htree.node id).marked name
  induction fuel generalizing id with
  | zero => rfl
  | succ fuel ih =>
    simp only [Scope.resolveEnclosing, htree.sameShape.kind, htree.sameShape.parent, hself, ih,
      h.fileMember (nameProbe_isNamedType name), h.fileMember (nameProbe_typeOrParameter name),
      h.programMember app]

/-- However many edges a file has got by then, a type text means the same. -/
theorem Marks.resolveType (place : NodeId) (text : String) :
    s'.resolveType app place text = s.resolveType app place text := by
  have hshape := h.alike.tree.sameShape
  have hview := h.sameView
  have hsimple : ∀ name, s'.resolveSimple app place name = s.resolveSimple app place name := by
    intro name
    simp only [Scope.resolveSimple, hshape.size, h.resolveEnclosing app, Scope.findVisible,
      hview.visible, hview.containers]
  have hmember : ∀ found name, s'.memberType app found name = s.memberType app found name := by
    intro found name
    cases found with
    | inFile id =>
      simp only [Scope.memberType, h.fileMember (nameProbe_isNamedType name), h.programMember app]
    | known r => rfl
  have hdescribe : ∀ found, s'.describe app found = s.describe app found := by
    intro found
    cases found with
    | inFile id => simp only [Scope.describe, hshape.qualifiedName, hshape.kind]
    | known r => rfl
  simp only [Scope.resolveType, Scope.resolveChain, hsimple, hmember, hdescribe]

end Marks

end Scope

/-! ## Among the members or outside -/

/-- The component has a type or a type parameter of the name as member, or the one does that the
program finds by its coordinate. -/
def Application.InBody (app : Application) (k : NodeId) (name : String) (c : NodeId) : Prop :=
  (c ∈ app.components.children k ∨
      ∃ f, app.findInProgram (app.coordinate (.program k)) = some f ∧
        c ∈ app.components.children f) ∧
    (app.components.node c).kind.NamesType ∧ (app.components.node c).value = name

namespace Scope

/-- Parents come before their children, so fuel beyond the node's own number makes no difference. -/
theorem resolveEnclosing_fuel {s : Scope} (hgrown : s.tree.Grown) (app : Application)
    (name : String) {fuel fuel' : Nat} {id : NodeId} (h : id < fuel) (h' : id < fuel') :
    s.resolveEnclosing app name fuel id = s.resolveEnclosing app name fuel' id := by
  induction fuel generalizing fuel' id with
  | zero => exact absurd h (Nat.not_lt_zero id)
  | succ fuel ih =>
    obtain ⟨fuel', rfl⟩ : ∃ n, fuel' = n + 1 :=
      ⟨fuel' - 1, (Nat.succ_pred_eq_of_pos (Nat.lt_of_le_of_lt (Nat.zero_le id) h')).symm⟩
    cases hp : s.tree.parent id with
    | none => simp only [resolveEnclosing, hp]
    | some p =>
      have hid : id < s.tree.size := by
        by_contra hid
        rw [Tree.parent, Tree.node_of_size_le (Nat.le_of_not_lt hid)] at hp
        cases hp
      have hlt : p < id := hgrown.lt_child (hgrown.mem_children_of_parent hid hp)
      have houter := ih (Nat.lt_of_lt_of_le hlt (Nat.le_of_lt_succ h))
        (Nat.lt_of_lt_of_le hlt (Nat.le_of_lt_succ h'))
      simp only [resolveEnclosing, hp, houter]

/-- What a name means to the type at the cursor when its members are left out: the type itself, or
what it means outside. -/
def outside (s : Scope) (app : Application) (name text : String) :
    Option (String × ComponentKind) :=
  if (s.tree.node s.cursor).isNamedType name then some (s.describe app (.inFile s.cursor))
  else s.resolveType app ((s.tree.parent s.cursor).getD s.cursor) text

/-- A member of the type at the cursor, in the file or in the program. -/
def ownMember (s : Scope) (app : Application) (name : String) : Option Resolved :=
  (s.fileMember s.cursor (acceptsMember name)).or
    (s.programMember app s.cursor (acceptsMember name))

section Midway

variable {s : Scope} {app : Application} {u : CompilationUnit} {outer : List Symbol}
  {h : TypeHeader} (hs : s.Midway app u (outer ++ [h.symbol]))
include hs

/-- A name at a type is what a member is, or else what it is outside. -/
theorem resolveType_cursor {text name : String}
    (hname : TypeText.segments (TypeText.erase text) = [name]) :
    s.resolveType app s.cursor text =
      ((s.ownMember app name).map (s.describe app)).or (s.outside app name text) := by
  have hkind : (s.tree.node s.cursor).kind = h.kind.componentKind :=
    congrArg Symbol.kind (Tree.symbol_of_follow_concat hs.cursor)
  obtain ⟨hroot, hpackage⟩ := kind_ne_of_typeKind h.kind
  have hcursor := hs.cursor
  rw [At, Tree.follow_concat] at hcursor
  obtain ⟨p, hp, hchild⟩ := Option.bind_eq_some_iff.1 hcursor
  have hlt := hs.grown.lt_child (Tree.mem_children_of_childWith hchild)
  have hsize := hs.grown.child_lt (Tree.mem_children_of_childWith hchild)
  have hparent := hs.grown.parent_of_follow hp hs.cursor
  obtain ⟨fuel, hfuel⟩ : ∃ fuel, s.tree.size = fuel + 1 :=
    ⟨s.tree.size - 1, (Nat.succ_pred_eq_of_pos hs.grown.root_lt).symm⟩
  rw [hfuel] at hsize
  have houter : s.resolveEnclosing app name fuel p = s.resolveEnclosing app name (fuel + 1) p :=
    resolveEnclosing_fuel hs.grown app name (Nat.lt_of_lt_of_le hlt (Nat.le_of_lt_succ hsize))
      (Nat.lt_trans hlt hsize)
  rw [outside, s.resolveType_of_segments app _ hname, s.resolveType_of_segments app _ hname,
    hparent, Option.getD_some, resolveSimple_eq, resolveSimple_eq, hfuel,
    resolveEnclosing_succ _ _ _ _ (hkind ▸ hroot) (hkind ▸ hpackage), hparent, Option.bind_some,
    houter, ownMember]
  cases s.fileMember s.cursor (acceptsMember name) with
  | some found => rfl
  | none =>
    cases s.programMember app s.cursor (acceptsMember name) with
    | some found => rfl
    | none =>
      simp only [Option.none_or, Option.map_none]
      split <;> rfl

variable (happ : app.components.Grown) {k : NodeId}
  (hk : app.components.follow root (outer ++ [h.symbol]) = some k) {name : String}
include happ hk

theorem programMember_cursor :
    s.programMember app s.cursor (acceptsMember name) =
      (app.findInProgram (app.coordinate (.program k))).bind fun f =>
        (app.memberOf (.program f) (acceptsMember name)).map .known := by
  have hcoordinate : s.tree.coordinate s.cursor app.naming.delimiter =
      app.coordinate (.program k) := by
    rw [Application.coordinate_of_path happ hk, hs.grown.coordinate_of_follow hs.cursor]
  rw [programMember, programScope, hcoordinate]
  cases app.findInProgram (app.coordinate (.program k)) <;> rfl

/-- A member that is found is one in the program too. -/
theorem inBody_of_ownMember {found : Resolved} (hfound : s.ownMember app name = some found) :
    ∃ c, app.InBody k name c ∧
      s.describe app found = (app.qualifiedName (.program c), (app.components.node c).kind) := by
  rcases Option.or_eq_some_iff.1 hfound with hfile | ⟨-, hprogram⟩
  · obtain ⟨j, hj, rfl⟩ := Option.map_eq_some_iff.1 hfile
    have hfits : acceptsMember name (s.tree.node j) = true :=
      List.find?_some (p := fun c => acceptsMember name (s.tree.node c)) hj
    obtain ⟨htype, hvalue⟩ := namesType_of_acceptsMember hfits
    have hpath := Tree.follow_of_childWith hs.cursor
      (hs.grown.childWith_iff.2 ⟨List.mem_of_find?_eq_some hj, rfl⟩)
    obtain ⟨c, hc, hsymbol, -, hqualified⟩ := hs.copied hpath
    have hckind : (app.components.node c).kind = (s.tree.node j).kind := congrArg Symbol.kind hsymbol
    have hcvalue : (app.components.node c).value = name :=
      (congrArg Symbol.value hsymbol).trans hvalue
    rw [Tree.follow_concat, hk] at hc
    refine ⟨c, ⟨.inl (Tree.mem_children_of_childWith hc), hckind ▸ htype, hcvalue⟩, ?_⟩
    exact Prod.ext (hqualified _).symm hckind.symm
  · rw [programMember_cursor hs happ hk] at hprogram
    obtain ⟨f, hf, hmember⟩ := Option.bind_eq_some_iff.1 hprogram
    obtain ⟨r, hr, rfl⟩ := Option.map_eq_some_iff.1 hmember
    have hfits : acceptsMember name (app.get r) = true :=
      List.find?_some (p := fun r => acceptsMember name (app.get r)) hr
    obtain ⟨htype, hvalue⟩ := namesType_of_acceptsMember hfits
    obtain ⟨c, hc, rfl⟩ := List.mem_map.1 (List.mem_of_find?_eq_some hr)
    exact ⟨c, ⟨.inr ⟨f, hf, hc⟩, htype, hvalue⟩, rfl⟩

/-- A member that the program has is not passed over. -/
theorem isSome_ownMember {f c : NodeId}
    (hf : app.findInProgram (app.coordinate (.program k)) = some f)
    (hc : c ∈ app.components.children f)
    (haccept : acceptsMember name (app.components.node c) = true) :
    (s.ownMember app name).isSome := by
  have hmember : (app.memberOf (.program f) (acceptsMember name)).isSome :=
    List.find?_isSome.2 ⟨.program c, List.mem_map_of_mem hc, haccept⟩
  rw [ownMember, Option.isSome_or, programMember_cursor hs happ hk, hf, Option.bind_some,
    Option.isSome_map, hmember, Bool.or_true]

end Midway

end Scope

/-! ## Headers after an analysis -/

/-- The scope in which the header of the type after the events is read, when the file is walked once
more. -/
def Application.headerScope (app : Application) (u : CompilationUnit) (before : List Event) : Scope :=
  ({} : Scope).walkTo app .structural u (u.arrivalAt before)

/-- What a text in that header names. -/
def Application.headerReading (app : Application) (u : CompilationUnit) (before : List Event)
    (text : String) : Option (String × ComponentKind) :=
  (app.headerScope u before).resolveType app (app.headerScope u before).cursor text

section Analyze

variable {naming : Naming} {libraries : List Library} {units : List CompilationUnit}
  {app : Application} (happ : (analyze naming libraries units).1 = app) {u : CompilationUnit}
  (hu : u ∈ units) {before after : List Event} {d : TypeDecl}
  (hevents : TypeDecl.eventsOfList u.types = before ++ .enterType d :: after)
include happ hu hevents

/-- A reference that is resolved when the file is walked once more is an edge of the type. -/
theorem mem_attributes_headerReading {kind : AttributeKind} {text : String}
    (href : (kind, text) ∈ d.header.references) {k : NodeId}
    (hk : app.components.follow root
      (before.foldl Event.pathAfter (u.packagePath app.naming) ++ [d.header.symbol]) = some k)
    {value : String} {type : ComponentKind}
    (hfound : app.headerReading u before text = some (value, type)) :
    ⟨kind, value⟩ ∈ (app.components.node k).attributes := by
  obtain ⟨s, hgrown, hcursor, hwalk⟩ :=
    Scope.exists_declareType_arrivalAt {} app .structural hevents
  have hrelated := Scope.relates_relateType (s.declareType app d.header).2 app
    (s.declareType app d.header).2.cursor .structural d.header
  have hresolves : (s.declareType app d.header).2.Resolves app text (value, type) := by
    intro s' hs'
    rw [Application.headerReading, Application.headerScope, hwalk,
      hrelated.marks.resolveType app, hrelated.marks.alike.cursor] at hfound
    rw [hs'.marks.resolveType app, hs'.marks.alike.cursor, hfound]
  have hmem := hresolves.mem_relateType (hgrown.follow_lt hgrown.root_lt hcursor) href
  obtain ⟨i, hi, -, hattributes, -⟩ := exists_copy_analyze happ hu {} .structural _
    (Scope.at_arrivalAt {} app .structural hevents)
  obtain rfl := Option.some.inj (hi.symm.trans hk)
  refine hattributes _ ?_
  rw [hwalk, hrelated.marks.alike.cursor]
  exact hmem

/-- After an analysis, a simple name in the header of a type is the edge to a member of the type
when the type has a member of that name, whatever the name means outside. Only a name that no member
has means what it means outside of the body. -/
theorem header_analyze {kind : AttributeKind} {text name : String}
    (href : (kind, text) ∈ d.header.references)
    (hname : TypeText.segments (TypeText.erase text) = [name]) :
    ∃ k, app.components.follow root
        (before.foldl Event.pathAfter (u.packagePath app.naming) ++ [d.header.symbol]) = some k ∧
      (∀ {value type}, app.headerReading u before text = some (value, type) →
        ⟨kind, value⟩ ∈ (app.components.node k).attributes) ∧
      ((∃ f c, app.findInProgram (app.coordinate (.program k)) = some f ∧
          c ∈ app.components.children f ∧
          Scope.acceptsMember name (app.components.node c) = true) →
        ∃ c, app.InBody k name c ∧ app.headerReading u before text =
          some (app.qualifiedName (.program c), (app.components.node c).kind)) ∧
      ((∀ c, ¬ app.InBody k name c) →
        app.headerReading u before text = (app.headerScope u before).outside app name text) := by
  have hgrown : app.components.Grown := happ ▸ grown_analyze naming libraries units
  have hcursor := Scope.at_arrivalAt {} app .structural hevents
  have hviews := Scope.views_arrivalAt {} app .structural hevents
  have hmidway : (app.headerScope u before).Midway app u
      (before.foldl Event.pathAfter (u.packagePath app.naming) ++ [d.header.symbol]) :=
    Scope.midway_walkTo happ hu {} .structural _ hcursor hviews
  obtain ⟨k, hk, -⟩ := exists_copy_analyze happ hu {} .structural _ hcursor
  have hreading : app.headerReading u before text =
      (((app.headerScope u before).ownMember app name).map
        ((app.headerScope u before).describe app)).or
          ((app.headerScope u before).outside app name text) :=
    Scope.resolveType_cursor hmidway hname
  refine ⟨k, hk, fun hfound => ?_, ?_, fun hnone => ?_⟩
  · exact mem_attributes_headerReading happ hu hevents href hk hfound
  · rintro ⟨f, c, hf, hc, haccept⟩
    have hsome := Scope.isSome_ownMember hmidway hgrown hk hf hc haccept
    obtain ⟨found, hfound⟩ := Option.isSome_iff_exists.1 hsome
    obtain ⟨c, hbody, hdescribe⟩ := Scope.inBody_of_ownMember hmidway hgrown hk hfound
    refine ⟨c, hbody, ?_⟩
    rw [hreading, hfound, Option.map_some, Option.some_or, hdescribe]
  · cases hfound : (app.headerScope u before).ownMember app name with
    | none => rw [hreading, hfound, Option.map_none, Option.none_or]
    | some found =>
      obtain ⟨c, hbody, -⟩ := Scope.inBody_of_ownMember hmidway hgrown hk hfound
      exact absurd hbody (hnone c)

end Analyze

/-! ## A member class with the name of the superclass -/

def namedIn : TypeDecl := .mk ⟨.classType, "In", [], [], none, [], false, default⟩ []

/-- A class that extends `In` and has a member class `In`. -/
def shadowingType : TypeDecl :=
  .mk ⟨.classType, "D", [], [], some "In", [], false, default⟩ [.type namedIn]

/-- The class `In` comes first in the file. -/
def shadowingUnit : CompilationUnit where
  sourceName := "D.java"
  package := none
  imports := []
  types := [namedIn, shadowingType]

def shadowingApplication : Application := (analyze {} [] [shadowingUnit]).1

theorem header_analyze_shadowing :
    ∃ k c, shadowingApplication.components.follow root
        [packageSymbol "default", ⟨.classType, "D", none⟩] = some k ∧
      shadowingApplication.InBody k "In" c ∧
      ⟨.extendsType, shadowingApplication.qualifiedName (.program c)⟩ ∈
        (shadowingApplication.components.node k).attributes := by
  have happ : (analyze {} [] [shadowingUnit]).1 = shadowingApplication := rfl
  have hu : shadowingUnit ∈ [shadowingUnit] := List.mem_singleton_self _
  have htypes : shadowingUnit.types = [namedIn] ++ shadowingType :: [] := rfl
  have href : (.extendsType, "In") ∈ shadowingType.header.references := by decide
  have hname : TypeText.segments (TypeText.erase "In") = ["In"] := by decide +kernel
  obtain ⟨k, hk, hedge, hbody, -⟩ :=
    header_analyze happ hu (TypeDecl.eventsOfList_split htypes) href hname
  rw [TypeDecl.foldl_pathAfterOfList] at hk
  have hpath : shadowingUnit.packagePath shadowingApplication.naming ++
      [shadowingType.header.symbol] = [packageSymbol "default", ⟨.classType, "D", none⟩] := by
    decide +kernel
  rw [hpath] at hk
  have hself : shadowingApplication.components.follow root
      [packageSymbol "default", ⟨.classType, "D", none⟩] = some 4 := by decide +kernel
  obtain rfl := Option.some.inj (hk.symm.trans hself)
  have hfound : shadowingApplication.findInProgram
      (shadowingApplication.coordinate (.program 4)) = some 4 := by decide +kernel
  have hmember : 5 ∈ shadowingApplication.components.children 4 ∧
      Scope.acceptsMember "In" (shadowingApplication.components.node 5) = true := by
    decide +kernel
  obtain ⟨c, hc, hreading⟩ := hbody ⟨4, 5, hfound, hmember⟩
  exact ⟨4, c, hself, hc, hedge hreading⟩

/-- The class `In` of the file is declared before `D`, and yet `D` is taken to extend its own
member. -/
theorem superclass_shadowed :
    shadowingUnit.types = [namedIn, shadowingType] ∧
      shadowingType.header.superclass = some "In" ∧ shadowingType.header.typeParameters = [] ∧
      shadowingApplication.components.identityPath 4 =
        [packageSymbol "default", ⟨.classType, "D", none⟩] ∧
      shadowingApplication.components.identityPath 5 =
        [packageSymbol "default", ⟨.classType, "D", none⟩, ⟨.classType, "In", none⟩] ∧
      shadowingApplication.qualifiedName (.program 5) = "default.D$In" ∧
      ⟨.extendsType, "default.D$In"⟩ ∈ (shadowingApplication.components.node 4).attributes ∧
      ⟨.extendsType, "default.In"⟩ ∉ (shadowingApplication.components.node 4).attributes := by
  refine ⟨rfl, rfl, rfl, ?_⟩
  decide +kernel

end SymbolTable
