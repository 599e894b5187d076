import SymbolTable.Proofs.Analysis.Midway

/-!
# Types of the own package

A top-level type that names a type of its own package finds it in the file when it is declared
further up there. Otherwise the package is only one of the places that the file is searched in, and
not the first: the implicit packages and the roots come before it, and before the default package
the imports on demand too.
-/

namespace SymbolTable

open SymbolTable.Tree (root)

/-! ## References of a header -/

/-- The texts by which a header names the supertypes of its type, with the edges they lead to. -/
def TypeHeader.references (h : TypeHeader) : List (AttributeKind × String) :=
  match h.kind with
  | .classType =>
    if h.anonymous then []
    else h.superclass.toList.map (.extendsType, ·) ++ h.interfaces.map (.implementsType, ·)
  | .interfaceType | .enumType => h.interfaces.map (.implementsType, ·)
  | .annotationType => []

namespace Scope

section Edges

variable {app : Application} {s s' : Scope} {id : NodeId}

theorem mem_mark (hid : id < s.tree.size) (kind : AttributeKind) (value : String) :
    ⟨kind, value⟩ ∈ ((s.mark id kind value).tree.node id).attributes := by
  rw [mark, Tree.node_modify _ _ _ _ hid, if_pos rfl, Component.addAttributeIfAbsent_eq]
  exact mem_addAbsent.2 (.inr rfl)

theorem Relates.mem_attributes (h : s.Relates app s') {a : Attribute}
    (ha : a ∈ (s.tree.node id).attributes) : a ∈ (s'.tree.node id).attributes :=
  (h.marks.growth.attributes (Tree.lt_size_of_mem_attributes ha)).subset ha

theorem Relates.lt_size (h : s.Relates app s') (hid : id < s.tree.size) : id < s'.tree.size :=
  h.marks.growth.lt hid

/-- However many edges come before it, the reference is resolved to the type. -/
def Resolves (s : Scope) (app : Application) (text : String) (found : String × ComponentKind) :
    Prop :=
  ∀ s', s.Relates app s' → s'.resolveType app s'.cursor text = some found

variable {text value : String} {type : ComponentKind}

theorem Resolves.of_relates (h : s.Resolves app text (value, type)) (hs : s.Relates app s') :
    s'.Resolves app text (value, type) := fun s'' hs' => h s'' (hs.trans hs')

theorem Resolves.mem_relate (h : s.Resolves app text (value, type)) (hid : id < s.tree.size)
    (kind : AttributeKind) :
    ⟨kind, value⟩ ∈ ((s.relate app id kind text).tree.node id).attributes := by
  rw [relate, h s .none]
  exact mem_mark hid kind value

theorem Resolves.mem_relateAll {texts : List String} (h : s.Resolves app text (value, type))
    (hid : id < s.tree.size) {kind : AttributeKind} (hkind : kind.IsEdge) (htext : text ∈ texts) :
    ⟨kind, value⟩ ∈ ((s.relateAll app id kind texts).tree.node id).attributes := by
  induction texts generalizing s with
  | nil => exact absurd htext List.not_mem_nil
  | cons first rest ih =>
    have hfirst := s.relates_relate app id first hkind
    have hrest := relates_relateAll (s.relate app id kind first) app id rest hkind
    rw [relateAll_cons]
    rcases List.mem_cons.1 htext with rfl | htext
    · exact hrest.mem_attributes (h.mem_relate hid kind)
    · exact ih (h.of_relates hfirst) (hfirst.lt_size hid) htext

theorem of_mem_map_mk {k kind : AttributeKind} {texts : List String}
    (h : (kind, text) ∈ texts.map (k, ·)) : kind = k ∧ text ∈ texts := by
  obtain ⟨text', htext, heq⟩ := List.mem_map.1 h
  obtain ⟨rfl, rfl⟩ := Prod.mk.inj heq
  exact ⟨rfl, htext⟩

/-- Each reference of a header that is resolved becomes an edge of the type. -/
theorem Resolves.mem_relateType (h : s.Resolves app text (value, type)) (hid : id < s.tree.size)
    {header : TypeHeader} {kind : AttributeKind} (href : (kind, text) ∈ header.references) :
    ⟨kind, value⟩ ∈ ((s.relateType app .structural id header).tree.node id).attributes := by
  have himplements : AttributeKind.IsEdge .implementsType := .inr rfl
  refine (relates_attachBounds (s.attachRelationships app id header) app id
    header.typeParameters).mem_attributes ?_
  unfold TypeHeader.references at href
  unfold attachRelationships
  cases hkind : header.kind with
  | classType =>
    simp only [hkind] at href
    split at href
    · exact absurd href List.not_mem_nil
    · next hanonymous =>
      rw [if_neg hanonymous]
      have hsuper := s.relates_attachSuperclass app id header.superclass
      rcases List.mem_append.1 href with href | href
      · obtain ⟨rfl, htext⟩ := of_mem_map_mk href
        refine (relates_relateAll _ app id _ himplements).mem_attributes ?_
        rw [Option.mem_toList.1 htext]
        exact h.mem_relate hid .extendsType
      · obtain ⟨rfl, htext⟩ := of_mem_map_mk href
        exact (h.of_relates hsuper).mem_relateAll (hsuper.lt_size hid) himplements htext
  | interfaceType =>
    simp only [hkind] at href
    obtain ⟨rfl, htext⟩ := of_mem_map_mk href
    exact h.mem_relateAll hid himplements htext
  | enumType =>
    simp only [hkind] at href
    obtain ⟨rfl, htext⟩ := of_mem_map_mk href
    -- The edge that every enum has comes before those of its interfaces.
    have himplied : s.Relates app (if s.qualified app id = enumName then s
        else s.mark id .implementsType enumName) := by
      split
      · exact .none
      · exact .one id himplements (.inr (.inl rfl))
    exact (h.of_relates himplied).mem_relateAll (himplied.lt_size hid) himplements htext
  | annotationType =>
    simp only [hkind] at href
    exact absurd href List.not_mem_nil

end Edges

end Scope

/-! ## Coordinates below the package of a file -/

/-- What a lookup finds in the program it does not find in a library. -/
theorem Application.findInProgram_of_find {app : Application} {coordinate : String} {id : NodeId}
    (h : app.find coordinate = some (.program id)) : app.findInProgram coordinate = some id := by
  unfold find at h
  split at h
  · next hid =>
    obtain rfl := congrArg ComponentRef.id (Option.some.inj h)
    exact hid
  · obtain ⟨⟨l, i⟩, -, hlocate⟩ := List.exists_of_findSome?_eq_some h
    obtain ⟨j, -, hj⟩ := Option.map_eq_some_iff.1 hlocate
    cases hj

theorem intercalate_values_concat (delimiter : String) {path : List Symbol} (h : path ≠ [])
    (s : Symbol) : delimiter.intercalate ((path ++ [s]).map Symbol.value) =
      delimiter.intercalate (path.map Symbol.value) ++ delimiter ++ s.value := by
  rw [← String.toList_inj, String.toList_append, String.toList_append, toList_intercalate,
    toList_intercalate, spell_append _ h (List.cons_ne_nil _ _), spell_singleton]

/-- A package path has packages only. -/
theorem CompilationUnit.exists_packagePath (naming : Naming) (u : CompilationUnit) :
    ∃ names : List String, u.packagePath naming = names.map packageSymbol := by
  unfold packagePath
  split
  · exact ⟨_, rfl⟩
  · exact ⟨[naming.defaultPackage], rfl⟩

theorem CompilationUnit.coordinate_eq (naming : Naming) (u : CompilationUnit)
    (path : List Symbol) : u.coordinate naming (path.map Symbol.value) =
      naming.delimiter.intercalate ((u.packagePath naming ++ path).map Symbol.value) := by
  rw [coordinate, List.map_append]

namespace Application

variable {app : Application} (h : app.components.Grown) {k c : NodeId}
include h

theorem coordinate_of_path {x : List Symbol} (hk : app.components.follow Tree.root x = some k) :
    app.coordinate (.program k) = app.naming.delimiter.intercalate (x.map Symbol.value) := by
  rw [← h.identityPath_of_follow hk, ← Tree.pathValues_eq]
  rfl

theorem coordinate_child (hk : app.coordinate (.program k) ≠ "")
    (hc : c ∈ app.components.children k) : app.coordinate (.program c) =
      app.coordinate (.program k) ++ app.naming.delimiter ++ (app.components.node c).value := by
  have hcoordinate : ∀ j, app.coordinate (.program j) =
      app.naming.delimiter.intercalate ((app.components.identityPath j).map Symbol.value) := by
    intro j
    rw [← Tree.pathValues_eq]
    rfl
  have hne : app.components.identityPath k ≠ [] := by
    intro hnil
    rw [hcoordinate, hnil] at hk
    exact hk rfl
  rw [hcoordinate, hcoordinate, h.identityPath_child hc, intercalate_values_concat _ hne]
  rfl

end Application

/-- The one type of its name is found. -/
theorem Application.firstType_children {app : Application} {name : String} {own pkg : NodeId}
    (hown : ∀ c, c ∈ app.components.children pkg ∧ app.IsType (.program c) name ↔ c = own) :
    app.firstType (app.children (.program pkg)) name = some (.program own) := by
  obtain ⟨hchild, hvalue, hkind⟩ := (hown own).2 rfl
  have hsome : (app.firstType (app.children (.program pkg)) name).isSome :=
    List.find?_isSome.2 ⟨.program own, List.mem_map_of_mem hchild, by simp [hvalue, hkind]⟩
  obtain ⟨r, hr⟩ := Option.isSome_iff_exists.1 hsome
  obtain ⟨hmem, htype⟩ := Application.isType_of_firstType hr
  obtain ⟨c, hc, rfl⟩ := List.mem_map.1 hmem
  obtain rfl := (hown c).1 ⟨hc, htype⟩
  exact hr

/-- What a type named `name` is to a top-level type of the package of the file: `own`, the type of
the package, when it is declared further up in the file, and otherwise what is found first. -/
def CompilationUnit.nearest (app : Application) (u : CompilationUnit) (earlier : List TypeDecl)
    (own : ComponentRef) (name : String) : ComponentRef :=
  if name ∈ earlier.map (·.header.name) then own
  else (app.firstType (u.searchedFirst app) name).getD own

namespace Scope

/-- A simple name is what is found outwards or else in sight. -/
theorem resolveType_of_segments (s : Scope) (app : Application) (place : NodeId)
    {text name : String} (hname : TypeText.segments (TypeText.erase text) = [name]) :
    s.resolveType app place text = (s.resolveSimple app place name).map (s.describe app) := by
  rw [resolveType_eq, selectType]
  simp only [hname]
  cases hsimple : s.resolveSimple app place name <;> simp [resolveChain, hsimple]

theorem namesType_of_acceptsMember {c : Component} {name : String}
    (h : acceptsMember name c = true) : c.kind.NamesType ∧ c.value = name := by
  have hmember : c.IsMember name := (Bool.or_eq_true _ _).mp h
  obtain ⟨name', hname⟩ := (nameProbe_typeOrParameter name).name
  refine ⟨hmember.namesType, ?_⟩
  rcases hmember with hnamed | hparameter
  · simp only [Component.isNamedType, Bool.and_eq_true, decide_eq_true_eq] at hnamed
    exact hnamed.1.1
  · simp only [Component.isTypeParameter, Bool.and_eq_true, decide_eq_true_eq] at hparameter
    exact hparameter.2

section TopLevel

variable {s : Scope} {app : Application} {u : CompilationUnit} {h : TypeHeader}
  (hs : s.Midway app u (u.packagePath app.naming ++ [h.symbol]))
  (happ : app.components.Grown) {name : String}

section Members

variable (hmember : ∀ j, (app.components.node j).kind.NamesType →
    app.coordinate (.program j) ≠ u.coordinate app.naming [h.name, name])
include hs happ hmember

/-- The type has no such member in the file. -/
theorem fileMember_eq_none : s.fileMember s.cursor (acceptsMember name) = none := by
  rw [fileMember, Option.map_eq_none_iff, List.find?_eq_none]
  intro c hc haccept
  obtain ⟨htype, hvalue⟩ := namesType_of_acceptsMember haccept
  have hpath := Tree.follow_of_childWith hs.cursor (hs.grown.childWith_iff.2 ⟨hc, rfl⟩)
  obtain ⟨k, hk, hsymbol, -⟩ := hs.copied hpath
  have hkind : (app.components.node k).kind = (s.tree.node c).kind := congrArg Symbol.kind hsymbol
  refine hmember k (hkind ▸ htype) ?_
  rw [Application.coordinate_of_path happ hk, List.append_assoc, ← CompilationUnit.coordinate_eq,
    ← hvalue]
  rfl

/-- Nor has the component that the program finds for the type. -/
theorem programMember_eq_none : s.programMember app s.cursor (acceptsMember name) = none := by
  have hcoordinate : s.tree.coordinate s.cursor app.naming.delimiter =
      u.coordinate app.naming [h.name] := by
    rw [Tree.coordinate, Tree.pathValues_eq, hs.grown.identityPath_of_follow hs.cursor,
      ← CompilationUnit.coordinate_eq]
    rfl
  rw [programMember]
  cases hscope : s.programScope app s.cursor with
  | none => rfl
  | some r =>
    obtain ⟨k, hk, rfl⟩ := Option.map_eq_some_iff.1 hscope
    obtain ⟨-, hsame⟩ := Application.coordinate_of_findInProgram happ hk
    have hne : app.coordinate (.program k) ≠ "" := by
      intro hempty
      rw [← hsame, hempty, Application.findInProgram_eq happ, if_pos rfl] at hk
      cases hk
    rw [Option.map_eq_none_iff, List.find?_eq_none]
    intro r hr haccept
    obtain ⟨c, hc, rfl⟩ := List.mem_map.1 hr
    obtain ⟨htype, hvalue⟩ := namesType_of_acceptsMember haccept
    have hvalue : (app.components.node c).value = name := hvalue
    refine hmember c htype ?_
    have hmember := intercalate_values_concat app.naming.delimiter
      (List.append_ne_nil_of_right_ne_nil (u.packagePath app.naming) (List.cons_ne_nil h.symbol []))
      ⟨.classType, name, none⟩
    rw [Application.coordinate_child happ hne hc, hsame, hcoordinate, hvalue]
    rw [List.append_assoc, ← CompilationUnit.coordinate_eq, ← CompilationUnit.coordinate_eq]
      at hmember
    exact hmember.symm

/-- So the search goes on in the package, among the types that are in the file by then. -/
theorem resolveEnclosing_topLevel (hself : name ≠ h.name) {top : NodeId}
    (htop : s.tree.follow root (u.packagePath app.naming) = some top) :
    s.resolveEnclosing app name s.tree.size s.cursor =
      if u.packagePath app.naming = [] then none else s.fileMember top (·.isNamedType name) := by
  have hsymbol : (s.tree.node s.cursor).symbol = h.symbol :=
    Tree.symbol_of_follow_concat hs.cursor
  have hkind : (s.tree.node s.cursor).kind = h.kind.componentKind := congrArg Symbol.kind hsymbol
  have hvalue : (s.tree.node s.cursor).value = h.name := congrArg Symbol.value hsymbol
  have hnotself : (s.tree.node s.cursor).isNamedType name = false := by
    rw [Component.isNamedType, hvalue, decide_eq_false (Ne.symm hself), Bool.false_and,
      Bool.false_and]
  have hparent := hs.grown.parent_of_follow htop hs.cursor
  have hchild := hs.grown.mem_children_of_parent
    (hs.grown.follow_lt hs.grown.root_lt hs.cursor) hparent
  -- The root, the package and the type are there, so the search does not run out.
  obtain ⟨fuel, hfuel⟩ : ∃ fuel, s.tree.size = fuel + 2 := by
    have hpos : 0 < s.cursor := Nat.lt_of_le_of_lt (Nat.zero_le top) (hs.grown.lt_child hchild)
    have hsize : 1 < s.tree.size := Nat.lt_of_le_of_lt hpos (hs.grown.child_lt hchild)
    exact ⟨s.tree.size - 2, (Nat.sub_add_cancel hsize).symm⟩
  obtain ⟨hroot, hpackage⟩ := kind_ne_of_typeKind h.kind
  rw [hfuel, resolveEnclosing_succ _ _ _ _ (hkind ▸ hroot) (hkind ▸ hpackage),
    fileMember_eq_none hs happ hmember, programMember_eq_none hs happ hmember, hnotself, hparent]
  simp only [Option.none_or, Bool.false_eq_true, if_false, Option.bind_some]
  obtain ⟨names, hnames⟩ := u.exists_packagePath app.naming
  have hiff := kind_eq_package_iff hs.grown (hnames ▸ htop)
  rw [hnames]
  split
  · next hnil =>
    refine resolveEnclosing_root _ _ _ _ ?_
    rw [hnames, hnil] at htop
    rw [← Option.some.inj htop, hs.grown.kind_root]
  · next hne => exact resolveEnclosing_package _ _ _ _ (hiff.2 hne)

end Members

section Package

variable {earlier : List TypeDecl}
  (htypes : ∀ {sym : Symbol}, sym.kind.isTypeDeclaration = true →
    ((s.tree.entry (u.packagePath app.naming ++ [sym])).isSome ↔
      sym = h.symbol ∨ ∃ e ∈ earlier, e.header.symbol = sym))
  {top : NodeId} (htop : s.tree.follow root (u.packagePath app.naming) = some top)
include htypes htop

/-- A type of another name is in the package of the file when it comes earlier in the file. -/
theorem exists_type_iff (hself : name ≠ h.name) :
    (∃ c ∈ s.tree.children top, (s.tree.node c).value = name ∧
      (s.tree.node c).kind.isTypeDeclaration = true) ↔
        name ∈ earlier.map (·.header.name) := by
  constructor
  · rintro ⟨c, hc, hvalue, hkind⟩
    have hsome := (Tree.mem_members htop).1 (List.mem_map_of_mem hc)
    rcases (htypes hkind).1 hsome with hsymbol | ⟨e, he, hsymbol⟩
    · exact absurd (hvalue.symm.trans (congrArg Symbol.value hsymbol)) hself
    · exact List.mem_map.2 ⟨e, he, (congrArg Symbol.value hsymbol).trans hvalue⟩
  · intro hname
    obtain ⟨e, he, hvalue⟩ := List.mem_map.1 hname
    have hkind : e.header.symbol.kind.isTypeDeclaration = true := by
      rw [TypeHeader.symbol]
      cases e.header.kind <;> rfl
    obtain ⟨c, hc, hsymbol⟩ := List.mem_map.1
      ((Tree.mem_members htop).2 ((htypes hkind).2 (.inr ⟨e, he, rfl⟩)))
    have hsame : (s.tree.node c).kind = e.header.symbol.kind := congrArg Symbol.kind hsymbol
    exact ⟨c, hc, (congrArg Symbol.value hsymbol).trans hvalue, by rw [hsame, hkind]⟩

/-- A type that comes later in the file is not there yet. -/
theorem fileMember_package_eq_none (hself : name ≠ h.name)
    (hname : name ∉ earlier.map (·.header.name)) :
    s.fileMember top (·.isNamedType name) = none := by
  rw [fileMember, Option.map_eq_none_iff, List.find?_eq_none]
  intro c hc haccept
  refine hname ((exists_type_iff htypes htop hself).1 ⟨c, hc, ?_⟩)
  have hfits := haccept
  simp only [Component.isNamedType, Bool.and_eq_true, decide_eq_true_eq] at hfits
  exact hfits.1

include hs in
omit htypes in
/-- A type of the file is the one type of its name in the package. -/
theorem own_of_type {own pkg : NodeId}
    (hpkg : app.components.follow root (u.packagePath app.naming) = some pkg)
    (hown : ∀ c, c ∈ app.components.children pkg ∧ app.IsType (.program c) name ↔ c = own)
    {c : NodeId} (hc : c ∈ s.tree.children top) (hvalue : (s.tree.node c).value = name)
    (hkind : (s.tree.node c).kind.isTypeDeclaration = true) :
    s.describe app (.inFile c) = (app.qualifiedName (.program own), (app.get (.program own)).kind) ∧
      (anonymousMark ∈ (s.tree.node c).attributes →
        anonymousMark ∈ (app.components.node own).attributes) := by
  obtain ⟨k, hk, hsymbol, hmarked, hqualified⟩ :=
    hs.copied (Tree.follow_of_childWith htop (hs.grown.childWith_iff.2 ⟨hc, rfl⟩))
  have hkvalue : (app.components.node k).value = name :=
    (congrArg Symbol.value hsymbol).trans hvalue
  have hkkind : (app.components.node k).kind = (s.tree.node c).kind := congrArg Symbol.kind hsymbol
  have hchild : k ∈ app.components.children pkg := by
    rw [Tree.follow_concat, hpkg] at hk
    exact Tree.mem_children_of_childWith hk
  obtain rfl := (hown k).1 ⟨hchild, hkvalue, hkkind ▸ hkind⟩
  exact ⟨Prod.ext (hqualified _).symm hkkind.symm, hmarked⟩

include hs in
/-- A type that comes earlier in the file is found there. -/
theorem fileMember_package_eq_some (hself : name ≠ h.name)
    (hname : name ∈ earlier.map (·.header.name)) {own pkg : NodeId}
    (hpkg : app.components.follow root (u.packagePath app.naming) = some pkg)
    (hown : ∀ c, c ∈ app.components.children pkg ∧ app.IsType (.program c) name ↔ c = own)
    (hnamed : anonymousMark ∉ (app.components.node own).attributes) :
    ∃ c, s.fileMember top (·.isNamedType name) = some (.inFile c) ∧
      s.describe app (.inFile c) =
        (app.qualifiedName (.program own), (app.get (.program own)).kind) := by
  obtain ⟨c, hc, hvalue, hkind⟩ := (exists_type_iff htypes htop hself).2 hname
  have hunmarked := (own_of_type hs htop hpkg hown hc hvalue hkind).2
  have haccept : (s.tree.node c).isNamedType name = true := by
    have hlacks : (s.tree.node c).hasAttribute anonymousMark.kind anonymousMark.value = false := by
      rw [← Bool.not_eq_true, Component.hasAttribute_iff]
      exact fun hmark => hnamed (hunmarked hmark)
    rw [Component.isNamedType, hvalue, hkind, hlacks, decide_eq_true rfl]
    rfl
  obtain ⟨c', hfound⟩ := Option.isSome_iff_exists.1
    (List.find?_isSome.2 ⟨c, hc, haccept⟩ :
      ((s.tree.children top).find? fun c => (s.tree.node c).isNamedType name).isSome)
  have hfits := List.find?_some hfound
  simp only [Component.isNamedType, Bool.and_eq_true, decide_eq_true_eq] at hfits
  refine ⟨c', by rw [fileMember, hfound]; rfl, ?_⟩
  exact (own_of_type hs htop hpkg hown (List.mem_of_find?_eq_some hfound) hfits.1.1 hfits.1.2).1

include hs in
/-- The reference is resolved to the nearest type of its name. -/
theorem resolveType_topLevel (happ : app.components.Grown)
    (hmember : ∀ j, (app.components.node j).kind.NamesType →
      app.coordinate (.program j) ≠ u.coordinate app.naming [h.name, name])
    (hself : name ≠ h.name) {text : String}
    (hname : TypeText.segments (TypeText.erase text) = [name]) {own pkg : NodeId}
    (hpkg : app.components.follow root (u.packagePath app.naming) = some pkg)
    (hfirst : app.find (u.coordinate app.naming []) = some (.program pkg)) (ht : u.types ≠ [])
    (hown : ∀ c, c ∈ app.components.children pkg ∧ app.IsType (.program c) name ↔ c = own)
    (hnamed : anonymousMark ∉ (app.components.node own).attributes) :
    s.resolveType app s.cursor text =
      some (app.qualifiedName (u.nearest app earlier (.program own) name),
        (app.get (u.nearest app earlier (.program own) name)).kind) := by
  have hne : u.packagePath app.naming ≠ [] := by
    intro hnil
    rw [CompilationUnit.coordinate, hnil] at hfirst
    have hempty := Application.findInProgram_of_find hfirst
    rw [Application.findInProgram_eq happ] at hempty
    cases hempty
  rw [s.resolveType_of_segments app s.cursor hname, resolveSimple_eq,
    resolveEnclosing_topLevel hs happ hmember hself htop, if_neg hne, hs.views.findVisible]
  unfold CompilationUnit.nearest
  split
  · next hearlier =>
    obtain ⟨c, hfile, hdescribe⟩ :=
      fileMember_package_eq_some hs htypes htop hself hearlier hpkg hown hnamed
    rw [hfile, Option.some_or, Option.map_some, hdescribe]
  · next hearlier =>
    obtain ⟨rest, hsearched⟩ := u.exists_searched_eq app ht hfirst
    rw [fileMember_package_eq_none htypes htop hself hearlier, Option.none_or, hsearched,
      Application.firstType_append, Application.firstType_append,
      Application.firstType_children hown]
    cases app.firstType (u.searchedFirst app) name <;> rfl

end Package

end TopLevel

end Scope

/-! ## Types of the own package after an analysis -/

/-- What the text names to the type after `earlier`, when the file is walked once more. -/
def Application.referent (app : Application) (u : CompilationUnit) (earlier : List TypeDecl)
    (text : String) : Option (String × ComponentKind) :=
  let s := ({} : Scope).walkTo app .structural u (u.arrival earlier)
  s.resolveType app s.cursor text

section Analyze

variable {naming : Naming} {libraries : List Library} {units : List CompilationUnit}
  {app : Application} (happ : (analyze naming libraries units).1 = app) {u : CompilationUnit}
  (hu : u ∈ units) {earlier later : List TypeDecl} {d : TypeDecl}
  (htypes : u.types = earlier ++ d :: later) {kind : AttributeKind}
  {text name : String} (hname : TypeText.segments (TypeText.erase text) = [name])
  (hself : name ≠ d.header.name)
  (hmember : ∀ j, (app.components.node j).kind.NamesType →
    app.coordinate (.program j) ≠ u.coordinate app.naming [d.header.name, name])
  {own pkg : NodeId}
  (hpkg : app.components.follow root (u.packagePath app.naming) = some pkg)
  (hfirst : app.find (u.coordinate app.naming []) = some (.program pkg))
  (hown : ∀ c, c ∈ app.components.children pkg ∧ app.IsType (.program c) name ↔ c = own)
  (hnamed : anonymousMark ∉ (app.components.node own).attributes)
include happ hu htypes hname hself hmember hpkg hfirst hown hnamed

/-- So it is in every scope that differs from the one at the type in edges only. -/
theorem resolveType_arrival (s : Scope) {s' : Scope}
    (halike : (s.walkTo app .structural u (u.arrival earlier)).Alike s')
    (hview : (s.walkTo app .structural u (u.arrival earlier)).SameView s') :
    s'.resolveType app s'.cursor text =
      some (app.qualifiedName (u.nearest app earlier (.program own) name),
        (app.get (u.nearest app earlier (.program own) name)).kind) := by
  have hgrown : app.components.Grown := happ ▸ grown_analyze naming libraries units
  have ht : u.types ≠ [] := htypes ▸ by simp
  have hmidway := (Scope.midway_walkTo happ hu s .structural _
    (s.at_arrival app .structural htypes) (s.views_arrival app .structural htypes)).of_alike
      halike hview
  have hcursor := hmidway.cursor
  rw [Scope.At, Tree.follow_concat] at hcursor
  obtain ⟨top, htop, -⟩ := Option.bind_eq_some_iff.1 hcursor
  refine Scope.resolveType_topLevel hmidway (fun {sym} hsym => ?_) htop hgrown hmember hself hname
    hpkg hfirst ht hown hnamed
  rw [halike.tree.isSome_entry]
  exact s.isSome_type_arrival app .structural htypes hsym

/-- After an analysis, a top-level type that names a type of its own package has an edge to that
type when it is declared further up in the file, and otherwise to whatever of the name is found
before the package: by a single import, in an implicit package, in a root or, in the default
package, by an import on demand. Only when nothing is found there the edge is to the own type. -/
theorem reference_analyze (href : (kind, text) ∈ d.header.references) :
    app.referent u earlier text =
      some (app.qualifiedName (u.nearest app earlier (.program own) name),
        (app.get (u.nearest app earlier (.program own) name)).kind) ∧
    ∃ id, app.components.follow root (u.packagePath app.naming ++ [d.header.symbol]) = some id ∧
      ⟨kind, app.qualifiedName (u.nearest app earlier (.program own) name)⟩ ∈
        (app.components.node id).attributes := by
  refine ⟨?_, ?_⟩
  · unfold Application.referent
    exact resolveType_arrival happ hu htypes hname hself hmember hpkg hfirst hown hnamed {}
      (.refl _) (.refl _)
  · obtain ⟨s, hgrown, hcursor, hwalk⟩ :=
      Scope.exists_declareType_arrival {} app .structural htypes
    have hrelated := Scope.relates_relateType (s.declareType app d.header).2 app
      (s.declareType app d.header).2.cursor .structural d.header
    have hresolves : (s.declareType app d.header).2.Resolves app text
        (app.qualifiedName (u.nearest app earlier (.program own) name),
          (app.get (u.nearest app earlier (.program own) name)).kind) := by
      intro s' hs'
      refine resolveType_arrival happ hu htypes hname hself hmember hpkg hfirst hown hnamed {} ?_ ?_
      · rw [hwalk]
        exact hrelated.marks.alike.symm.trans hs'.marks.alike
      · rw [hwalk]
        exact hrelated.marks.sameView.symm.trans hs'.marks.sameView
    have hmem := hresolves.mem_relateType (hgrown.follow_lt hgrown.root_lt hcursor) href
    have hat := Scope.at_arrival {} app .structural htypes
    rw [Scope.At] at hat
    obtain ⟨id, hid, -, hattributes, -⟩ := exists_copy_analyze happ hu {} .structural _ hat
    refine ⟨id, hid, hattributes _ ?_⟩
    rw [hwalk, hrelated.marks.alike.cursor]
    exact hmem

end Analyze

/-! ## A class with the name of an implicitly imported one -/

def derivedThread : TypeDecl :=
  .mk ⟨.classType, "D", [], [], some "Thread", [], false, default⟩ []

def derivedThreadUnit : CompilationUnit where
  sourceName := "D.java"
  package := some ⟨["p"], default⟩
  imports := []
  types := [derivedThread]

/-- A class `Thread` in `java.lang`, one in `p`, and a class of `p` that extends `Thread`. -/
def ownThreadUnits : List CompilationUnit :=
  [{ classUnit "java" "Thread" [] none with package := some ⟨["java", "lang"], default⟩ },
    classUnit "p" "Thread" [] none, derivedThreadUnit]

def ownThreadApplication : Application := (analyze {} [] ownThreadUnits).1

theorem reference_analyze_ownThread :
    ownThreadApplication.referent derivedThreadUnit [] "Thread" =
        some ("java.lang.Thread", .classType) ∧
      ∃ id, ownThreadApplication.components.follow root
          [packageSymbol "p", ⟨.classType, "D", none⟩] = some id ∧
        ⟨.extendsType, "java.lang.Thread"⟩ ∈
          (ownThreadApplication.components.node id).attributes := by
  have hsize : ownThreadApplication.components.size = 10 := by decide +kernel
  have hmember : ∀ j, (ownThreadApplication.components.node j).kind.NamesType →
      ownThreadApplication.coordinate (.program j) ≠
        derivedThreadUnit.coordinate {} ["D", "Thread"] := by
    have hall : ∀ j < 10, ownThreadApplication.coordinate (.program j) ≠
        derivedThreadUnit.coordinate {} ["D", "Thread"] := by decide +kernel
    exact fun j hj => hall j (hsize ▸ Tree.lt_size_of_kind hj.ne_root)
  have hown : ∀ c, c ∈ ownThreadApplication.components.children 5 ∧
      ownThreadApplication.IsType (.program c) "Thread" ↔ c = 6 := by
    have hchildren : ownThreadApplication.components.children 5 = [6, 8] := by decide +kernel
    have htype : ownThreadApplication.IsType (.program 6) "Thread" ∧
        ¬ ownThreadApplication.IsType (.program 8) "Thread" := by
      unfold Application.IsType
      decide +kernel
    intro c
    rw [hchildren]
    constructor
    · rintro ⟨hc, hthread⟩
      rcases List.mem_cons.1 hc with rfl | hc
      · rfl
      · rw [List.mem_singleton.1 hc] at hthread
        exact absurd hthread htype.2
    · rintro rfl
      exact ⟨List.mem_cons_self, htype.1⟩
  have hnearest : derivedThreadUnit.nearest ownThreadApplication [] (.program 6) "Thread" =
      .program 3 := by decide +kernel
  have hname : ownThreadApplication.qualifiedName (.program 3) = "java.lang.Thread" := by
    decide +kernel
  have hkind : (ownThreadApplication.get (.program 3)).kind = .classType := by decide +kernel
  have hpath : derivedThreadUnit.packagePath ownThreadApplication.naming ++
      [derivedThread.header.symbol] = [packageSymbol "p", ⟨.classType, "D", none⟩] := by
    decide +kernel
  have happ : (analyze {} [] ownThreadUnits).1 = ownThreadApplication := rfl
  have hu : derivedThreadUnit ∈ ownThreadUnits :=
    List.mem_cons_of_mem _ (List.mem_cons_of_mem _ List.mem_cons_self)
  have htypes : derivedThreadUnit.types = [] ++ derivedThread :: [] := rfl
  have hsegments : TypeText.segments (TypeText.erase "Thread") = ["Thread"] := by decide +kernel
  have hself : "Thread" ≠ derivedThread.header.name := by decide
  have hpkg : ownThreadApplication.components.follow root
      (derivedThreadUnit.packagePath ownThreadApplication.naming) = some 5 := by decide +kernel
  have hfirst : ownThreadApplication.find
      (derivedThreadUnit.coordinate ownThreadApplication.naming []) = some (.program 5) := by
    decide +kernel
  have hnamed : anonymousMark ∉ (ownThreadApplication.components.node 6).attributes := by
    decide +kernel
  have href : (.extendsType, "Thread") ∈ derivedThread.header.references := by decide
  obtain ⟨hreferent, id, hid, hedge⟩ := reference_analyze happ hu htypes hsegments hself hmember
    hpkg hfirst hown hnamed href
  rw [hnearest, hname] at hreferent hedge
  rw [hkind] at hreferent
  rw [hpath] at hid
  exact ⟨hreferent, id, hid, hedge⟩

/-- The class `Thread` of `p` is the only type `p.Thread`, and yet the class in the same package is
taken to extend the one of `java.lang`. -/
theorem ownPackage_shadowed :
    derivedThreadUnit.imports = [] ∧ derivedThreadUnit.package.map (·.segments) = some ["p"] ∧
      (∀ c < ownThreadApplication.components.size,
        ownThreadApplication.coordinate (.program c) = "p.Thread" ∧
          (ownThreadApplication.components.node c).kind.isTypeDeclaration = true ↔ c = 6) ∧
      (∀ c < ownThreadApplication.components.size,
        ownThreadApplication.coordinate (.program c) ≠ "p.D.Thread") ∧
      ownThreadApplication.components.identityPath 8 =
        [packageSymbol "p", ⟨.classType, "D", none⟩] ∧
      ⟨.extendsType, "java.lang.Thread"⟩ ∈
        (ownThreadApplication.components.node 8).attributes ∧
      ⟨.extendsType, "p.Thread"⟩ ∉ (ownThreadApplication.components.node 8).attributes := by
  decide +kernel

end SymbolTable
