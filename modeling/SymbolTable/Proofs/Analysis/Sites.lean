import SymbolTable.Proofs.Analysis.Reordering

/-!
# Where types are named

The headings of types, constructors and methods name other types: supertypes, instantiated types and
the bounds of type parameters. A site is such a heading with the path of its declaration. The sites
of a file can be read off its events, and they are the same in every order of its declarations.
-/

namespace SymbolTable

/-- A heading that may name other types. -/
inductive Heading where
  | type (h : TypeHeader)
  | callable (h : CallableHeader)

/-- A heading and the path of the declaration that it belongs to. -/
structure Site where
  path : List Symbol
  heading : Heading

namespace Event

/-- The heading that an event reads. -/
def heading : Event → Option Heading
  | .enterType d => some (.type d.header)
  | .enterConstructor d | .enterMethod d => some (.callable d.header)
  | .enterUnit _ | .exitUnit _ | .enterPackage _ | .enterImport _ | .exitTypeBody _ | .exitType _
  | .enterConstant _ | .exitConstant _ | .exitConstructor _ | .exitMethod _ | .enterParameter _
  | .enterField _ => none

/-- The site that an event comes to, with the cursor at the path. -/
def site (path : List Symbol) (e : Event) : Option Site := e.heading.map (⟨e.pathAfter path, ·⟩)

/-- The sites that events come to. -/
def sites (path : List Symbol) : List Event → List Site
  | [] => []
  | e :: events => (e.site path).toList ++ sites (e.pathAfter path) events

theorem sites_append (path : List Symbol) (events more : List Event) :
    sites path (events ++ more) =
      sites path events ++ sites (events.foldl pathAfter path) more := by
  induction events generalizing path with
  | nil => rfl
  | cons e events ih =>
    rw [List.cons_append, sites, sites, ih, List.append_assoc]
    rfl

theorem sites_of_heading {path : List Symbol} {events : List Event}
    (h : ∀ e ∈ events, e.heading = none) : sites path events = [] := by
  induction events generalizing path with
  | nil => rfl
  | cons e events ih =>
    rw [sites, site, h e List.mem_cons_self, ih fun e' he' => h e' (List.mem_cons_of_mem e he')]
    rfl

end Event

def CompilationUnit.sites (naming : Naming) (u : CompilationUnit) : List Site :=
  Event.sites (u.packagePath naming) (TypeDecl.eventsOfList u.types)

/-! ## The sites of declarations -/

section Syntax

variable (path : List Symbol)

theorem TypeDecl.sites_cons (d : TypeDecl) (rest : List TypeDecl) :
    Event.sites path (TypeDecl.eventsOfList (d :: rest)) =
      Event.sites path d.events ++ Event.sites path (TypeDecl.eventsOfList rest) := by
  rw [TypeDecl.eventsOfList, Event.sites_append, TypeDecl.foldl_pathAfter]

theorem Member.sites_cons (m : Member) (rest : List Member) :
    Event.sites path (Member.eventsOfList (m :: rest)) =
      Event.sites path m.events ++ Event.sites path (Member.eventsOfList rest) := by
  rw [Member.eventsOfList, Event.sites_append, Member.foldl_pathAfter]

theorem TypeDecl.sites_mk (h : TypeHeader) (members : List Member) :
    Event.sites path (TypeDecl.mk h members).events =
      ⟨path ++ [h.symbol], .type h⟩ ::
        Event.sites (path ++ [h.symbol]) (Member.eventsOfList members) := by
  rw [TypeDecl.events, Event.sites, Event.sites_append]
  exact congrArg (_ :: ·) (List.append_nil _)

theorem CallableDecl.sites_inner (d : CallableDecl) :
    Event.sites path d.inner = Event.sites path (TypeDecl.eventsOfList d.localTypes) := by
  obtain ⟨h, localTypes⟩ := d
  have hparameters : ∀ e ∈ h.parameters.map Event.enterParameter, e.heading = none :=
    List.forall_mem_map.2 fun _ _ => rfl
  have hpath : (h.parameters.map Event.enterParameter).foldl Event.pathAfter path = path := by
    rw [List.foldl_map]
    exact List.foldl_fixed ..
  rw [CallableDecl.inner, Event.sites_append, Event.sites_of_heading hparameters, hpath]
  rfl

theorem Member.sites_constructor (d : CallableDecl) :
    Event.sites path (Member.constructor d).events =
      ⟨path ++ [d.header.symbol .constructor], .callable d.header⟩ ::
        Event.sites (path ++ [d.header.symbol .constructor])
          (TypeDecl.eventsOfList d.localTypes) := by
  rw [Member.events, Event.sites, Event.sites_append, ← CallableDecl.sites_inner]
  exact congrArg (_ :: ·) (List.append_nil _)

theorem Member.sites_method (d : CallableDecl) :
    Event.sites path (Member.method d).events =
      ⟨path ++ [d.header.symbol .method], .callable d.header⟩ ::
        Event.sites (path ++ [d.header.symbol .method]) (TypeDecl.eventsOfList d.localTypes) := by
  rw [Member.events, Event.sites, Event.sites_append, ← CallableDecl.sites_inner]
  exact congrArg (_ :: ·) (List.append_nil _)

theorem Member.sites_enumConstant (h : ConstantHeader) (members : List Member) :
    Event.sites path (Member.enumConstant (.mk h (some members))).events =
      Event.sites (path ++ [h.symbol]) (Member.eventsOfList members) := by
  rw [Member.events, ConstantDecl.events, Event.sites, Event.sites_append]
  exact List.append_nil _

theorem TypeDecl.sites_append (ds es : List TypeDecl) :
    Event.sites path (TypeDecl.eventsOfList (ds ++ es)) =
      Event.sites path (TypeDecl.eventsOfList ds) ++
        Event.sites path (TypeDecl.eventsOfList es) := by
  induction ds with
  | nil => rw [TypeDecl.eventsOfList]; rfl
  | cons d ds ih =>
    rw [List.cons_append, TypeDecl.sites_cons, TypeDecl.sites_cons, ih, List.append_assoc]

end Syntax

/-! ## Another order -/

/-- Members in another order name types at the same sites. -/
theorem Member.Reorders.perm_sites {ms ms' : List Member} (h : Member.Reorders ms ms') :
    ∀ path, (Event.sites path (Member.eventsOfList ms)).Perm
      (Event.sites path (Member.eventsOfList ms')) := by
  induction h with
  | refl ms => exact fun _ => .refl _
  | trans _ _ ih ih' => exact fun path => (ih path).trans (ih' path)
  | cons m _ ih =>
    intro path
    rw [Member.sites_cons, Member.sites_cons]
    exact (ih path).append_left _
  | swap ms _ =>
    intro path
    rw [Member.sites_cons, Member.sites_cons, Member.sites_cons, Member.sites_cons,
      ← List.append_assoc, ← List.append_assoc]
    exact List.perm_append_comm.append_right _
  | type h rest _ ih =>
    intro path
    rw [Member.sites_cons, Member.sites_cons, Member.events, Member.events, TypeDecl.sites_mk,
      TypeDecl.sites_mk]
    exact ((ih _).cons _).append_right _
  | constructor h before after header rest _ ih =>
    intro path
    simp only [Member.sites_cons, Member.sites_constructor, CallableDecl.localTypes,
      CallableDecl.header, TypeDecl.sites_append, TypeDecl.sites_cons, TypeDecl.sites_mk]
    exact (((((ih _).cons _).append_right _).append_left _).cons _).append_right _
  | method h before after header rest _ ih =>
    intro path
    simp only [Member.sites_cons, Member.sites_method, CallableDecl.localTypes,
      CallableDecl.header, TypeDecl.sites_append, TypeDecl.sites_cons, TypeDecl.sites_mk]
    exact (((((ih _).cons _).append_right _).append_left _).cons _).append_right _
  | enumConstant h rest _ ih =>
    intro path
    rw [Member.sites_cons, Member.sites_cons, Member.sites_enumConstant, Member.sites_enumConstant]
    exact (ih _).append_right _

theorem TypeDecl.Reorders.perm_sites {ds ds' : List TypeDecl} (h : TypeDecl.Reorders ds ds')
    (path : List Symbol) : (Event.sites path (TypeDecl.eventsOfList ds)).Perm
      (Event.sites path (TypeDecl.eventsOfList ds')) := by
  induction h with
  | refl ds => exact .refl _
  | trans _ _ ih ih' => exact ih.trans ih'
  | cons d _ ih =>
    rw [TypeDecl.sites_cons, TypeDecl.sites_cons]
    exact ih.append_left _
  | swap ds _ =>
    rw [TypeDecl.sites_cons, TypeDecl.sites_cons, TypeDecl.sites_cons, TypeDecl.sites_cons,
      ← List.append_assoc, ← List.append_assoc]
    exact List.perm_append_comm.append_right _
  | members h rest hms =>
    rw [TypeDecl.sites_cons, TypeDecl.sites_cons, TypeDecl.sites_mk, TypeDecl.sites_mk]
    exact ((hms.perm_sites _).cons _).append_right _

theorem CompilationUnit.Reorders.perm_sites {u u' : CompilationUnit} (h : u.Reorders u')
    (naming : Naming) : (u.sites naming).Perm (u'.sites naming) := by
  rw [CompilationUnit.sites, CompilationUnit.sites, h.packagePath]
  exact h.types.perm_sites _

/-! ## Sites lie below their file's types -/

/-- Below the path, through declarations only. -/
def Site.Under (outer : List Symbol) (site : Site) : Prop :=
  ∃ rest, site.path = outer ++ rest ∧ ∀ s ∈ rest, s.kind ≠ .root ∧ s.kind ≠ .package

namespace Site.Under

variable {outer : List Symbol} {site : Site}

theorem self {h : Heading} : Site.Under outer ⟨outer, h⟩ :=
  ⟨[], (List.append_nil outer).symm, fun _ hs => absurd hs List.not_mem_nil⟩

theorem step {s : Symbol} (hroot : s.kind ≠ .root) (hpackage : s.kind ≠ .package)
    (h : site.Under (outer ++ [s])) : site.Under outer := by
  obtain ⟨rest, hpath, hrest⟩ := h
  refine ⟨s :: rest, by rw [hpath, List.append_assoc, List.singleton_append], ?_⟩
  exact List.forall_mem_cons.2 ⟨⟨hroot, hpackage⟩, hrest⟩

end Site.Under

mutual
theorem TypeDecl.sites_under : ∀ (path : List Symbol) (d : TypeDecl),
    ∀ site ∈ Event.sites path d.events, site.Under (path ++ [d.header.symbol])
  | path, .mk h members, site, hsite => by
    rw [TypeDecl.sites_mk] at hsite
    rcases List.mem_cons.1 hsite with rfl | hsite
    · exact .self
    · exact Member.sites_underList (path ++ [h.symbol]) members site hsite

theorem TypeDecl.sites_underList : ∀ (path : List Symbol) (ds : List TypeDecl),
    ∀ site ∈ Event.sites path (TypeDecl.eventsOfList ds), site.Under path
  | path, [], site, hsite => by
    rw [TypeDecl.eventsOfList] at hsite
    exact absurd hsite List.not_mem_nil
  | path, d :: rest, site, hsite => by
    rw [TypeDecl.sites_cons] at hsite
    rcases List.mem_append.1 hsite with hsite | hsite
    · obtain ⟨hroot, hpackage⟩ := Scope.kind_ne_of_typeKind d.header.kind
      exact (TypeDecl.sites_under path d site hsite).step hroot hpackage
    · exact TypeDecl.sites_underList path rest site hsite

theorem Member.sites_under : ∀ (path : List Symbol) (m : Member),
    ∀ site ∈ Event.sites path m.events, site.Under path
  | path, .type d, site, hsite => by
    rw [Member.events] at hsite
    obtain ⟨hroot, hpackage⟩ := Scope.kind_ne_of_typeKind d.header.kind
    exact (TypeDecl.sites_under path d site hsite).step hroot hpackage
  | path, .constructor d, site, hsite => by
    rw [Member.sites_constructor] at hsite
    exact CallableDecl.sites_under path .constructor (by decide) (by decide) d site hsite
  | path, .method d, site, hsite => by
    rw [Member.sites_method] at hsite
    exact CallableDecl.sites_under path .method (by decide) (by decide) d site hsite
  | path, .field f, site, hsite => by
    rw [Member.events] at hsite
    exact absurd hsite List.not_mem_nil
  | path, .enumConstant d, site, hsite => ConstantDecl.sites_under path d site hsite

theorem Member.sites_underList : ∀ (path : List Symbol) (ms : List Member),
    ∀ site ∈ Event.sites path (Member.eventsOfList ms), site.Under path
  | path, [], site, hsite => by
    rw [Member.eventsOfList] at hsite
    exact absurd hsite List.not_mem_nil
  | path, m :: rest, site, hsite => by
    rw [Member.sites_cons] at hsite
    rcases List.mem_append.1 hsite with hsite | hsite
    · exact Member.sites_under path m site hsite
    · exact Member.sites_underList path rest site hsite

theorem CallableDecl.sites_under : ∀ (path : List Symbol) (kind : ComponentKind),
    kind ≠ .root → kind ≠ .package → ∀ d : CallableDecl,
    ∀ site ∈ (⟨path ++ [d.header.symbol kind], .callable d.header⟩ : Site) ::
      Event.sites (path ++ [d.header.symbol kind]) (TypeDecl.eventsOfList d.localTypes),
      site.Under path
  | path, kind, hroot, hpackage, .mk h localTypes, site, hsite => by
    rcases List.mem_cons.1 hsite with rfl | hsite
    · exact Site.Under.self.step hroot hpackage
    · exact (TypeDecl.sites_underList (path ++ [h.symbol kind]) localTypes site hsite).step hroot
        hpackage

theorem ConstantDecl.sites_under : ∀ (path : List Symbol) (d : ConstantDecl),
    ∀ site ∈ Event.sites path (Member.enumConstant d).events, site.Under path
  | path, .mk h none, site, hsite => by
    rw [Member.events, ConstantDecl.events] at hsite
    exact absurd hsite List.not_mem_nil
  | path, .mk h (some body), site, hsite => by
    rw [Member.sites_enumConstant] at hsite
    exact (Member.sites_underList (path ++ [h.symbol]) body site hsite).step
      ComponentKind.noConfusion ComponentKind.noConfusion
end

/-- A site lies in one of the types of its file. -/
theorem CompilationUnit.sites_under {naming : Naming} {u : CompilationUnit} {site : Site}
    (h : site ∈ u.sites naming) :
    ∃ d ∈ u.types, site.Under (u.packagePath naming ++ [d.header.symbol]) := by
  rw [CompilationUnit.sites] at h
  generalize u.types = ds at h ⊢
  induction ds with
  | nil =>
    rw [TypeDecl.eventsOfList] at h
    exact absurd h List.not_mem_nil
  | cons d rest ih =>
    rw [TypeDecl.sites_cons] at h
    rcases List.mem_append.1 h with h | h
    · exact ⟨d, List.mem_cons_self, TypeDecl.sites_under _ d site h⟩
    · obtain ⟨e, he, hunder⟩ := ih h
      exact ⟨e, List.mem_cons_of_mem d he, hunder⟩

end SymbolTable
