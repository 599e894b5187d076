import SymbolTable.Proofs.Analysis.Delimiter

/-!
# Analyses with two delimiters

What a unit declares has the names of its declarations as values, so a delimiter that is absent from
these is absent from the tree all along the walk. Each event then does the same with either of two
such delimiters, and merging keeps the program clear of both. So a whole analysis gives one tree.
-/

namespace SymbolTable

open SymbolTable.Tree (root)

/-! ## Names and type texts of a unit -/

def TypeParameterDecl.texts (p : TypeParameterDecl) : List String := p.name :: p.bounds

def TypeHeader.texts (h : TypeHeader) : List String :=
  h.name :: (h.superclass.toList ++ h.interfaces ++ h.typeParameters.flatMap TypeParameterDecl.texts)

def CallableHeader.texts (h : CallableHeader) : List String :=
  h.name :: (h.returnType.toList ++ h.typeParameters.flatMap TypeParameterDecl.texts)

/-- The names, package segments, import paths and type texts that an event brings up. -/
def Event.texts : Event → List String
  | .enterPackage p => p.segments
  | .enterImport i => [i.path]
  | .enterType d => d.header.texts
  | .enterConstant d => [d.header.name]
  | .enterConstructor d | .enterMethod d => d.header.texts
  | .enterParameter p => [p.name, p.declaredType]
  | .enterField f => f.declaredType :: f.names
  | .enterUnit _ | .exitUnit _ | .exitTypeBody _ | .exitType _ | .exitConstant _
  | .exitConstructor _ | .exitMethod _ => []

/-! ## Values are names -/

section Values

variable {P : String → Prop} {file : Option Attribute}

theorem value_of_typeParameters {here : List Symbol} {ps : List TypeParameterDecl}
    (hps : ∀ text ∈ ps.flatMap TypeParameterDecl.texts, P text) :
    ∀ p ∈ ps.map fun p => (⟨here, typeParameterComponent p, false⟩ : Placement),
      P p.component.value := by
  intro p hp
  obtain ⟨q, hq, rfl⟩ := List.mem_map.1 hp
  have hname : P q.name := hps q.name (List.mem_flatMap.2 ⟨q, hq, List.mem_cons_self⟩)
  rwa [show (typeParameterComponent q).value = q.name from
    congrArg Symbol.value (symbol_typeParameterComponent q)]

theorem TypeHeader.value_of_closing {h : TypeHeader} {here : List Symbol} (hname : P h.name) :
    ∀ p ∈ h.closing here, P p.component.value := by
  intro p hp
  unfold TypeHeader.closing at hp
  split at hp
  · rwa [List.mem_singleton.1 hp]
  · rwa [List.mem_singleton.1 hp]
  · exact absurd hp List.not_mem_nil
  · exact absurd hp List.not_mem_nil

theorem value_of_constant {h : ConstantHeader} {body : List Placement} (hname : P h.name)
    (hbody : ∀ p ∈ body, P p.component.value) {outer here : List Symbol} :
    ∀ p ∈ (⟨outer, Scope.constantComponent h, false⟩ : Placement) ::
        (body ++ [⟨here, defaultConstructor h.name, true⟩]), P p.component.value := by
  intro p hp
  rw [List.mem_cons, List.mem_append, List.mem_singleton] at hp
  rcases hp with rfl | hp | rfl
  · rwa [show (Scope.constantComponent h).value = h.name from
      congrArg Symbol.value (Scope.symbol_constantComponent h)]
  · exact hbody p hp
  · exact hname

mutual
theorem TypeDecl.value_of_placements {outer : List Symbol} {imports : List Component}
    (himports : ∀ i ∈ imports, P i.value) :
    ∀ d : TypeDecl, (∀ e ∈ d.events, ∀ text ∈ e.texts, P text) →
      ∀ p ∈ d.placements file outer imports, P p.component.value
  | .mk h members, hd, p, hp => by
    rw [TypeDecl.events, List.forall_mem_cons, List.forall_mem_append] at hd
    obtain ⟨hself, hmembers, -⟩ := hd
    have hname : P h.name := hself h.name List.mem_cons_self
    rw [TypeDecl.placements, List.mem_cons, List.mem_append, List.mem_append, List.mem_append] at hp
    rcases hp with rfl | ((hp | hp) | hp) | hp
    · rwa [show (h.component file).value = h.name from
        congrArg Symbol.value (Scope.symbol_typeComponent _ h)]
    · obtain ⟨i, hi, rfl⟩ := List.mem_map.1 hp
      exact himports i hi
    · refine value_of_typeParameters (fun text htext => hself text ?_) p hp
      exact List.mem_cons_of_mem _ (List.mem_append_right _ htext)
    · exact Member.value_of_placementsOfList members hmembers p hp
    · exact TypeHeader.value_of_closing hname p hp

theorem TypeDecl.value_of_placementsOfList {outer : List Symbol} {imports : List Component}
    (himports : ∀ i ∈ imports, P i.value) :
    ∀ ds : List TypeDecl, (∀ e ∈ TypeDecl.eventsOfList ds, ∀ text ∈ e.texts, P text) →
      ∀ p ∈ TypeDecl.placementsOfList file outer imports ds, P p.component.value
  | [], _, p, hp => by
    rw [TypeDecl.placementsOfList] at hp
    exact absurd hp List.not_mem_nil
  | d :: rest, hds, p, hp => by
    rw [TypeDecl.eventsOfList, List.forall_mem_append] at hds
    rw [TypeDecl.placementsOfList, List.mem_append] at hp
    rcases hp with hp | hp
    · exact TypeDecl.value_of_placements himports d hds.1 p hp
    · exact TypeDecl.value_of_placementsOfList himports rest hds.2 p hp

theorem Member.value_of_placements {outer : List Symbol} :
    ∀ m : Member, (∀ e ∈ m.events, ∀ text ∈ e.texts, P text) →
      ∀ p ∈ m.placements file outer, P p.component.value
  | .type d, hm, p, hp => by
    rw [Member.events] at hm
    rw [Member.placements] at hp
    exact TypeDecl.value_of_placements (fun _ hi => absurd hi List.not_mem_nil) d hm p hp
  | .constructor d, hm, p, hp => by
    rw [Member.events, List.forall_mem_cons, List.forall_mem_append] at hm
    rw [Member.placements] at hp
    exact CallableDecl.value_of_placements .constructor d hm.1 hm.2.1 p hp
  | .method d, hm, p, hp => by
    rw [Member.events, List.forall_mem_cons, List.forall_mem_append] at hm
    rw [Member.placements] at hp
    exact CallableDecl.value_of_placements .method d hm.1 hm.2.1 p hp
  | .field f, hm, p, hp => by
    rw [Member.events, List.forall_mem_singleton] at hm
    rw [Member.placements] at hp
    obtain ⟨name, hname, rfl⟩ := List.mem_map.1 hp
    rw [show (Scope.fieldComponent f name).value = name from
      congrArg Symbol.value (Scope.symbol_fieldComponent f name)]
    exact hm name (List.mem_cons_of_mem _ hname)
  | .enumConstant d, hm, p, hp => by
    rw [Member.events] at hm
    rw [Member.placements] at hp
    exact ConstantDecl.value_of_placements d hm p hp

theorem Member.value_of_placementsOfList {outer : List Symbol} :
    ∀ ms : List Member, (∀ e ∈ Member.eventsOfList ms, ∀ text ∈ e.texts, P text) →
      ∀ p ∈ Member.placementsOfList file outer ms, P p.component.value
  | [], _, p, hp => by
    rw [Member.placementsOfList] at hp
    exact absurd hp List.not_mem_nil
  | m :: rest, hms, p, hp => by
    rw [Member.eventsOfList, List.forall_mem_append] at hms
    rw [Member.placementsOfList, List.mem_append] at hp
    rcases hp with hp | hp
    · exact Member.value_of_placements m hms.1 p hp
    · exact Member.value_of_placementsOfList rest hms.2 p hp

theorem CallableDecl.value_of_placements {outer : List Symbol} (kind : ComponentKind) :
    ∀ d : CallableDecl, (∀ text ∈ d.header.texts, P text) →
      (∀ e ∈ d.inner, ∀ text ∈ e.texts, P text) →
      ∀ p ∈ d.placements file outer kind, P p.component.value
  | .mk h localTypes, hself, hinner, p, hp => by
    rw [CallableDecl.inner, List.forall_mem_append, List.forall_mem_map] at hinner
    obtain ⟨hparameters, hlocal⟩ := hinner
    rw [CallableDecl.placements, List.mem_cons, List.mem_append, List.mem_append] at hp
    rcases hp with rfl | (hp | hp) | hp
    · rw [show (Scope.callableComponent kind h).value = h.name from
        congrArg Symbol.value (Scope.symbol_callableComponent kind h)]
      exact hself h.name List.mem_cons_self
    · refine value_of_typeParameters (fun text htext => hself text ?_) p hp
      exact List.mem_cons_of_mem _ (List.mem_append_right _ htext)
    · obtain ⟨q, hq, rfl⟩ := List.mem_map.1 hp
      rw [show (Scope.parameterComponent q).value = q.name from
        congrArg Symbol.value (Scope.symbol_parameterComponent q)]
      exact hparameters q hq q.name List.mem_cons_self
    · exact TypeDecl.value_of_placementsOfList (fun _ hi => absurd hi List.not_mem_nil) localTypes
        hlocal p hp

theorem ConstantDecl.value_of_placements {outer : List Symbol} :
    ∀ d : ConstantDecl, (∀ e ∈ d.events, ∀ text ∈ e.texts, P text) →
      ∀ p ∈ d.placements file outer, P p.component.value
  | .mk h none, hd, p, hp => by
    rw [ConstantDecl.events, List.forall_mem_cons] at hd
    rw [ConstantDecl.placements] at hp
    have hname : P h.name := hd.1 h.name List.mem_cons_self
    exact value_of_constant hname (fun _ hp => absurd hp List.not_mem_nil) p hp
  | .mk h (some body), hd, p, hp => by
    rw [ConstantDecl.events, List.forall_mem_cons, List.forall_mem_append] at hd
    rw [ConstantDecl.placements] at hp
    have hname : P h.name := hd.1 h.name List.mem_cons_self
    exact value_of_constant hname (Member.value_of_placementsOfList body hd.2.1) p hp
end

end Values

namespace CompilationUnit

variable {naming : Naming} {u : CompilationUnit} {P : String → Prop}
  (hdefault : P naming.defaultPackage) (hu : ∀ e ∈ u.events, ∀ text ∈ e.texts, P text)
include hdefault hu

/-- The values that a unit declares are its names, package segments and import paths, and the name
of the default package. -/
theorem value_of_placements : ∀ p ∈ u.placements naming, P p.component.value := by
  rw [events, List.forall_mem_cons, List.forall_mem_append, List.forall_mem_append,
    List.forall_mem_append, List.forall_mem_map, List.forall_mem_map] at hu
  obtain ⟨-, ⟨⟨hpackage, himports⟩, htypes⟩, -⟩ := hu
  intro p hp
  rcases List.mem_append.1 hp with hp | hp
  · have hpath : p.component.symbol ∈ u.packagePath naming :=
      (u.package_of_mem naming p hp).2.1.subset (List.mem_append_right _ List.mem_cons_self)
    unfold packagePath at hpath
    cases hdeclared : u.package with
    | none =>
      rw [hdeclared] at hpath
      have hvalue := congrArg Symbol.value (List.mem_singleton.1 hpath)
      exact (show p.component.value = naming.defaultPackage from hvalue) ▸ hdefault
    | some package =>
      rw [hdeclared] at hpath
      obtain ⟨segment, hsegment, hsymbol⟩ := List.mem_map.1 hpath
      have hvalue : segment = p.component.value := congrArg Symbol.value hsymbol
      exact hvalue ▸ hpackage package (by rw [hdeclared]; exact List.mem_cons_self) segment hsegment
  · refine TypeDecl.value_of_placementsOfList (fun c hc => ?_) u.types htypes p hp
    unfold listedImports at hc
    split at hc
    · exact absurd hc List.not_mem_nil
    · obtain ⟨i, hi, rfl⟩ := u.exists_of_mem_importComponents c hc
      exact himports i hi i.path List.mem_cons_self

end CompilationUnit

/-- No character of the delimiter occurs in a name, package segment, import path or type text of the
unit. -/
def CompilationUnit.Lacks (u : CompilationUnit) (delimiter : String) : Prop :=
  ∀ e ∈ u.events, ∀ text ∈ e.texts, Absent delimiter text

instance (u : CompilationUnit) (delimiter : String) : Decidable (u.Lacks delimiter) :=
  inferInstanceAs (Decidable (∀ e ∈ u.events, ∀ text ∈ e.texts, Absent delimiter text))

theorem CompilationUnit.Lacks.avoids_build {u : CompilationUnit} {delimiter : String}
    (hu : u.Lacks delimiter) {app : Application}
    (hdefault : Absent delimiter app.naming.defaultPackage) (s : Scope) (phase : Phase) :
    (s.build app phase u).1.Avoids delimiter := by
  have hgrown := u.grown_skeleton app.naming
  have hskeleton : (u.skeleton app.naming).Avoids delimiter := by
    intro above id hid
    have hself := hgrown.follow_identityPath (hgrown.child_lt hid)
    rcases List.eq_nil_or_concat' ((u.skeleton app.naming).identityPath id) with hnil | ⟨y, s, hpath⟩
    · rw [hnil, Tree.follow_nil] at hself
      have hpos := hgrown.lt_child hid
      rw [← Option.some.inj hself] at hpos
      exact absurd hpos (Nat.not_lt_zero _)
    · rw [hpath] at hself
      have hsome := Tree.isSome_entry_iff.2 ⟨id, hself⟩
      obtain ⟨p, hp, hplaced⟩ := CompilationUnit.placement_of_isSome hsome
      have hsymbol : p.component.symbol = s :=
        List.singleton_inj.1 (List.append_inj' hplaced rfl).2
      have hvalue : p.component.value = ((u.skeleton app.naming).node id).value :=
        congrArg Symbol.value (hsymbol.trans (Tree.symbol_of_follow_concat hself).symm)
      rw [← hvalue]
      exact CompilationUnit.value_of_placements hdefault hu p hp
  exact hskeleton.of_sameShape (u.alike_skeleton s app phase).sameShape

/-! ## Relating -/

section Two

variable {app : Application} {d d' : String} (h : app.Spells d) (h' : app.Spells d')
include h h'

namespace Scope

section Relate

variable {s : Scope} (hs : s.Clear (d ++ d')) (id : NodeId)
include hs

omit h h' hs in
theorem qualified_withDelimiter (delimiter : String) :
    s.qualified (app.withDelimiter delimiter) id = s.qualified app id := rfl

theorem relateAll_withDelimiter {kind : AttributeKind} (hk : kind.IsEdge) {texts : List String}
    (htexts : ∀ text ∈ texts, Absent (d ++ d') text) :
    s.relateAll (app.withDelimiter d') id kind texts =
      s.relateAll (app.withDelimiter d) id kind texts := by
  refine Tree.foldl_eq_of_invariant (fun rest s => s.Clear (d ++ d') ∧
    ∀ text ∈ rest, Absent (d ++ d') text) ?_ ⟨hs, htexts⟩
  rintro text rest s ⟨hs, htexts⟩
  rw [List.forall_mem_cons] at htexts
  have hmarks := (s.relates_relate (app.withDelimiter d) id text hk).marks
  exact ⟨relate_withDelimiter h h' hs id kind htexts.1, hmarks.clear_iff.2 hs, htexts.2⟩

theorem relateBounds_withDelimiter {bounds : List String}
    (hbounds : ∀ text ∈ bounds, Absent (d ++ d') text) :
    s.relateBounds (app.withDelimiter d') id bounds =
      s.relateBounds (app.withDelimiter d) id bounds := by
  cases bounds with
  | nil => rfl
  | cons first rest =>
    rw [List.forall_mem_cons] at hbounds
    have hmarks := (s.relates_relate (app.withDelimiter d) id first (.inl rfl)).marks
    rw [relateBounds, relateBounds, relate_withDelimiter h h' hs id _ hbounds.1]
    exact relateAll_withDelimiter h h' (hmarks.clear_iff.2 hs) id (.inr rfl) hbounds.2

theorem attachBounds_withDelimiter {ps : List TypeParameterDecl}
    (hps : ∀ text ∈ ps.flatMap TypeParameterDecl.texts, Absent (d ++ d') text) :
    s.attachBounds (app.withDelimiter d') id ps = s.attachBounds (app.withDelimiter d) id ps := by
  refine Tree.foldl_eq_of_invariant (fun rest s => s.Clear (d ++ d') ∧
    ∀ text ∈ rest.flatMap TypeParameterDecl.texts, Absent (d ++ d') text) ?_ ⟨hs, hps⟩
  rintro p rest s ⟨hs, hps⟩
  rw [List.flatMap_cons, List.forall_mem_append, TypeParameterDecl.texts,
    List.forall_mem_cons] at hps
  obtain ⟨⟨-, hbounds⟩, hrest⟩ := hps
  split
  · next i _ =>
    have hmarks := (s.relates_relateBounds (app.withDelimiter d) i p.bounds).marks
    exact ⟨relateBounds_withDelimiter h h' hs i hbounds, hmarks.clear_iff.2 hs, hrest⟩
  · exact ⟨rfl, hs, hrest⟩

theorem attachSuperclass_withDelimiter {superclass : Option String}
    (hsuperclass : ∀ text ∈ superclass, Absent (d ++ d') text) :
    s.attachSuperclass (app.withDelimiter d') id superclass =
      s.attachSuperclass (app.withDelimiter d) id superclass := by
  unfold attachSuperclass
  cases superclass with
  | none =>
    simp only
    rw [qualified_withDelimiter, qualified_withDelimiter]
  | some text =>
    have htext : Absent (d ++ d') text := hsuperclass text rfl
    exact relate_withDelimiter h h' hs id .extendsType htext

theorem attachRelationships_withDelimiter {header : TypeHeader}
    (hheader : ∀ text ∈ header.texts, Absent (d ++ d') text) :
    s.attachRelationships (app.withDelimiter d') id header =
      s.attachRelationships (app.withDelimiter d) id header := by
  rw [TypeHeader.texts, List.forall_mem_cons, List.forall_mem_append, List.forall_mem_append]
    at hheader
  obtain ⟨hname, ⟨hsuperclass, hinterfaces⟩, -⟩ := hheader
  unfold attachRelationships
  split
  · split
    · unfold attachInstantiated
      rw [resolveType_withDelimiter h h' hs _ hname]
    · have hmarks := (s.relates_attachSuperclass (app.withDelimiter d) id header.superclass).marks
      rw [attachSuperclass_withDelimiter h h' hs id fun text htext =>
        hsuperclass text (Option.mem_toList.2 htext)]
      exact relateAll_withDelimiter h h' (hmarks.clear_iff.2 hs) id (.inr rfl) hinterfaces
  · exact relateAll_withDelimiter h h' hs id (.inr rfl) hinterfaces
  · rw [qualified_withDelimiter, qualified_withDelimiter]
    refine relateAll_withDelimiter h h' ?_ id (.inr rfl) hinterfaces
    split
    · exact hs
    · exact (Marks.one s id enumName (by decide)).clear_iff.2 hs
  · rfl

theorem relateType_withDelimiter (phase : Phase) {header : TypeHeader}
    (hheader : ∀ text ∈ header.texts, Absent (d ++ d') text) :
    s.relateType (app.withDelimiter d') phase id header =
      s.relateType (app.withDelimiter d) phase id header := by
  have hmarks := (s.relates_attachRelationships (app.withDelimiter d) id header).marks
  unfold relateType
  rw [attachRelationships_withDelimiter h h' hs id hheader,
    attachBounds_withDelimiter h h' (hmarks.clear_iff.2 hs) id fun text htext => hheader text
      (List.mem_cons_of_mem _ (List.mem_append_right _ htext))]

theorem relateCallable_withDelimiter (phase : Phase) {header : CallableHeader}
    (hheader : ∀ text ∈ header.texts, Absent (d ++ d') text) :
    s.relateCallable (app.withDelimiter d') phase id header =
      s.relateCallable (app.withDelimiter d) phase id header := by
  unfold relateCallable
  rw [attachBounds_withDelimiter h h' hs id fun text htext => hheader text
    (List.mem_cons_of_mem _ (List.mem_append_right _ htext))]

end Relate

/-! ## Events -/

variable (s : Scope)

theorem openPackage_withDelimiter {segments : List String}
    (hsegments : ∀ segment ∈ segments, Absent (d ++ d') segment) :
    s.openPackage (app.withDelimiter d') (d'.intercalate segments) =
      s.openPackage (app.withDelimiter d) (d.intercalate segments) := by
  have hboth := fun segment hsegment => absent_append.1 (hsegments segment hsegment)
  unfold openPackage
  rw [Application.find_withDelimiter h h' (fun segment hsegment => (hboth segment hsegment).1)
    fun segment hsegment => (hboth segment hsegment).2]

theorem openImport_withDelimiter {i : ImportDecl} (hpath : Absent (d ++ d') i.path) :
    s.openImport (app.withDelimiter d') i = s.openImport (app.withDelimiter d) i := by
  obtain ⟨hd, hd'⟩ := absent_append.1 hpath
  unfold openImport
  rw [Application.find_coordinateOf h h' hd hd']

theorem ensurePackage_withDelimiter :
    s.ensurePackage (app.withDelimiter d') = s.ensurePackage (app.withDelimiter d) := by
  have hname : ∀ segment ∈ [app.naming.defaultPackage], Absent (d ++ d') segment := by
    intro segment hsegment
    rw [List.mem_singleton.1 hsegment]
    exact absent_append.2 ⟨h.defaultPackage, h'.defaultPackage⟩
  have hopen := fun s : Scope => openPackage_withDelimiter h h' s hname
  simp only [String.intercalate_singleton] at hopen
  unfold ensurePackage
  split
  · rfl
  · exact hopen _

theorem declareType_withDelimiter (header : TypeHeader) :
    s.declareType (app.withDelimiter d') header = s.declareType (app.withDelimiter d) header := by
  unfold declareType
  rw [ensurePackage_withDelimiter h h' s]

variable {s}

/-- An event does the same with either delimiter if what it leaves is clear of both. -/
theorem step_withDelimiter (phase : Phase) {e : Event}
    (htexts : ∀ text ∈ e.texts, Absent (d ++ d') text)
    (hclear : (step (app.withDelimiter d) phase s e).Clear (d ++ d')) :
    step (app.withDelimiter d') phase s e = step (app.withDelimiter d) phase s e := by
  have hcallable : ∀ kind header, (∀ text ∈ CallableHeader.texts header, Absent (d ++ d') text) →
      (s.enterCallable (app.withDelimiter d) phase kind header).Clear (d ++ d') →
      s.enterCallable (app.withDelimiter d') phase kind header =
        s.enterCallable (app.withDelimiter d) phase kind header := by
    intro kind header hheader hclear
    rw [enterCallable_eq] at hclear
    have hmarks := (relates_relateCallable (s.declareCallable kind header).2 (app.withDelimiter d)
      (s.declareCallable kind header).1 phase header).marks
    exact relateCallable_withDelimiter h h' (hmarks.clear_iff.1 hclear) _ phase hheader
  cases e with
  | enterPackage p => exact openPackage_withDelimiter h h' _ htexts
  | enterImport i =>
    simp only [step, enterImport_eq]
    exact openImport_withDelimiter h h' _ (htexts i.path List.mem_cons_self)
  | enterType t =>
    simp only [step, enterType_eq, declareType_withDelimiter h h'] at hclear ⊢
    have hmarks := (relates_relateType (s.declareType (app.withDelimiter d) t.header).2
      (app.withDelimiter d) (s.declareType (app.withDelimiter d) t.header).1 phase t.header).marks
    exact relateType_withDelimiter h h' (hmarks.clear_iff.1 hclear) _ phase htexts
  | enterConstructor c => exact hcallable _ c.header htexts hclear
  | enterMethod c => exact hcallable _ c.header htexts hclear
  | enterUnit _ => rfl
  | exitUnit _ => rfl
  | exitTypeBody _ => rfl
  | exitType _ => rfl
  | enterConstant _ => rfl
  | exitConstant _ => rfl
  | exitConstructor _ => rfl
  | exitMethod _ => rfl
  | enterParameter _ => rfl
  | enterField _ => rfl

/-- The trees before the end of a walk are parts of its tree, which avoids both delimiters. -/
theorem steps_withDelimiter (phase : Phase) {events : List Event}
    (htexts : ∀ e ∈ events, ∀ text ∈ e.texts, Absent (d ++ d') text) (hs : s.Sound)
    (havoids : (events.foldl (step (app.withDelimiter d) phase) s).tree.Avoids (d ++ d')) :
    events.foldl (step (app.withDelimiter d') phase) s =
      events.foldl (step (app.withDelimiter d) phase) s := by
  induction events generalizing s with
  | nil => rfl
  | cons e events ih =>
    rw [List.forall_mem_cons] at htexts
    rw [List.foldl_cons] at havoids
    have hs' : (step (app.withDelimiter d) phase s e).Sound := (acts_step hs e).sound hs
    have hacts : Acts (app.withDelimiter d) phase (step (app.withDelimiter d) phase s e)
        (events.foldl (step (app.withDelimiter d) phase) (step (app.withDelimiter d) phase s e)) :=
      acts_steps hs' events
    have hclear : (step (app.withDelimiter d) phase s e).Clear (d ++ d') :=
      ⟨hs'.grown, (hacts.growth hs').avoids hs'.grown.linked havoids⟩
    rw [List.foldl_cons, List.foldl_cons, step_withDelimiter h h' phase htexts.1 hclear]
    exact ih htexts.2 hs' havoids

theorem build_withDelimiter (phase : Phase) {u : CompilationUnit} (hu : u.Lacks (d ++ d')) :
    s.build (app.withDelimiter d') phase u = s.build (app.withDelimiter d) phase u := by
  have hdefault : Absent (d ++ d') (app.withDelimiter d).naming.defaultPackage :=
    absent_append.2 ⟨h.defaultPackage, h'.defaultPackage⟩
  have havoids : (s.build (app.withDelimiter d) phase u).1.Avoids (d ++ d') :=
    hu.avoids_build hdefault s phase
  have hwalk : s.walk (app.withDelimiter d') phase u = s.walk (app.withDelimiter d) phase u := by
    unfold walk
    rw [seed_withDelimiter h h']
    exact steps_withDelimiter h h' phase hu (sound_seed s _) havoids
  rw [build, build, hwalk]

end Scope

end Two

/-! ## Runs -/

/-- An application that writes coordinates with a delimiter of which it holds no character, and the
same is true of another one. -/
structure Application.Neutral (app : Application) (delimiter : String) : Prop where
  grown : app.components.Grown
  own : app.Spells app.naming.delimiter
  other : app.Spells delimiter

theorem Application.Spells.merge {app : Application} {delimiter : String} (h : app.Spells delimiter)
    (hgrown : app.components.Grown) {tree : Tree} (htree : tree.Grown)
    (havoids : tree.Avoids delimiter) : (app.merge tree).Spells delimiter :=
  { h with components := h.components.merge hgrown htree havoids }

namespace Analyzer

def withDelimiter (a : Analyzer) (delimiter : String) : Analyzer :=
  { a with application := a.application.withDelimiter delimiter }

variable {a : Analyzer} {d' : String} (h : a.application.Neutral d')
include h

theorem absorb_withDelimiter (phase : Phase) {u : CompilationUnit}
    (hu : u.Lacks (a.application.naming.delimiter ++ d')) :
    (a.withDelimiter d').absorb phase u =
      ((a.absorb phase u).1.withDelimiter d', (a.absorb phase u).2) := by
  have hbuild : a.scope.build (a.application.withDelimiter d') phase u =
      a.scope.build a.application phase u := Scope.build_withDelimiter h.own h.other phase hu
  have happ : (a.withDelimiter d').application = a.application.withDelimiter d' := rfl
  have hscope : (a.withDelimiter d').scope = a.scope := rfl
  unfold absorb
  rw [happ, hscope, hbuild]
  rfl

theorem neutral_absorb (phase : Phase) {u : CompilationUnit}
    (hu : u.Lacks (a.application.naming.delimiter ++ d')) :
    (a.absorb phase u).1.application.Neutral d' := by
  have hgrown : (a.scope.build a.application phase u).1.Grown :=
    (u.grown_skeleton _).of_sameShape (u.alike_skeleton _ _ phase).sameShape
  have hboth := fun e he text htext => absent_append.1 (hu e he text htext)
  have hown : u.Lacks a.application.naming.delimiter := fun e he text htext =>
    (hboth e he text htext).1
  have hother : u.Lacks d' := fun e he text htext => (hboth e he text htext).2
  rw [absorb_application]
  exact ⟨Tree.grown_merge h.grown hgrown,
    h.own.merge h.grown hgrown (hown.avoids_build h.own.defaultPackage _ phase),
    h.other.merge h.grown hgrown (hother.avoids_build h.other.defaultPackage _ phase)⟩

theorem absorbAll_withDelimiter (phase : Phase) {units : List CompilationUnit}
    (hunits : ∀ u ∈ units, u.Lacks (a.application.naming.delimiter ++ d')) :
    (a.withDelimiter d').absorbAll phase units =
        ((a.absorbAll phase units).1.withDelimiter d', (a.absorbAll phase units).2) ∧
      (a.absorbAll phase units).1.application.Neutral d' ∧
      (a.absorbAll phase units).1.application.naming = a.application.naming := by
  induction units generalizing a with
  | nil => exact ⟨rfl, h, rfl⟩
  | cons u rest ih =>
    rw [List.forall_mem_cons] at hunits
    obtain ⟨hrest, hneutral, hnaming⟩ := ih (neutral_absorb h phase hunits.1) hunits.2
    refine ⟨?_, hneutral, hnaming⟩
    simp only [absorbAll, absorb_withDelimiter h phase hunits.1, hrest]

theorem runPass_withDelimiter (phase : Phase) {units : List CompilationUnit}
    (hunits : ∀ u ∈ units, u.Lacks (a.application.naming.delimiter ++ d')) :
    (a.withDelimiter d').runPass phase units =
      ((a.runPass phase units).1.withDelimiter d', (a.runPass phase units).2) := by
  simp only [runPass, (absorbAll_withDelimiter h phase hunits).1]
  rfl

/-- The two passes do the same with either delimiter. -/
theorem run_withDelimiter {units : List CompilationUnit}
    (hunits : ∀ u ∈ units, u.Lacks (a.application.naming.delimiter ++ d')) :
    (a.withDelimiter d').run units =
      ((a.run units).1.withDelimiter d', (a.run units).2) := by
  obtain ⟨-, hneutral, hnaming⟩ := absorbAll_withDelimiter h .declaration hunits
  rw [← hnaming] at hunits
  have hsecond := runPass_withDelimiter (a := (a.runPass .declaration units).1) hneutral .structural
    hunits
  have hfirst := runPass_withDelimiter h .declaration (hnaming ▸ hunits)
  simp only [run, hfirst, hsecond]
  rfl

end Analyzer

theorem Analyzer.withLibraries_withDelimiter (naming : Naming) (libraries : List Library)
    (d d' : String) :
    withLibraries (naming.withDelimiter d') libraries =
      (withLibraries (naming.withDelimiter d) libraries).withDelimiter d' := by
  have hstep : ∀ (a : Analyzer) (l : Library),
      ((a.withDelimiter d').registerLibrary l).1 = (a.registerLibrary l).1.withDelimiter d' := by
    intro a l
    have happ : (a.withDelimiter d').application.libraries = a.application.libraries := rfl
    simp only [registerLibrary, Application.addLibrary, happ]
    split <;> rfl
  have hfold : ∀ (ls : List Library) (a : Analyzer),
      ls.foldl (fun a l => (a.registerLibrary l).1) (a.withDelimiter d') =
        (ls.foldl (fun a l => (a.registerLibrary l).1) a).withDelimiter d' := by
    intro ls
    induction ls with
    | nil => exact fun _ => rfl
    | cons l ls ih => exact fun a => by rw [List.foldl_cons, List.foldl_cons, hstep, ih]
  exact hfold libraries (new (naming.withDelimiter d))

theorem Analyzer.mem_of_mem_withLibraries {naming : Naming} {libraries : List Library} {l : Library}
    (hl : l ∈ (withLibraries naming libraries).application.libraries) : l ∈ libraries := by
  refine List.foldlRecOn (motive := fun a : Analyzer => ∀ l ∈ a.application.libraries,
    l ∈ libraries) libraries _ (fun _ hk => absurd hk List.not_mem_nil) ?_ l hl
  intro a ha l hmem k hk
  simp only [registerLibrary, Application.addLibrary] at hk
  split at hk
  · exact ha k hk
  · rcases List.mem_append.1 hk with hk | hk
    · exact ha k hk
    · exact List.mem_singleton.1 hk ▸ hmem

/-- The delimiter is not empty, and no character of it is a dot or occurs in the default package, in
a value of a library, or in what the units spell out. -/
structure Foreign (naming : Naming) (libraries : List Library) (units : List CompilationUnit)
    (delimiter : String) : Prop where
  ne_empty : delimiter ≠ ""
  dot : Absent delimiter "."
  defaultPackage : Absent delimiter naming.defaultPackage
  libraries : ∀ l ∈ libraries, l.components.Avoids delimiter
  units : ∀ u ∈ units, u.Lacks delimiter

namespace Foreign

variable {naming : Naming} {libraries : List Library} {units : List CompilationUnit}
  {delimiter : String}

theorem spells (h : Foreign naming libraries units delimiter)
    (himplicit : ∀ name ∈ Scope.implicitPackages, Absent delimiter name) (own : String) :
    (Analyzer.withLibraries (naming.withDelimiter own) libraries).application.Spells delimiter := by
  obtain ⟨hnaming, hempty⟩ := Analyzer.withLibraries_application (naming.withDelimiter own) libraries
  refine ⟨h.ne_empty, ?_, fun l hl => ?_, ?_, himplicit⟩
  · rw [hempty]
    exact Tree.avoids_empty delimiter
  · exact h.libraries l (Analyzer.mem_of_mem_withLibraries hl)
  · rw [hnaming]
    exact h.defaultPackage

end Foreign

/-- Of two delimiters that occur neither in what is analyzed nor in the names of the implicit
packages, it does not matter which one is used. -/
theorem components_analyze_withDelimiter {naming : Naming} {libraries : List Library}
    {units : List CompilationUnit} {d d' : String} (h : Foreign naming libraries units d)
    (h' : Foreign naming libraries units d')
    (himplicit : ∀ name ∈ Scope.implicitPackages, Absent d name ∧ Absent d' name) :
    (analyze (naming.withDelimiter d') libraries units).1.components =
      (analyze (naming.withDelimiter d) libraries units).1.components := by
  obtain ⟨hnaming, hempty⟩ := Analyzer.withLibraries_application (naming.withDelimiter d) libraries
  have hdelimiter : (Analyzer.withLibraries (naming.withDelimiter d)
      libraries).application.naming.delimiter = d := by rw [hnaming]; rfl
  have hneutral : (Analyzer.withLibraries (naming.withDelimiter d)
      libraries).application.Neutral d' := by
    refine ⟨?_, ?_, h'.spells (fun name hname => (himplicit name hname).2) d⟩
    · rw [hempty]
      exact Tree.grown_empty
    · rw [hdelimiter]
      exact h.spells (fun name hname => (himplicit name hname).1) d
  have hunits : ∀ u ∈ units, u.Lacks ((Analyzer.withLibraries (naming.withDelimiter d)
      libraries).application.naming.delimiter ++ d') := by
    rw [hdelimiter]
    exact fun u hu e he text htext =>
      absent_append.2 ⟨h.units u hu e he text htext, h'.units u hu e he text htext⟩
  calc (analyze (naming.withDelimiter d') libraries units).1.components
      = (((Analyzer.withLibraries (naming.withDelimiter d) libraries).withDelimiter d').run
          units).1.components := by
        rw [analyze, Analyzer.withLibraries_withDelimiter naming libraries d d']
    _ = (((Analyzer.withLibraries (naming.withDelimiter d) libraries).run units).1.withDelimiter
          d').components := by
        rw [Analyzer.run_withDelimiter hneutral hunits]
    _ = (analyze (naming.withDelimiter d) libraries units).1.components := rfl

/-- A library that has the class `Base` in the package `p`. -/
def baseLibrary : Library where
  groupId := "g"
  artifactId := "base"
  version := "1"
  revisionId := none
  components := Tree.packageWith ["Base"]

/-- A class that extends an imported class of the library, and one that extends it in turn. -/
def importingUnits : List CompilationUnit :=
  [classUnit "a" "A" [⟨"p.Base", false, false, default⟩] (some "Base"),
    classUnit "b" "B" [] (some "a.A")]

theorem components_analyze_slash :
    Foreign {} [baseLibrary] importingUnits "::" ∧ Foreign {} [baseLibrary] importingUnits "/" ∧
    (∀ name ∈ Scope.implicitPackages, Absent "::" name ∧ Absent "/" name) ∧
    (analyze (Naming.withDelimiter {} "/") [baseLibrary] importingUnits).1.components =
      (analyze (Naming.withDelimiter {} "::") [baseLibrary] importingUnits).1.components := by
  have h : Foreign {} [baseLibrary] importingUnits "::" :=
    ⟨by decide, by decide, by decide, by decide +kernel, by decide +kernel⟩
  have h' : Foreign {} [baseLibrary] importingUnits "/" :=
    ⟨by decide, by decide, by decide, by decide +kernel, by decide +kernel⟩
  have himplicit : ∀ name ∈ Scope.implicitPackages, Absent "::" name ∧ Absent "/" name := by decide
  exact ⟨h, h', himplicit, components_analyze_withDelimiter h h' himplicit⟩

/-- With the delimiter `n` the coordinate of `java.lang` is also that of the package `java.la.g`. -/
def splitPackageUnits : List CompilationUnit :=
  [{ sourceName := "K.java"
     package := some ⟨["java", "la", "g"], default⟩
     imports := []
     types := [.mk ⟨.classType, "K", ["public"], [], none, [], false, default⟩ []] },
    classUnit "q" "U" [] (some "K")]

/-- With the delimiter `n` the file of `U` sees the class `K` as if it were in `java.lang`. -/
theorem components_analyze_ne_of_implicitPackage :
    Foreign {} [] splitPackageUnits "n" ∧ Foreign {} [] splitPackageUnits "#" ∧
    (analyze (Naming.withDelimiter {} "#") [] splitPackageUnits).1.components ≠
      (analyze (Naming.withDelimiter {} "n") [] splitPackageUnits).1.components := by
  refine ⟨⟨by decide, by decide, by decide, by decide, by decide +kernel⟩,
    ⟨by decide, by decide, by decide, by decide, by decide +kernel⟩, fun heq => ?_⟩
  have hedge : ⟨.extendsType, "java.la.g.K"⟩ ∈ ((analyze (Naming.withDelimiter {} "n") []
      splitPackageUnits).1.components.node 7).attributes := by decide +kernel
  have hnone : ⟨.extendsType, "java.la.g.K"⟩ ∉ ((analyze (Naming.withDelimiter {} "#") []
      splitPackageUnits).1.components.node 7).attributes := by decide +kernel
  rw [heq] at hnone
  exact hnone hedge

end SymbolTable
