import SymbolTable.Proofs.Analysis.Lockstep

/-!
# Relating is marking

Whatever relates a declaration to types does so by marks on nodes of the file, one after the other.
What marks leave alone, relating leaves alone: the cursor, the shape of the tree, all that is
visible, and the mark of anonymous classes, which is made by declarations only. The marks that name
supertypes and bounds are edges, and what an edge may say is `EdgeValue`.
-/

namespace SymbolTable

namespace Scope

/-- A sequence of marks leads from `s` to the other scope; none of them makes a class anonymous. -/
inductive Marks (s : Scope) : Scope → Prop
  | none : Marks s s
  | mark {s' : Scope} (h : Marks s s') (id : NodeId) {kind : AttributeKind} (value : String)
      (hk : kind ≠ .localClass) : Marks s (s'.mark id kind value)

theorem Marks.one (s : Scope) (id : NodeId) {kind : AttributeKind} (value : String)
    (hk : kind ≠ .localClass) : s.Marks (s.mark id kind value) := .mark .none id value hk

theorem Marks.trans {s s' s'' : Scope} (h : s.Marks s') (h' : s'.Marks s'') : s.Marks s'' := by
  induction h' with
  | none => exact h
  | mark _ id value hk ih => exact ih.mark id value hk

end Scope

/-- Whether attributes of the kind point at a type. -/
def AttributeKind.IsEdge (kind : AttributeKind) : Prop :=
  kind = .extendsType ∨ kind = .implementsType

theorem AttributeKind.IsEdge.ne_localClass {kind : AttributeKind} (h : kind.IsEdge) :
    kind ≠ .localClass := by
  rcases h with rfl | rfl <;> decide

namespace Scope

/-- What an edge made in `s` says: one of the two implied supertypes, or what a name is resolved
to. -/
def EdgeValue (s : Scope) (app : Application) (value : String) : Prop :=
  value = objectName ∨ value = enumName ∨
    ∃ place text kind, s.resolveType app place text = some (value, kind)

/-- A sequence of edges leads from `s` to the other scope. -/
inductive Relates (app : Application) (s : Scope) : Scope → Prop
  | none : Relates app s s
  | edge {s' : Scope} (h : Relates app s s') (id : NodeId) {kind : AttributeKind} {value : String}
      (hk : kind.IsEdge) (hv : s'.EdgeValue app value) : Relates app s (s'.mark id kind value)

namespace Relates

variable {app : Application}

theorem one {s : Scope} (id : NodeId) {kind : AttributeKind} {value : String} (hk : kind.IsEdge)
    (hv : s.EdgeValue app value) : s.Relates app (s.mark id kind value) := .edge .none id hk hv

theorem trans {s s' s'' : Scope} (h : s.Relates app s') (h' : s'.Relates app s'') :
    s.Relates app s'' := by
  induction h' with
  | none => exact h
  | edge _ id hk hv ih => exact .edge ih id hk hv

theorem foldl {α : Type} {f : Scope → α → Scope} (hf : ∀ (s : Scope) a, s.Relates app (f s a))
    (as : List α) (s : Scope) : s.Relates app (as.foldl f s) := by
  induction as generalizing s with
  | nil => exact .none
  | cons a as ih => exact (hf s a).trans (ih _)

theorem marks {s s' : Scope} (h : s.Relates app s') : s.Marks s' := by
  induction h with
  | none => exact .none
  | edge _ id hk _ ih => exact .mark ih id _ hk.ne_localClass

end Relates

variable (s : Scope) (app : Application) (id : NodeId)

theorem relates_relate {kind : AttributeKind} (text : String) (hk : kind.IsEdge) :
    s.Relates app (s.relate app id kind text) := by
  unfold relate
  split
  · next hresolved => exact .one id hk (.inr (.inr ⟨_, _, _, hresolved⟩))
  · exact .none

theorem relates_relateAll {kind : AttributeKind} (texts : List String) (hk : kind.IsEdge) :
    s.Relates app (s.relateAll app id kind texts) :=
  Relates.foldl (fun s text => s.relates_relate app id text hk) texts s

theorem relateAll_cons (kind : AttributeKind) (first : String) (rest : List String) :
    s.relateAll app id kind (first :: rest) =
      (s.relate app id kind first).relateAll app id kind rest := by
  rw [relateAll, relateAll, List.foldl_cons]

theorem relates_relateBounds (bounds : List String) :
    s.Relates app (s.relateBounds app id bounds) := by
  cases bounds with
  | nil => exact .none
  | cons first rest =>
    have hfirst : s.Relates app (s.relate app id .extendsType first) :=
      s.relates_relate app id first (.inl rfl)
    exact hfirst.trans (relates_relateAll _ app id rest (.inr rfl))

theorem relates_attachBounds (parameters : List TypeParameterDecl) :
    s.Relates app (s.attachBounds app id parameters) := by
  apply Relates.foldl
  intro s p
  split
  · exact s.relates_relateBounds app _ _
  · exact .none

theorem relates_attachInstantiated (name : String) :
    s.Relates app (s.attachInstantiated app id name) := by
  unfold attachInstantiated
  split
  · next hresolved => exact .one id (.inr rfl) (.inr (.inr ⟨_, _, _, hresolved⟩))
  · next hresolved => exact .one id (.inl rfl) (.inr (.inr ⟨_, _, _, hresolved⟩))
  · exact .none

theorem relates_attachSuperclass (superclass : Option String) :
    s.Relates app (s.attachSuperclass app id superclass) := by
  unfold attachSuperclass
  split
  · exact s.relates_relate app id _ (.inl rfl)
  · split
    · exact .none
    · exact .one id (.inl rfl) (.inl rfl)

theorem relates_attachRelationships (h : TypeHeader) :
    s.Relates app (s.attachRelationships app id h) := by
  unfold attachRelationships
  split
  · split
    · exact s.relates_attachInstantiated app id _
    · exact (s.relates_attachSuperclass app id _).trans
        (relates_relateAll _ app id _ (.inr rfl))
  · exact s.relates_relateAll app id _ (.inr rfl)
  · refine Relates.trans ?_ (relates_relateAll _ app id _ (.inr rfl))
    split
    · exact .none
    · exact .one id (.inr rfl) (.inr (.inl rfl))
  · exact .none

theorem relates_relateType (phase : Phase) (h : TypeHeader) :
    s.Relates app (s.relateType app phase id h) := by
  unfold relateType
  split
  · exact (s.relates_attachRelationships app id h).trans (relates_attachBounds _ app id _)
  · exact .none

theorem relates_relateCallable (phase : Phase) (h : CallableHeader) :
    s.Relates app (s.relateCallable app phase id h) := by
  unfold relateCallable
  split
  · exact s.relates_attachBounds app id _
  · exact .none

theorem marks_relateConstant (phase : Phase) (owner : NodeId) :
    s.Marks (s.relateConstant app phase id owner) := by
  unfold relateConstant
  split
  · exact .one s id _ (by decide)
  · exact .none

end Scope

end SymbolTable
