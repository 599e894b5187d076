import SymbolTable.Proofs.Declaration.Construct

/-!
# Nesting of a walk

The walk over a compilation unit is a bracket sequence that enters every construct once, in source
order and inside the construct that contains it, and from which the nesting can be read off.

* `Event.Balanced`: what a bracket sequence of events is;
* `Nesting.read`: the nesting that the roles of the events spell out, whatever else they tell;
* `Construct.exists_of_events_eq`: where in a walk an event stands, with one form for the events that
  enter and one for those that leave;
* `CompilationUnit.WellNested`: the properties of a walk, shown of every unit by
  `CompilationUnit.wellNested_events`.
-/

namespace SymbolTable

namespace Event

/-! ## Roles of events -/

/-- What an event does to the constructs that are open. -/
inductive Role where
  /-- Opens a construct that a later event closes. -/
  | opens
  /-- Opens and closes a construct at once. -/
  | stands
  /-- Ends the body of the construct last opened and leaves it open. -/
  | endsBody
  /-- Closes the construct last opened. -/
  | closes
  deriving DecidableEq

def role : Event → Role
  | .enterUnit _ | .enterType _ | .enterConstant _ | .enterConstructor _ | .enterMethod _ => .opens
  | .enterPackage _ | .enterImport _ | .enterParameter _ | .enterField _ => .stands
  | .exitTypeBody _ => .endsBody
  | .exitUnit _ | .exitType _ | .exitConstant _ | .exitConstructor _ | .exitMethod _ => .closes

/-- The construct an event is about. -/
def construct : Event → Construct
  | .enterUnit u | .exitUnit u => .unit u
  | .enterPackage p => .package p
  | .enterImport i => .importDecl i
  | .enterType d | .exitTypeBody d | .exitType d => .type d
  | .enterConstant d | .exitConstant d => .constant d
  | .enterConstructor d | .exitConstructor d => .constructor d
  | .enterMethod d | .exitMethod d => .method d
  | .enterParameter p => .parameter p
  | .enterField f => .field f

/-- The construct an event enters, if it enters one. -/
def entered? (e : Event) : Option Construct :=
  match e.role with
  | .opens | .stands => some e.construct
  | .endsBody | .closes => none

/-- What is known of an event to one who cannot look into its construct. -/
def labelled {α : Type} (label : Construct → α) (e : Event) : Role × α :=
  (e.role, label e.construct)

/-- A bracket sequence: every construct that is opened is closed, and what is opened in between is
closed before. -/
inductive Balanced : List Event → Prop where
  | nil : Balanced []
  | cons {e : Event} {es : List Event} (he : e.role = .stands ∨ e.role = .endsBody)
      (hes : Balanced es) : Balanced (e :: es)
  | bracket {o c : Event} {inside es : List Event} (ho : o.role = .opens) (hc : c.role = .closes)
      (hoc : c.construct = o.construct) (hinside : Balanced inside) (hes : Balanced es) :
      Balanced (o :: (inside ++ c :: es))

theorem Balanced.append {es es' : List Event} (h : Balanced es) (h' : Balanced es') :
    Balanced (es ++ es') := by
  induction h with
  | nil => exact h'
  | cons he _ ih => exact .cons he ih
  | bracket ho hc hoc hinside _ _ ih =>
    rw [List.cons_append, List.append_assoc, List.cons_append]
    exact .bracket ho hc hoc hinside ih

theorem Balanced.flatMap {α : Type} {f : α → List Event} {as : List α}
    (h : ∀ a ∈ as, Balanced (f a)) : Balanced (as.flatMap f) := by
  induction as with
  | nil => exact .nil
  | cons a as ih =>
    rw [List.flatMap_cons]
    exact (h a (.head as)).append (ih fun b hb => h b (.tail a hb))

theorem Balanced.of_endsBody {es : List Event} (h : ∀ e ∈ es, e.role = .endsBody) : Balanced es := by
  induction es with
  | nil => exact .nil
  | cons e es ih => exact .cons (.inr (h e (.head es))) (ih fun e' he' => h e' (.tail e he'))

end Event

/-! ## Reading the nesting -/

/-- Labels with labels inside. -/
inductive Nesting (α : Type) where
  | node (label : α) (inside : List (Nesting α))

namespace Nesting

/-- A reader of events: what is complete inside the construct last opened, and the constructs that
are open, innermost first, each with what was complete before it. -/
structure Reader (α : Type) where
  inside : List (Nesting α)
  opened : List (α × List (Nesting α))

variable {α : Type}

/-- One event read, of which only the role and a label are known. -/
def Reader.step (r : Reader α) : Event.Role × α → Option (Reader α)
  | (.opens, a) => some ⟨[], (a, r.inside) :: r.opened⟩
  | (.stands, a) => some ⟨r.inside ++ [node a []], r.opened⟩
  | (.endsBody, _) => some r
  | (.closes, _) =>
    match r.opened with
    | [] => none
    | (a, before) :: opened => some ⟨before ++ [node a r.inside], opened⟩

/-- The nesting spelled out by events, when each construct that is opened is closed. -/
def read (events : List (Event.Role × α)) : Option (List (Nesting α)) :=
  match events.foldlM Reader.step ⟨[], []⟩ with
  | some ⟨inside, []⟩ => some inside
  | _ => none

end Nesting

namespace Construct

/-- A construct with all that is inside, each before its contents. -/
def listing (c : Construct) : List Construct :=
  c :: c.contents.attach.flatMap fun ⟨d, _⟩ => listing d
termination_by sizeOf c
decreasing_by exact sizeOf_lt_of_mem_contents ‹_›

theorem listing_eq (c : Construct) : c.listing = c :: c.contents.flatMap listing := by
  rw [listing, List.flatMap_subtype fun _ _ => rfl, List.unattach_attach]

/-- The nesting of a construct, with every construct labelled by `label`. -/
def nesting {α : Type} (label : Construct → α) (c : Construct) : Nesting α :=
  .node (label c) (c.contents.attach.map fun ⟨d, _⟩ => nesting label d)
termination_by sizeOf c
decreasing_by exact sizeOf_lt_of_mem_contents ‹_›

theorem nesting_eq {α : Type} (label : Construct → α) (c : Construct) :
    c.nesting label = .node (label c) (c.contents.map (nesting label)) := by
  rw [nesting, List.attach_map_val]

/-- The walk over `c` stands between the events `before` and `after`, directly inside a walk over
`k`: `k` is entered and all of its contents before `c` are walked, then `c`, and then the others
before `k` is left. -/
def Inside (c k : Construct) (before after : List Event) : Prop :=
  ∃ pre post earlier later, k.contents = pre ++ c :: post ∧
    before = earlier ++ k.enter :: pre.flatMap events ∧
      after = post.flatMap events ++ k.leave ++ later

/-- The walk over `k` stands between the events `before` and `after` of the walk over `c`: it is the
whole walk, or it stands directly inside the walk over another construct. -/
def Occurs (c k : Construct) (before after : List Event) : Prop :=
  (k = c ∧ before = [] ∧ after = []) ∨ ∃ p, k.Inside p before after

/-! ## A construct's own events -/

@[simp] theorem construct_enter (c : Construct) : c.enter.construct = c := by
  cases c <;> rfl

@[simp] theorem entered?_enter (c : Construct) : c.enter.entered? = some c := by
  cases c <;> rfl

theorem entered?_of_mem_leave {c : Construct} {e : Event} (h : e ∈ c.leave) : e.entered? = none := by
  cases c with
  | type d =>
    obtain rfl | rfl : e = .exitTypeBody d ∨ e = .exitType d := by simpa [leave] using h
    · rfl
    · rfl
  | package | importDecl | parameter | field => simp [leave] at h
  | _ =>
    cases List.mem_singleton.mp h
    rfl

/-- A construct is entered and left at once, or is left by its closing event, with at most the end
of its body before. -/
theorem enter_leave_cases (c : Construct) :
    (c.enter.role = .stands ∧ c.contents = [] ∧ c.leave = []) ∨
      (c.enter.role = .opens ∧ ∃ ends e, c.leave = ends ++ [e] ∧ (∀ b ∈ ends, b.role = .endsBody) ∧
        e.role = .closes ∧ e.construct = c) := by
  cases c with
  | package | importDecl | parameter | field => exact .inl ⟨rfl, rfl, rfl⟩
  | type d =>
    refine .inr ⟨rfl, [.exitTypeBody d], .exitType d, rfl, fun b hb => ?_, rfl, rfl⟩
    rw [List.mem_singleton.mp hb]
    rfl
  | _ => exact .inr ⟨rfl, [], _, rfl, by simp, rfl, rfl⟩

/-- Only a type has an end of its body, and leaves right after it. -/
theorem leave_eq_exitTypeBody {c : Construct} {d : TypeDecl} {ends rest : List Event}
    (h : c.leave = ends ++ .exitTypeBody d :: rest) :
    c = .type d ∧ ends = [] ∧ rest = [.exitType d] := by
  cases c with
  | type e => simp_all [leave, List.cons_eq_append_iff]
  | _ => simp [leave, List.cons_eq_append_iff] at h

theorem leave_eq_exitType {c : Construct} {d : TypeDecl} {ends rest : List Event}
    (h : c.leave = ends ++ .exitType d :: rest) : c = .type d ∧ ends = [.exitTypeBody d] := by
  cases c with
  | type e =>
    obtain ⟨_, rfl, rfl, rfl, _⟩ :
        ∃ as, ends = .exitTypeBody e :: as ∧ as = [] ∧ d = e ∧ rest = [] := by
      simpa [leave, List.cons_eq_append_iff] using h
    exact ⟨rfl, rfl⟩
  | _ => simp [leave, List.cons_eq_append_iff] at h

/-! ## Brackets and entries -/

theorem balanced_events (c : Construct) : Event.Balanced c.events := by
  induction c using Construct.induction with
  | node c ih =>
    have inside : Event.Balanced c.inner := .flatMap ih
    rw [events_eq]
    obtain ⟨role, contents, leave⟩ | ⟨role, ends, e, leave, ends_role, e_role, construct⟩ :=
      c.enter_leave_cases
    · rw [leave, List.append_nil]
      exact .cons (.inl role) inside
    · have body : Event.Balanced (c.inner ++ ends) := inside.append (.of_endsBody ends_role)
      rw [leave, ← List.append_assoc]
      exact .bracket role e_role (construct.trans c.construct_enter.symm) body .nil

theorem filterMap_entered?_events (c : Construct) : c.events.filterMap Event.entered? = c.listing := by
  induction c using Construct.induction with
  | node c ih =>
    have leave : c.leave.filterMap Event.entered? = [] :=
      List.filterMap_eq_nil_iff.mpr fun _ => entered?_of_mem_leave
    rw [events_eq, listing_eq, List.filterMap_cons_some c.entered?_enter, List.filterMap_append, leave,
      List.append_nil, inner, List.filterMap_flatMap, List.flatMap_def, List.flatMap_def,
      List.map_congr_left ih]

/-! ## Reading a walk -/

section Read

variable {α : Type} (label : Construct → α)

theorem foldlM_step_endsBody (r : Nesting.Reader α) {es : List Event}
    (h : ∀ e ∈ es, e.role = .endsBody) :
    (es.map (Event.labelled label)).foldlM Nesting.Reader.step r = some r := by
  induction es with
  | nil => rfl
  | cons e es ih =>
    rw [List.map_cons, List.foldlM_cons, Event.labelled, h e (.head es)]
    exact ih fun e' he' => h e' (.tail e he')

theorem foldlM_step_flatMap {cs : List Construct}
    (h : ∀ c ∈ cs, ∀ r : Nesting.Reader α,
      (c.events.map (Event.labelled label)).foldlM Nesting.Reader.step r =
        some ⟨r.inside ++ [c.nesting label], r.opened⟩) (r : Nesting.Reader α) :
    ((cs.flatMap events).map (Event.labelled label)).foldlM Nesting.Reader.step r =
      some ⟨r.inside ++ cs.map (nesting label), r.opened⟩ := by
  induction cs generalizing r with
  | nil => simp
  | cons c cs ih =>
    rw [List.flatMap_cons, List.map_append, List.foldlM_append, h c (.head cs)]
    refine (ih (fun d hd => h d (.tail c hd)) _).trans ?_
    simp

/-- A reader that reads a walk has the nesting of the construct after what it had before. -/
theorem foldlM_step_events (c : Construct) (r : Nesting.Reader α) :
    (c.events.map (Event.labelled label)).foldlM Nesting.Reader.step r =
      some ⟨r.inside ++ [c.nesting label], r.opened⟩ := by
  induction c using Construct.induction generalizing r with
  | node c ih =>
    have inside := foldlM_step_flatMap label ih
    rw [events_eq, nesting_eq, List.map_cons, List.foldlM_cons, Event.labelled, construct_enter]
    obtain ⟨role, contents, leave⟩ | ⟨role, ends, e, leave, ends_role, e_role, construct⟩ :=
      c.enter_leave_cases
    · rw [role, inner, contents, leave]
      rfl
    · have body := foldlM_step_endsBody label
        ⟨c.contents.map (nesting label), (label c, r.inside) :: r.opened⟩ ends_role
      rw [role, leave, ← List.append_assoc, List.map_append, List.map_append]
      change ((_ ++ _) ++ [Event.labelled label e]).foldlM Nesting.Reader.step
        ⟨[], (label c, r.inside) :: r.opened⟩ = _
      rw [List.foldlM_append, List.foldlM_append, inner, inside]
      simp [body, Event.labelled, e_role, Nesting.Reader.step]

end Read

/-! ## Where an event stands -/

/-- An element of a concatenation is in one of the lists. -/
theorem exists_of_flatMap_eq {α β : Type} {f : α → List β} {as : List α} {before after : List β} {x : β}
    (h : as.flatMap f = before ++ x :: after) :
    ∃ pre a post b c, as = pre ++ a :: post ∧ f a = b ++ x :: c ∧ before = pre.flatMap f ++ b ∧
      after = c ++ post.flatMap f := by
  induction as generalizing before with
  | nil => simp at h
  | cons a as ih =>
    rw [List.flatMap_cons] at h
    obtain ⟨rest, rfl, hrest⟩ | ⟨rest, hrest, hafter⟩ := List.append_eq_append_iff.mp h
    · obtain ⟨pre, a', post, b, c, rfl, ha, rfl, rfl⟩ := ih hrest
      exact ⟨a :: pre, a', post, b, c, rfl, ha, by simp, rfl⟩
    · obtain ⟨rfl, htail⟩ | ⟨c, rfl, rfl⟩ := List.cons_eq_append_iff.mp hafter
      · obtain ⟨pre, a', post, b, c, rfl, ha, hb, rfl⟩ := @ih [] htail
        refine ⟨a :: pre, a', post, b, c, rfl, ha, ?_, rfl⟩
        rw [List.flatMap_cons, List.append_assoc, ← hb, hrest, List.append_nil, List.append_nil]
      · exact ⟨[], a, as, before, c, rfl, hrest, by simp, rfl⟩

theorem Occurs.of_content {c d k : Construct} {pre post : List Construct} {before after : List Event}
    (h : d.Occurs k before after) (hc : c.contents = pre ++ d :: post) :
    c.Occurs k (c.enter :: (pre.flatMap events ++ before))
      (after ++ (post.flatMap events ++ c.leave)) := by
  refine .inr ?_
  obtain ⟨rfl, rfl, rfl⟩ | ⟨p, pre', post', earlier, later, hp, rfl, rfl⟩ := h
  · exact ⟨c, pre, post, [], [], hc, by simp, by simp⟩
  · exact ⟨p, pre', post', c.enter :: (pre.flatMap events ++ earlier),
      later ++ (post.flatMap events ++ c.leave), hp, by simp, by simp⟩

/-- Each event of a walk is the entry of a construct that occurs there, or one of those that leave
it. -/
theorem exists_of_events_eq {c : Construct} {before after : List Event} {e : Event}
    (h : c.events = before ++ e :: after) :
    ∃ k earlier later, c.Occurs k earlier later ∧
      ((before = earlier ∧ e = k.enter ∧ after = k.inner ++ k.leave ++ later) ∨
        ∃ ends rest, k.leave = ends ++ e :: rest ∧
          before = earlier ++ k.enter :: (k.inner ++ ends) ∧ after = rest ++ later) := by
  induction c using Construct.induction generalizing before after with
  | node c ih =>
    rw [events_eq] at h
    -- the event is the entry, or one of those that leave, or else in the walk over one of the contents
    obtain ⟨rfl, hrest⟩ | ⟨before, rfl, hrest⟩ := List.cons_eq_append_iff.mp h
    · obtain ⟨rfl, rfl⟩ := List.cons.inj hrest
      exact ⟨c, [], [], .inl ⟨rfl, rfl, rfl⟩, .inl ⟨rfl, rfl, by simp⟩⟩
    obtain ⟨ends, rfl, hleave⟩ | ⟨rest, hinner, hafter⟩ := List.append_eq_append_iff.mp hrest
    · exact ⟨c, [], [], .inl ⟨rfl, rfl, rfl⟩, .inr ⟨ends, after, hleave, rfl, by simp⟩⟩
    obtain ⟨rfl, hleave⟩ | ⟨rest, rfl, rfl⟩ := List.cons_eq_append_iff.mp hafter
    · exact ⟨c, [], [], .inl ⟨rfl, rfl, rfl⟩, .inr ⟨[], after, hleave, by simp [hinner], by simp⟩⟩
    obtain ⟨pre, d, post, b, a, hc, hd, rfl, rfl⟩ := exists_of_flatMap_eq hinner
    obtain ⟨k, earlier, later, hk, hown⟩ := ih d (by simp [hc]) hd
    refine ⟨k, _, _, hk.of_content hc, ?_⟩
    obtain ⟨rfl, rfl, rfl⟩ | ⟨ends, rest, hends, rfl, rfl⟩ := hown
    · exact .inl ⟨rfl, rfl, by simp⟩
    · exact .inr ⟨ends, rest, hends, by simp, by simp⟩

/-- What follows the entry of a construct is the rest of its walk. -/
theorem occurs_of_events_eq {c k : Construct} {before rest : List Event}
    (h : c.events = before ++ k.enter :: rest) :
    ∃ after, rest = k.inner ++ k.leave ++ after ∧ c.Occurs k before after := by
  obtain ⟨k', earlier, later, hk, ⟨rfl, henter, rfl⟩ | ⟨ends, rest, hends, -, -⟩⟩ :=
    exists_of_events_eq h
  · obtain rfl : k = k' := by simpa using congrArg Event.construct henter
    exact ⟨later, rfl, hk⟩
  · have hnone : k.enter.entered? = none := entered?_of_mem_leave (c := k') (by simp [hends])
    rw [entered?_enter] at hnone
    cases hnone

/-- What precedes an event that enters nothing is the walk over the construct that it leaves. -/
theorem exists_leave_of_events_eq {c : Construct} {before after : List Event} {e : Event}
    (h : c.events = before ++ e :: after) (he : e.entered? = none) :
    ∃ (k : Construct) (ends rest earlier later : List Event), k.leave = ends ++ e :: rest ∧
      before = earlier ++ k.enter :: (k.inner ++ ends) ∧ after = rest ++ later := by
  obtain ⟨k, earlier, later, -, ⟨-, rfl, -⟩ | ⟨ends, rest, hends, hbefore, hafter⟩⟩ :=
    exists_of_events_eq h
  · rw [entered?_enter] at he
    cases he
  · exact ⟨k, ends, rest, earlier, later, hends, hbefore, hafter⟩

end Construct

/-! ## Well-nested walks -/

/-- A list of events that goes through a unit once, in order and properly nested. -/
structure CompilationUnit.WellNested (u : CompilationUnit) (events : List Event) : Prop where
  balanced : Event.Balanced events
  /-- The enter events are those of the unit's constructs, one for each, in source order. -/
  entered : events.filterMap Event.entered? = (Construct.unit u).listing
  /-- What follows on the entry of a construct is the walk over its contents and its leaving, and
  all of that has its place between the enter and the leave events of the construct that contains
  it. -/
  enclosed : ∀ {c : Construct} {before rest : List Event}, events = before ++ c.enter :: rest →
    ∃ after, rest = c.inner ++ c.leave ++ after ∧ (Construct.unit u).Occurs c before after
  /-- A body ends after its members, and right before its type. -/
  body_ended : ∀ {d : TypeDecl} {before rest : List Event}, events = before ++ .exitTypeBody d :: rest →
    ∃ earlier later, before = earlier ++ .enterType d :: (Construct.type d).inner ∧
      rest = .exitType d :: later
  /-- A type is left right after its body ends. -/
  type_left : ∀ {d : TypeDecl} {before rest : List Event}, events = before ++ .exitType d :: rest →
    ∃ earlier, before = earlier ++ [.exitTypeBody d]
  /-- The roles alone spell out the nesting: with any labels for the constructs, each label is read
  at its construct's place. -/
  recovered : ∀ {α : Type} (label : Construct → α),
    Nesting.read (events.map (Event.labelled label)) = some [(Construct.unit u).nesting label]

theorem CompilationUnit.wellNested_events (u : CompilationUnit) : u.WellNested u.events where
  balanced := Construct.balanced_events (.unit u)
  entered := Construct.filterMap_entered?_events (.unit u)
  enclosed h := Construct.occurs_of_events_eq (c := .unit u) h
  body_ended := by
    intro d before rest h
    obtain ⟨k, ends, rest, earlier, later, hends, rfl, rfl⟩ :=
      Construct.exists_leave_of_events_eq (c := .unit u) h rfl
    obtain ⟨rfl, rfl, rfl⟩ := Construct.leave_eq_exitTypeBody hends
    exact ⟨earlier, later, by rw [List.append_nil]; rfl, rfl⟩
  type_left := by
    intro d before rest h
    obtain ⟨k, ends, rest, earlier, later, hends, rfl, rfl⟩ :=
      Construct.exists_leave_of_events_eq (c := .unit u) h rfl
    obtain ⟨rfl, rfl⟩ := Construct.leave_eq_exitType hends
    exact ⟨earlier ++ .enterType d :: (Construct.type d).inner,
      (List.append_assoc earlier (.enterType d :: (Construct.type d).inner) [.exitTypeBody d]).symm⟩
  recovered := by
    intro α label
    have read := Construct.foldlM_step_events label (.unit u) ⟨[], []⟩
    rw [Nesting.read, show u.events = (Construct.unit u).events from rfl, read]
    rfl

end SymbolTable
