import SymbolTable.Declaration.Event
import Mathlib.Data.List.Flatten

/-!
# Constructs of a compilation unit

What a walk meets, whatever its syntactic class, is a construct with other constructs directly
inside, in source order. In these terms a walk is one recursion: the event that enters a construct,
the walks over what is inside, and the events that leave it.

* `Construct.contents`: what is directly inside a construct;
* `Construct.induction`: what each construct inherits from its contents holds of all;
* `Construct.events_eq`: the recursion of a walk.
-/

namespace SymbolTable

inductive Construct where
  | unit (u : CompilationUnit)
  | package (p : PackageDecl)
  | importDecl (i : ImportDecl)
  | type (d : TypeDecl)
  | constant (d : ConstantDecl)
  | constructor (d : CallableDecl)
  | method (d : CallableDecl)
  | parameter (p : ParameterDecl)
  | field (f : FieldDecl)

def Member.construct : Member → Construct
  | .type d => .type d
  | .constructor d => .constructor d
  | .method d => .method d
  | .field f => .field f
  | .enumConstant d => .constant d

namespace Construct

/-- What is directly inside a callable: its parameters, then the classes of its body. -/
def ofCallable (d : CallableDecl) : List Construct :=
  d.header.parameters.map .parameter ++ d.localTypes.map .type

/-- What is directly inside, in source order. -/
def contents : Construct → List Construct
  | .unit u => u.package.toList.map .package ++ u.imports.map .importDecl ++ u.types.map .type
  | .type d => d.members.map Member.construct
  | .constant d => (d.body.getD []).map Member.construct
  | .constructor d | .method d => ofCallable d
  | .package _ | .importDecl _ | .parameter _ | .field _ => []

/-- The event that enters a construct. -/
def enter : Construct → Event
  | .unit u => .enterUnit u
  | .package p => .enterPackage p
  | .importDecl i => .enterImport i
  | .type d => .enterType d
  | .constant d => .enterConstant d
  | .constructor d => .enterConstructor d
  | .method d => .enterMethod d
  | .parameter p => .enterParameter p
  | .field f => .enterField f

/-- The events that leave a construct. -/
def leave : Construct → List Event
  | .unit u => [.exitUnit u]
  | .type d => [.exitTypeBody d, .exitType d]
  | .constant d => [.exitConstant d]
  | .constructor d => [.exitConstructor d]
  | .method d => [.exitMethod d]
  | .package _ | .importDecl _ | .parameter _ | .field _ => []

/-- The walk over a construct. -/
def events : Construct → List Event
  | .unit u => u.events
  | .type d => d.events
  | .constant d => d.events
  | .constructor d => .enterConstructor d :: (d.inner ++ [.exitConstructor d])
  | .method d => .enterMethod d :: (d.inner ++ [.exitMethod d])
  | .package p => [.enterPackage p]
  | .importDecl i => [.enterImport i]
  | .parameter p => [.enterParameter p]
  | .field f => [.enterField f]

/-- The walk over what is inside a construct. -/
def inner (c : Construct) : List Event := c.contents.flatMap events

/-! ## The recursion of a walk -/

theorem events_construct (m : Member) : m.construct.events = m.events := by
  cases m <;> rw [Member.events] <;> rfl

theorem flatMap_events_members (ms : List Member) :
    (ms.map Member.construct).flatMap events = Member.eventsOfList ms := by
  induction ms with
  | nil =>
    rw [Member.eventsOfList]
    rfl
  | cons m ms ih => rw [List.map_cons, List.flatMap_cons, ih, events_construct, Member.eventsOfList]

theorem flatMap_events_types (ds : List TypeDecl) :
    (ds.map Construct.type).flatMap events = TypeDecl.eventsOfList ds := by
  induction ds with
  | nil =>
    rw [TypeDecl.eventsOfList]
    rfl
  | cons d ds ih =>
    rw [List.map_cons, List.flatMap_cons, ih, TypeDecl.eventsOfList]
    rfl

/-- Constructs without contents have one event each. -/
theorem flatMap_events_single {α : Type} {f : α → Construct} (h : ∀ a, (f a).events = [(f a).enter])
    (as : List α) : (as.map f).flatMap events = as.map fun a => (f a).enter := by
  rw [List.flatMap_map, List.map_eq_flatMap]
  simp only [h]

theorem flatMap_events_ofCallable (d : CallableDecl) : (ofCallable d).flatMap events = d.inner := by
  obtain ⟨header, localTypes⟩ := d
  rw [ofCallable, List.flatMap_append, flatMap_events_types, CallableDecl.inner,
    flatMap_events_single fun _ => rfl]
  rfl

/-- A walk enters a construct, walks over what is inside and leaves. -/
theorem events_eq (c : Construct) : c.events = c.enter :: (c.inner ++ c.leave) := by
  cases c with
  | unit u =>
    rw [inner, contents, List.flatMap_append, List.flatMap_append, flatMap_events_types,
      flatMap_events_single fun _ => rfl, flatMap_events_single fun _ => rfl]
    rfl
  | type d =>
    obtain ⟨header, members⟩ := d
    rw [inner, contents, flatMap_events_members, events, TypeDecl.events]
    rfl
  | constant d =>
    obtain ⟨header, body⟩ := d
    rw [inner, contents, flatMap_events_members, events]
    cases body with
    | none =>
      rw [ConstantDecl.events, ConstantDecl.body, Option.getD_none, Member.eventsOfList]
      rfl
    | some members =>
      rw [ConstantDecl.events]
      rfl
  | constructor d =>
    rw [inner, contents, flatMap_events_ofCallable]
    rfl
  | method d =>
    rw [inner, contents, flatMap_events_ofCallable]
    rfl
  | _ => rfl

/-! ## Induction -/

theorem sizeOf_construct_le (m : Member) : sizeOf m.construct ≤ 1 + sizeOf m := by
  cases m <;> exact Nat.le_add_left _ _

theorem sizeOf_le_of_mem_map {α : Type} [SizeOf α] {f : α → Construct} {as : List α}
    (hf : ∀ a, sizeOf (f a) ≤ 1 + sizeOf a) {d : Construct} (h : d ∈ as.map f) :
    sizeOf d ≤ sizeOf as := by
  obtain ⟨a, ha, rfl⟩ := List.mem_map.mp h
  have := hf a
  have := List.sizeOf_lt_of_mem ha
  omega

theorem sizeOf_lt_of_mem_ofCallable {d : Construct} {e : CallableDecl} (h : d ∈ ofCallable e) :
    sizeOf d < 1 + sizeOf e := by
  obtain ⟨⟨_, _, _, parameters, _, _⟩, localTypes⟩ := e
  simp only [CallableDecl.mk.sizeOf_spec, CallableHeader.mk.sizeOf_spec]
  rcases List.mem_append.mp h with h | h
  · have : sizeOf d ≤ sizeOf parameters :=
      sizeOf_le_of_mem_map (fun a => Nat.le_of_eq (parameter.sizeOf_spec a)) h
    omega
  · have : sizeOf d ≤ sizeOf localTypes :=
      sizeOf_le_of_mem_map (fun a => Nat.le_of_eq (type.sizeOf_spec a)) h
    omega

/-- What is inside a construct is smaller, so a construct may be taken apart by recursion. -/
theorem sizeOf_lt_of_mem_contents {c d : Construct} (h : d ∈ c.contents) : sizeOf d < sizeOf c := by
  cases c with
  | unit u =>
    obtain ⟨_, declared, imports, types⟩ := u
    simp only [unit.sizeOf_spec, CompilationUnit.mk.sizeOf_spec]
    rcases List.mem_append.mp h with h | h
    · rcases List.mem_append.mp h with h | h
      · cases declared with
        | none => simp at h
        | some p =>
          obtain rfl : d = .package p := by simpa using h
          simp only [package.sizeOf_spec, Option.some.sizeOf_spec]
          omega
      · have : sizeOf d ≤ sizeOf imports :=
          sizeOf_le_of_mem_map (fun a => Nat.le_of_eq (importDecl.sizeOf_spec a)) h
        omega
    · have : sizeOf d ≤ sizeOf types :=
        sizeOf_le_of_mem_map (fun a => Nat.le_of_eq (type.sizeOf_spec a)) h
      omega
  | type e =>
    obtain ⟨header, members⟩ := e
    have : sizeOf d ≤ sizeOf members := sizeOf_le_of_mem_map sizeOf_construct_le h
    simp only [type.sizeOf_spec, TypeDecl.mk.sizeOf_spec]
    omega
  | constant e =>
    obtain ⟨header, body⟩ := e
    cases body with
    | none => simp [contents, ConstantDecl.body] at h
    | some body =>
      have : sizeOf d ≤ sizeOf body := sizeOf_le_of_mem_map sizeOf_construct_le h
      simp only [constant.sizeOf_spec, ConstantDecl.mk.sizeOf_spec, Option.some.sizeOf_spec]
      omega
  | constructor e => exact constructor.sizeOf_spec e ▸ sizeOf_lt_of_mem_ofCallable h
  | method e => exact method.sizeOf_spec e ▸ sizeOf_lt_of_mem_ofCallable h
  | package | importDecl | parameter | field => simp [contents] at h

theorem induction {P : Construct → Prop} (node : ∀ c, (∀ d ∈ c.contents, P d) → P c)
    (c : Construct) : P c :=
  node c fun d _ => induction node d
termination_by sizeOf c
decreasing_by exact sizeOf_lt_of_mem_contents ‹_›

end Construct

end SymbolTable
