import SymbolTable.Library.File
import SymbolTable.Proofs.Files.Volume
import SymbolTable.Proofs.Json.RoundTrip
import Mathlib.Data.List.Nodup

/-!
# Stored libraries are read back

Encoding and decoding agree on every field: each record is the list of its fields, of which some are
left out, and a decoder that binds the same names gets back what was put in, with the absent fields
absent. Tags are read back as the kinds they stand for, and what is left out is read back as the
value for which it is left out. Ids are the one thing that does not always fit: a natural number
is read as an id just when it has 64 bits.
-/

namespace SymbolTable

open Json (Value Integral)

namespace Json

/-- The fields of a record that are not left out. -/
def present (fields : List (String × Option Value)) : List (String × Value) :=
  fields.filterMap fun f => f.2.map (f.1, ·)

theorem present_cons (f : String × Option Value) (fields : List (String × Option Value)) :
    present (f :: fields) = (f.2.map (f.1, ·)).toList ++ present fields := by
  cases h : f.2 <;> simp [present, h]

theorem mem_present {fields : List (String × Option Value)} {name : String} {v : Value} :
    (name, v) ∈ present fields ↔ (name, some v) ∈ fields := by
  simp only [present, List.mem_filterMap, Option.map_eq_some_iff, Prod.mk.injEq]
  constructor
  · rintro ⟨⟨_, _⟩, hmem, _, rfl, rfl, rfl⟩
    exact hmem
  · intro hmem
    exact ⟨_, hmem, v, rfl, rfl, rfl⟩

/-- A name without repetition finds its own field and no other. -/
theorem filter_present {fields : List (String × Option Value)}
    (hnodup : (fields.map (·.1)).Nodup) {f : String × Option Value} (hf : f ∈ fields) :
    (present fields).filter (·.1 = f.1) = (f.2.map (f.1, ·)).toList := by
  induction fields with
  | nil => cases hf
  | cons g fields ih =>
    rw [List.map_cons, List.nodup_cons] at hnodup
    obtain ⟨hg, hnodup⟩ := hnodup
    rw [present_cons, List.filter_append]
    rcases List.mem_cons.1 hf with rfl | hf
    · have hrest : (present fields).filter (·.1 = f.1) = [] := by
        rw [List.filter_eq_nil_iff]
        rintro ⟨name, v⟩ hmem heq
        obtain rfl : name = f.1 := by simpa using heq
        exact hg (List.mem_map.2 ⟨_, mem_present.1 hmem, rfl⟩)
      rw [hrest, List.append_nil, List.filter_eq_self]
      intro x hx
      obtain ⟨v, -, rfl⟩ : ∃ v, f.2 = some v ∧ (f.1, v) = x := by simpa using hx
      simp
    · have hne : g.1 ≠ f.1 := fun heq => hg (heq ▸ List.mem_map_of_mem hf)
      have hfront : (g.2.map (g.1, ·)).toList.filter (·.1 = f.1) = [] := by
        cases h : g.2 <;> simp [hne]
      rw [hfront, List.nil_append, ih hnodup hf]

/-- Decoding each item of a list that was encoded item by item. -/
theorem mapM_map {α β γ : Type} {encode : α → β} {decode : β → Option γ} {f : α → γ} {l : List α}
    (h : ∀ a ∈ l, decode (encode a) = some (f a)) :
    (l.map encode).mapM decode = some (l.map f) := by
  induction l with
  | nil => rfl
  | cons a l ih =>
    rw [List.map_cons, List.mapM_cons, h a List.mem_cons_self,
      ih fun b hb => h b (List.mem_cons_of_mem a hb)]
    rfl

/-- A record binds the fields that were put in, whatever of them is left out. -/
theorem record?_present (fields : List (String × Option Value))
    (hnodup : (fields.map (·.1)).Nodup) (least : Nat) :
    (Value.object (present fields)).record? (fields.map (·.1)) least =
      some (fields.map (·.2)) := by
  refine mapM_map fun f hf => ?_
  rw [filter_present hnodup hf]
  cases f.2 <;> rfl

theorem integral_present {fields : List (String × Option Value)}
    (h : ∀ f ∈ fields, ∀ v ∈ f.2, Integral v) : Integral (.object (present fields)) :=
  .object fun f hf => h (f.1, some f.2) (mem_present.1 hf) f.2 rfl

theorem integral_array {α : Type} {encode : α → Value} (h : ∀ a, Integral (encode a))
    {l : List α} : Integral (.array (l.map encode)) := by
  refine .array fun v hv => ?_
  obtain ⟨a, -, rfl⟩ := List.mem_map.1 hv
  exact h a

theorem list?_map {α : Type} {encode : α → Value} {decode : Value → Option α} {l : List α}
    (h : ∀ a ∈ l, decode (encode a) = some a) :
    (Value.array (l.map encode)).list? decode = some l := by
  rw [Value.list?, Value.items?, Option.bind_some, mapM_map h, List.map_id']

theorem natural?_natural {n : Nat} (h : n ≤ maxNatural) : (Value.natural n).natural? = some n :=
  if_pos h

end Json

/-! ## Kinds and attributes -/

theorem ImportKind.ofJson?_toJson (kind : ImportKind) : ofJson? kind.toJson = some kind := by
  cases kind <;> rfl

theorem ComponentKind.ofJson?_toJson (kind : ComponentKind) : ofJson? kind.toJson = some kind := by
  cases kind with
  | importOf kind =>
    have hkind := kind.ofJson?_toJson
    simp only [ofJson?, toJson, Value.case?, hkind, Option.map_some]
  | _ => rfl

theorem ComponentKind.integral_toJson (kind : ComponentKind) : Integral kind.toJson := by
  cases kind with
  | importOf kind => exact .object (by simpa using .string kind.tag)
  | _ => exact .string _

theorem AttributeKind.ofJson?_toJson (kind : AttributeKind) : ofJson? kind.toJson = some kind := by
  cases kind <;> rfl

theorem Attribute.ofJson?_toJson (a : Attribute) : ofJson? a.toJson = some a := by
  have hkind := a.kind.ofJson?_toJson
  have hrecord : a.toJson.record? ["kind", "value"] 2 =
      some [some a.kind.toJson, some (.string a.value)] :=
    Json.record?_present [("kind", some a.kind.toJson), ("value", some (.string a.value))]
      (show ["kind", "value"].Nodup by decide) 2
  simp only [ofJson?, hrecord, Option.bind_eq_bind, Option.bind_some, hkind, Value.text?]
  rfl

theorem Attribute.integral_toJson (a : Attribute) : Integral a.toJson := by
  refine .object ?_
  simp [AttributeKind.toJson, Integral.string]

/-! ## Components -/

namespace Component

/-- Every link of the component is a 64-bit number. -/
structure LinksFit (c : Component) : Prop where
  children : ∀ id ∈ c.children, id ≤ Json.maxNatural
  parent : ∀ id ∈ c.parent, id ≤ Json.maxNatural

instance (c : Component) : Decidable c.LinksFit :=
  decidable_of_iff ((∀ id ∈ c.children, id ≤ Json.maxNatural) ∧
    ∀ id ∈ c.parent, id ≤ Json.maxNatural) ⟨fun h => ⟨h.1, h.2⟩, fun h => ⟨h.1, h.2⟩⟩

/-- The fields of a component in the order they are written, some of them left out. -/
def jsonFields (c : Component) : List (String × Option Value) :=
  [("kind", some c.kind.toJson), ("value", some (.string c.value)),
    ("signature", c.signature.map .string),
    ("attributes", if c.attributes = [] then none
      else some (.array (c.attributes.map Attribute.toJson))),
    ("children", if c.children = [] then none else some (.array (c.children.map .natural))),
    ("parent", c.parent.map .natural)]

theorem toJson_eq_present (c : Component) : c.toJson = .object (Json.present c.jsonFields) := by
  obtain ⟨kind, value, signature, attributes, children, parent⟩ := c
  cases signature <;> cases attributes <;> cases children <;> cases parent <;> rfl

/-- A list that is left out when it is empty is read back as the empty list. -/
theorem fieldOr_list {α : Type} {encode : α → Value} {decode : Value → Option α} {l : List α}
    [Decidable (l = [])] (h : ∀ a ∈ l, decode (encode a) = some a) :
    fieldOr [] (Value.list? decode) (if l = [] then none else some (.array (l.map encode))) =
      some l := by
  split
  · next hnil =>
    rw [hnil]
    rfl
  · exact Json.list?_map h

theorem ofJson?_toJson {c : Component} (h : c.LinksFit) : ofJson? c.toJson = some c := by
  have hrecord := Json.record?_present c.jsonFields
    (show ["kind", "value", "signature", "attributes", "children", "parent"].Nodup by decide) 2
  have hkind := c.kind.ofJson?_toJson
  have hsignature : fieldOr none (Value.optional? Value.text?) (c.signature.map .string) =
      some c.signature := by
    cases c.signature <;> rfl
  have hattributes := fieldOr_list fun a (_ : a ∈ c.attributes) => a.ofJson?_toJson
  have hchildren := fieldOr_list fun id hid => Json.natural?_natural (h.children id hid)
  have hparent : fieldOr none (Value.optional? Value.natural?) (c.parent.map .natural) =
      some c.parent := by
    cases hp : c.parent with
    | none => rfl
    | some id =>
      have hid := Json.natural?_natural (h.parent id hp)
      simp only [Option.map_some, fieldOr, Value.optional?, hid]
  rw [← toJson_eq_present] at hrecord
  simp only [jsonFields, List.map_cons, List.map_nil] at hrecord
  simp only [ofJson?, hrecord, Option.bind_eq_bind, Option.bind_some, hkind, Value.text?,
    hsignature, hattributes, hchildren, hparent]
  rfl

theorem integral_toJson (c : Component) : Integral c.toJson := by
  rw [toJson_eq_present]
  refine Json.integral_present ?_
  simp only [jsonFields, List.forall_mem_cons, List.not_mem_nil, false_imp_iff, implies_true,
    and_true, Option.mem_some_iff, forall_eq']
  refine ⟨c.kind.integral_toJson, .string c.value, ?signature, ?attributes, ?children, ?parent⟩
  case signature | parent =>
    intro v hv
    obtain ⟨_, -, rfl⟩ := Option.map_eq_some_iff.1 hv
    constructor
  case attributes =>
    split
    · rintro v ⟨⟩
    · rintro v ⟨⟩
      exact Json.integral_array Attribute.integral_toJson
  case children =>
    split
    · rintro v ⟨⟩
    · rintro v ⟨⟩
      exact Json.integral_array .natural

end Component

/-! ## Trees and libraries -/

namespace Tree

/-- Every link of the tree is a 64-bit number. -/
def LinksFit (t : Tree) : Prop := ∀ c ∈ t.nodes, c.LinksFit

instance (t : Tree) : Decidable t.LinksFit :=
  inferInstanceAs (Decidable (∀ c ∈ t.nodes, c.LinksFit))

theorem ofJson?_toJson {t : Tree} (h : t.LinksFit) : ofJson? t.toJson = some t := by
  have hrecord : t.toJson.record? ["nodes"] 1 =
      some [some (.array (t.nodes.toList.map Component.toJson))] :=
    Json.record?_present [("nodes", some (.array (t.nodes.toList.map Component.toJson)))]
      (show ["nodes"].Nodup by decide) 1
  have hnodes : (Value.array (t.nodes.toList.map Component.toJson)).list? Component.ofJson? =
      some t.nodes.toList :=
    Json.list?_map fun c hc => Component.ofJson?_toJson (h c (Array.mem_toList_iff.1 hc))
  simp only [ofJson?, hrecord, Option.bind_eq_bind, Option.bind_some, hnodes]
  rfl

theorem integral_toJson (t : Tree) : Integral t.toJson := by
  refine .object ?_
  simp only [List.mem_singleton, forall_eq]
  exact Json.integral_array Component.integral_toJson

/-- The text of a tree is read back as the tree. -/
theorem read_toJsonText {t : Tree} (h : t.LinksFit) :
    (Json.read t.toJsonText).bind ofJson? = some t := by
  rw [toJsonText, Json.read_indented t.integral_toJson, Option.bind_some, ofJson?_toJson h]

end Tree

namespace Library

theorem ofJson?_toJson {l : Library} (h : l.components.LinksFit) : ofJson? l.toJson = some l := by
  have hrecord : l.toJson.record?
      ["group_id", "artifact_id", "version", "revision_id", "components"] 5 =
        some [some (.string l.groupId), some (.string l.artifactId), some (.string l.version),
          some (.ofOption .string l.revisionId), some l.components.toJson] :=
    Json.record?_present
      [("group_id", some (.string l.groupId)), ("artifact_id", some (.string l.artifactId)),
        ("version", some (.string l.version)),
        ("revision_id", some (.ofOption .string l.revisionId)),
        ("components", some l.components.toJson)]
      (show ["group_id", "artifact_id", "version", "revision_id", "components"].Nodup by decide) 5
  have hrevision : Component.fieldOr none (Value.optional? Value.text?)
      (some (.ofOption .string l.revisionId)) = some l.revisionId := by
    cases l.revisionId <;> rfl
  have hcomponents := Tree.ofJson?_toJson h
  simp only [ofJson?, hrecord, Option.bind_eq_bind, Option.bind_some, Value.text?, hrevision,
    hcomponents]
  rfl

theorem integral_toJson (l : Library) : Integral l.toJson := by
  refine .object ?_
  simp only [List.forall_mem_cons, List.not_mem_nil, false_imp_iff, implies_true, and_true]
  refine ⟨.string _, .string _, .string _, ?_, l.components.integral_toJson⟩
  cases l.revisionId with
  | none => exact .null
  | some revision => exact .string revision

/-- The content of a library file is read back as the library. -/
theorem decode_encode {l : Library} (hlinks : l.components.LinksFit)
    (hconsistent : l.components.isConsistent = true) : decode l.encode = .ok l := by
  rw [decode, encode, Json.read_indented l.integral_toJson, Option.bind_some,
    ofJson?_toJson hlinks]
  exact if_pos hconsistent

theorem load_of_read {fs : FileSystem (StateM Volume)} {path : Path} {l : Library} {v : Volume}
    (hlinks : l.components.LinksFit) (hconsistent : l.components.isConsistent = true)
    (h : fs.read path v = (.ok l.encode, v)) : load fs path v = (.ok l, v) := by
  have hdecode := decode_encode hlinks hconsistent
  simp only [load, bind, StateT.bind, h, hdecode, Except.mapError]
  rfl

/-- Saving succeeds just when the directory of the path is there or can be made, and the text of the
library can be written. -/
theorem save_eq_ok_iff {path : Path} {l : Library} {v v' : Volume} :
    save Volume.fileSystem l path v = (.ok (), v') ↔
      ∃ v₁, v.createDirectories path.parent = some v₁ ∧ v₁.write path l.encode = some v' := by
  simp only [save, bind, StateT.bind, Volume.fileSystem, Volume.attempt_eq]
  cases hdirectories : v.createDirectories path.parent with
  | none =>
    simp only [Option.isSome_none, Bool.not_false, if_true, reduceCtorEq, false_and,
      exists_false, iff_false]
    rintro ⟨⟩
  | some v₁ =>
    simp only [Option.isSome_some, Option.getD_some, Bool.not_true, Bool.false_eq_true, if_false,
      StateT.bind, bind, Volume.attempt_eq, Option.some_inj, exists_eq_left']
    cases hwrite : v₁.write path l.encode with
    | none =>
      simp only [reduceCtorEq, iff_false]
      rintro ⟨⟩
    | some v₂ => exact ⟨fun h => congrArg (some ∘ Prod.snd) h, fun h => Option.some.inj h ▸ rfl⟩

/-- A library is read back from its text as it was, and from the path it was saved at; a tree is
read back from its text. -/
theorem load_save :
    (∀ l : Library, l.components.LinksFit → l.components.isConsistent = true →
      decode l.encode = .ok l ∧
        ∀ (path : Path) (v v' : Volume), save Volume.fileSystem l path v = (.ok (), v') →
          load Volume.fileSystem path v' = (.ok l, v')) ∧
      ∀ t : Tree, t.LinksFit → (Json.read t.toJsonText).bind Tree.ofJson? = some t := by
  refine ⟨fun l hlinks hconsistent => ⟨decode_encode hlinks hconsistent, ?_⟩,
    fun t => Tree.read_toJsonText⟩
  intro path v v' hsave
  obtain ⟨v₁, -, hwrite⟩ := save_eq_ok_iff.1 hsave
  have hread : Volume.fileSystem.read path v' = (.ok l.encode, v') :=
    congrArg (·, v') (Volume.read_of_write hwrite)
  exact load_of_read hlinks hconsistent hread

/-- A library with every kind of import, quotes and line breaks in its texts, a signature, and no
revision. -/
def importingLibrary : Library where
  groupId := "g\"\n"
  artifactId := ""
  version := "1.0 \\ β"
  revisionId := none
  components :=
    ⟨#[{ kind := .root, value := "ROOT", children := [1, 2, 3, 4, 5] },
      { kind := .importOf .single, value := "a.B", parent := some 0 },
      { kind := .importOf .onDemand, value := "a", parent := some 0 },
      { kind := .importOf .static, value := "a.B.c", parent := some 0 },
      { kind := .importOf .staticOnDemand, value := "a.B", parent := some 0 },
      { kind := .classType, value := "C", attributes := [⟨.modifier, "public"⟩, ⟨.startLine, ""⟩],
        children := [6], parent := some 0 },
      { kind := .method, value := "m", signature := some "(int)", parent := some 5 }]⟩

/-- A volume that holds one file. -/
def singleFile (text : String) : Volume := ⟨.directory [("l.json", .file (some text))], []⟩

theorem write_singleFile (old text : String) :
    (singleFile old).write ⟨"l.json"⟩ text = some (singleFile text) := by
  have hlocate : (singleFile old).locate ⟨"l.json"⟩ = .ok ["l.json"] := by
    have hpieces : (⟨"l.json"⟩ : Path).pieces = ["l.json"] := by decide
    rw [Volume.locate, if_neg (by decide), hpieces]
    simp [Volume.walk, Volume.start, singleFile, Path.isAbsolute, Entry.at?, Entry.child?]
  rw [Volume.write, Volume.place, hlocate]
  simp [singleFile, Entry.at?, Entry.child?, Entry.put]

theorem load_save_importingLibrary :
    importingLibrary.components.LinksFit ∧ importingLibrary.components.isConsistent = true ∧
      decode importingLibrary.encode = .ok importingLibrary ∧
      save Volume.fileSystem importingLibrary ⟨"l.json"⟩ (singleFile "") =
        (.ok (), singleFile importingLibrary.encode) ∧
      load Volume.fileSystem ⟨"l.json"⟩ (singleFile importingLibrary.encode) =
        (.ok importingLibrary, singleFile importingLibrary.encode) ∧
      (Json.read importingLibrary.components.toJsonText).bind Tree.ofJson? =
        some importingLibrary.components := by
  have hlinks : importingLibrary.components.LinksFit := by decide
  have hconsistent : importingLibrary.components.isConsistent = true := by decide
  have hsave : save Volume.fileSystem importingLibrary ⟨"l.json"⟩ (singleFile "") =
      (.ok (), singleFile importingLibrary.encode) :=
    save_eq_ok_iff.2 ⟨singleFile "", if_pos (by decide), write_singleFile "" _⟩
  obtain ⟨hdecode, hload⟩ := load_save.1 importingLibrary hlinks hconsistent
  exact ⟨hlinks, hconsistent, hdecode, hsave, hload _ _ _ hsave, load_save.2 _ hlinks⟩

end Library

end SymbolTable
