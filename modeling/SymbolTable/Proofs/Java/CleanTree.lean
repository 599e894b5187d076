import Mathlib.Data.List.Basic
import Mathlib.Data.List.Find
import SymbolTable.Java.Parse

/-!
# Readings of a flawless tree

A tolerant reading passes over nodes with a flaw. In a tree without any it passes over nothing, so
that it reads what a strict one does: headers first, then declarations along the nesting of the
tree. A parse with a fallback therefore gives the unit of a tolerant parse, or fails as that does.
-/

namespace SymbolTable

namespace Java

namespace Node

/-- Neither the node nor anything below it has a flaw. -/
def IsClean (n : Node) : Prop := n.hasFlaw = false

variable {n : Node}

theorem isClean_iff : n.IsClean ↔ n.flaw = none ∧ ∀ child ∈ n.children, child.IsClean := by
  cases n with
  | mk kind role flaw start stop children =>
    simp [IsClean, hasFlaw, anyFlaw_eq_any, Node.flaw, Node.children]

theorem IsClean.child (h : n.IsClean) {child : Node} (hchild : child ∈ n.children) :
    child.IsClean := (isClean_iff.1 h).2 child hchild

theorem IsClean.namedChild (h : n.IsClean) {child : Node} (hchild : child ∈ n.namedChildren) :
    child.IsClean := h.child (List.mem_filter.1 hchild).1

theorem IsClean.childOfRole? (h : n.IsClean) {role : Role} {child : Node}
    (hchild : n.childOfRole? role = some child) : child.IsClean :=
  h.child (List.mem_of_find?_eq_some hchild)

end Node

namespace Reading

variable {r r' : Reading} {n : Node}

/-! ## Nothing is passed over -/

theorem skips_of_isClean (r : Reading) (h : n.IsClean) : r.skips n = false := by
  rw [skips, (Node.isClean_iff.1 h).1]
  exact Bool.and_false _

theorem parts_eq (r' r : Reading) (h : n.IsClean) : r'.parts n = r.parts n :=
  List.filter_congr fun child hchild => by
    rw [r'.skips_of_isClean (h.namedChild hchild), r.skips_of_isClean (h.namedChild hchild)]

theorem isClean_of_mem_parts (h : n.IsClean) {child : Node} (hchild : child ∈ r.parts n) :
    child.IsClean := h.namedChild (List.mem_filter.1 hchild).1

theorem childOfKind?_eq (r' r : Reading) (h : n.IsClean) (kind : NodeKind) :
    r'.childOfKind? n kind = r.childOfKind? n kind := by
  refine List.find?_congr fun child hchild => ?_
  rw [r'.skips_of_isClean (h.child hchild), r.skips_of_isClean (h.child hchild)]

theorem isClean_of_childOfKind? (h : n.IsClean) {kind : NodeKind} {child : Node}
    (hchild : r.childOfKind? n kind = some child) : child.IsClean :=
  h.child (List.mem_of_find?_eq_some hchild)

theorem lastOfKind?_eq (r' r : Reading) (h : n.IsClean) (kind : NodeKind) :
    r'.lastOfKind? n kind = r.lastOfKind? n kind := by
  refine List.find?_congr fun child hchild => ?_
  have hclean := h.child (List.mem_reverse.1 hchild)
  rw [r'.skips_of_isClean hclean, r.skips_of_isClean hclean]

theorem isClean_of_lastOfKind? (h : n.IsClean) {kind : NodeKind} {child : Node}
    (hchild : r.lastOfKind? n kind = some child) : child.IsClean :=
  h.child (List.mem_reverse.1 (List.mem_of_find?_eq_some hchild))

/-! ## Headers -/

section Headers

variable (hsource : r'.source = r.source)
include hsource

theorem textList_eq (n : Node) : r'.textList n = r.textList n := by
  rw [textList, textList, hsource]

theorem text_eq (n : Node) : r'.text n = r.text n := congrArg String.ofList (textList_eq hsource n)

theorem roleText?_eq (h : n.IsClean) (role : Role) : r'.roleText? n role = r.roleText? n role := by
  unfold roleText?
  cases hchild : n.childOfRole? role with
  | none => rfl
  | some child =>
    have hclean := h.childOfRole? hchild
    simp only [r'.skips_of_isClean hclean, r.skips_of_isClean hclean, textList_eq hsource,
      text_eq hsource]

theorem nameText?_eq (h : n.IsClean) : r'.nameText? n = r.nameText? n := by
  unfold nameText?
  rw [roleText?_eq hsource h, r'.childOfKind?_eq r h, funext (text_eq hsource)]

theorem modifiers_eq (h : n.IsClean) : r'.modifiers n = r.modifiers n := by
  unfold modifiers
  rw [r'.childOfKind?_eq r h]
  cases hlist : r.childOfKind? n .modifiers with
  | none => rfl
  | some list =>
    have hclean := isClean_of_childOfKind? h hlist
    have hkept : ∀ r : Reading, (list.children.filter fun child => !r.skips child) = list.children :=
      fun r => List.filter_eq_self.2 fun child hchild => by
        rw [r.skips_of_isClean (hclean.child hchild)]
        rfl
    simp only [hkept, textList_eq hsource, funext (text_eq hsource)]

omit hsource in
mutual
theorem typeText_eq (hsource : r'.source = r.source) :
    ∀ n : Node, n.IsClean → r'.typeText n = r.typeText n
  | .mk kind role flaw start stop children, h => by
    have hchildren := (Node.isClean_iff.1 h).2
    rw [typeText, typeText]
    simp only [r'.skips_of_isClean h, r.skips_of_isClean h, text_eq hsource,
      typeTextsAmong_eq hsource children hchildren]

theorem typeTextsAmong_eq (hsource : r'.source = r.source) :
    ∀ ns : List Node, (∀ n ∈ ns, n.IsClean) → r'.typeTextsAmong ns = r.typeTextsAmong ns
  | [], _ => by rw [typeTextsAmong, typeTextsAmong]
  | n :: rest, h => by
    rw [List.forall_mem_cons] at h
    rw [typeTextsAmong, typeTextsAmong, typeText_eq hsource n h.1,
      typeTextsAmong_eq hsource rest h.2]
end

theorem typeTexts_eq (h : n.IsClean) : r'.typeTexts n = r.typeTexts n :=
  typeTextsAmong_eq hsource n.children (Node.isClean_iff.1 h).2

theorem typeParameter?_eq (h : n.IsClean) : r'.typeParameter? n = r.typeParameter? n := by
  unfold typeParameter?
  split
  · have hbounds : ∀ bound ∈ n.namedChildren.filter fun child => child.kind = .typeBound,
        r'.typeTexts bound = r.typeTexts bound := fun bound hbound =>
      typeTexts_eq hsource (h.namedChild (List.mem_filter.1 hbound).1)
    simp only [text_eq hsource, List.flatMap_congr hbounds]
  · rfl

theorem typeParameters_eq {list : Option Node} (h : ∀ n, list = some n → n.IsClean) :
    r'.typeParameters list = r.typeParameters list := by
  cases list with
  | none => rfl
  | some list =>
    have hclean := h list rfl
    simp only [typeParameters, r'.parts_eq r hclean]
    refine List.filterMap_congr fun child hchild => ?_
    exact typeParameter?_eq hsource (isClean_of_mem_parts hclean (List.mem_filter.1 hchild).1)

theorem superclass?_eq (h : n.IsClean) : r'.superclass? n = r.superclass? n := by
  unfold superclass?
  rw [r'.lastOfKind?_eq r h]
  cases hclause : r.lastOfKind? n .superclass with
  | none => rfl
  | some clause =>
    have hclean := isClean_of_lastOfKind? h hclause
    simp only [r'.parts_eq r hclean, funext (text_eq hsource)]

theorem interfaces_eq (h : n.IsClean) : r'.interfaces n = r.interfaces n := by
  have hclauses : ∀ r : Reading, (n.children.filter fun child =>
      (child.kind = .superInterfaces || child.kind = .extendedInterfaces) && !r.skips child) =
        n.children.filter fun child =>
          child.kind = .superInterfaces || child.kind = .extendedInterfaces :=
    fun r => List.filter_congr fun child hchild => by
      rw [r.skips_of_isClean (h.child hchild)]
      exact Bool.and_true _
  unfold interfaces
  simp only [hclauses]
  refine List.flatMap_congr fun clause hclause => ?_
  exact typeTexts_eq hsource (h.child (List.mem_filter.1 hclause).1)

theorem typeHeader?_eq (h : n.IsClean) : r'.typeHeader? n = r.typeHeader? n := by
  unfold typeHeader?
  rw [roleText?_eq hsource h, modifiers_eq hsource h, r'.lastOfKind?_eq r h,
    typeParameters_eq hsource fun _ hlist => isClean_of_lastOfKind? h hlist,
    superclass?_eq hsource h, interfaces_eq hsource h]

theorem anonymousHeader?_eq (h : n.IsClean) : r'.anonymousHeader? n = r.anonymousHeader? n := by
  unfold anonymousHeader?
  rw [roleText?_eq hsource h]

theorem formalParameter?_eq (h : n.IsClean) : r'.formalParameter? n = r.formalParameter? n := by
  unfold formalParameter?
  rw [roleText?_eq hsource h, nameText?_eq hsource h, modifiers_eq hsource h,
    r'.childOfKind?_eq r h, funext (text_eq hsource)]

theorem addPart_eq (h : n.IsClean) (read : SpreadParts) : r'.addPart read n = r.addPart read n := by
  unfold addPart
  rw [nameText?_eq hsource h, text_eq hsource]

theorem foldl_addPart_eq {ns : List Node} (h : ∀ n ∈ ns, n.IsClean) (read : SpreadParts) :
    ns.foldl r'.addPart read = ns.foldl r.addPart read := by
  induction ns generalizing read with
  | nil => rfl
  | cons n ns ih =>
    rw [List.forall_mem_cons] at h
    rw [List.foldl_cons, List.foldl_cons, addPart_eq hsource h.1, ih h.2]

theorem spreadParameter?_eq (h : n.IsClean) : r'.spreadParameter? n = r.spreadParameter? n := by
  unfold spreadParameter?
  rw [foldl_addPart_eq hsource fun _ hchild => h.namedChild hchild, modifiers_eq hsource h]

theorem parameter?_eq (h : n.IsClean) : r'.parameter? n = r.parameter? n := by
  unfold parameter?
  rw [formalParameter?_eq hsource h, spreadParameter?_eq hsource h]

theorem parameters_eq (h : n.IsClean) : r'.parameters n = r.parameters n := by
  unfold parameters
  cases hlist : n.childOfRole? .parameters with
  | none => rfl
  | some list =>
    have hclean := h.childOfRole? hlist
    simp only [r'.parts_eq r hclean]
    refine List.filterMap_congr fun child hchild => ?_
    exact parameter?_eq hsource (isClean_of_mem_parts hclean hchild)

theorem constructorHeader?_eq (h : n.IsClean) :
    r'.constructorHeader? n = r.constructorHeader? n := by
  unfold constructorHeader?
  rw [roleText?_eq hsource h, modifiers_eq hsource h, r'.childOfKind?_eq r h,
    typeParameters_eq hsource fun _ hlist => isClean_of_childOfKind? h hlist,
    parameters_eq hsource h]

theorem methodHeader?_eq (h : n.IsClean) : r'.methodHeader? n = r.methodHeader? n := by
  unfold methodHeader?
  rw [roleText?_eq hsource h, roleText?_eq hsource h, modifiers_eq hsource h,
    r'.childOfKind?_eq r h,
    typeParameters_eq hsource fun _ hlist => isClean_of_childOfKind? h hlist,
    parameters_eq hsource h]

theorem elementHeader?_eq (h : n.IsClean) : r'.elementHeader? n = r.elementHeader? n := by
  unfold elementHeader?
  rw [roleText?_eq hsource h, roleText?_eq hsource h, modifiers_eq hsource h]

theorem constantHeader?_eq (h : n.IsClean) : r'.constantHeader? n = r.constantHeader? n := by
  unfold constantHeader?
  rw [roleText?_eq hsource h, modifiers_eq hsource h]

theorem field?_eq (h : n.IsClean) (constant : Bool) : r'.field? constant n = r.field? constant n := by
  have hnames : (((r.parts n).filter fun child => child.kind = .declarator).filterMap
      fun d => r'.roleText? d .name) =
        ((r.parts n).filter fun child => child.kind = .declarator).filterMap
          fun d => r.roleText? d .name :=
    List.filterMap_congr fun d hd =>
      roleText?_eq hsource (isClean_of_mem_parts h (List.mem_filter.1 hd).1) .name
  unfold field?
  simp only [r'.parts_eq r h, hnames, roleText?_eq hsource h, modifiers_eq hsource h]

theorem import?_eq (n : Node) : r'.import? n = r.import? n := by
  unfold import?
  simp only [textList_eq hsource]

theorem package?_eq (n : Node) : r'.package? n = r.package? n := by
  unfold package?
  simp only [textList_eq hsource]

/-! ## Declarations -/

theorem fieldMembers_eq (h : n.IsClean) (constant : Bool) (types : List TypeDecl) :
    r'.fieldMembers n constant types = r.fieldMembers n constant types := by
  rw [fieldMembers, fieldMembers, roleText?_eq hsource h, field?_eq hsource h]

end Headers

/-- Both readings look for the body of an enum constant at the same node. -/
theorem mayBeBody_eq (r' r : Reading) (parts : List Node) (h : n.IsClean) :
    r'.mayBeBody parts n = r.mayBeBody parts n := by
  rw [mayBeBody, mayBeBody, r'.skips_of_isClean h, r.skips_of_isClean h]

mutual
theorem typeMembers_eq (hsource : r'.source = r.source) (owner : TypeKind) :
    ∀ (read : List Member) (ns : List Node), (∀ n ∈ ns, n.IsClean) →
      r'.typeMembers owner read ns = r.typeMembers owner read ns
  | _, [], _ => by rw [typeMembers, typeMembers]
  | read, .mk kind role flaw start stop children :: rest, h => by
    rw [List.forall_mem_cons] at h
    obtain ⟨rfl, hchildren⟩ := Node.isClean_iff.1 h.1
    rw [typeMembers.eq_def r', typeMembers.eq_def r]
    simp only [Option.isSome_none, Bool.and_false,
      fun read => typeMembers_eq hsource owner read rest h.2,
      members_eq hsource owner children hchildren, enumMembers_eq hsource children hchildren]

theorem members_eq (hsource : r'.source = r.source) (owner : TypeKind) :
    ∀ ns : List Node, (∀ n ∈ ns, n.IsClean) → r'.members owner ns = r.members owner ns
  | [], _ => by rw [members, members]
  | n :: rest, h => by
    rw [List.forall_mem_cons] at h
    rw [members, members, member_eq hsource owner n h.1, members_eq hsource owner rest h.2]

theorem enumMembers_eq (hsource : r'.source = r.source) :
    ∀ ns : List Node, (∀ n ∈ ns, n.IsClean) → r'.enumMembers ns = r.enumMembers ns
  | [], _ => by rw [enumMembers, enumMembers]
  | .mk kind role flaw start stop children :: rest, h => by
    rw [List.forall_mem_cons] at h
    obtain ⟨rfl, hchildren⟩ := Node.isClean_iff.1 h.1
    rw [enumMembers.eq_def r', enumMembers.eq_def r]
    have hbody := bodyWhere_eq hsource (r'.mayBeBody children) (r.mayBeBody children) children
      hchildren fun child hchild => r'.mayBeBody_eq r children (hchildren child hchild)
    simp only [Option.isSome_none, Bool.and_false, constantHeader?_eq hsource h.1, hbody,
      members_eq hsource .enumType children hchildren, enumMembers_eq hsource rest h.2]

theorem bodyWhere_eq (hsource : r'.source = r.source) (test' test : Node → Bool) :
    ∀ ns : List Node, (∀ n ∈ ns, n.IsClean) → (∀ n ∈ ns, test' n = test n) →
      r'.bodyWhere test' ns = r.bodyWhere test ns
  | [], _, _ => by rw [bodyWhere, bodyWhere]
  | .mk kind role flaw start stop children :: rest, h, htest => by
    rw [List.forall_mem_cons] at h htest
    obtain ⟨rfl, hchildren⟩ := Node.isClean_iff.1 h.1
    rw [bodyWhere, bodyWhere, htest.1, members_eq hsource .classType children hchildren,
      bodyWhere_eq hsource test' test rest h.2 htest.2]
    simp only [Option.isSome_none, Bool.and_false]

theorem member_eq (hsource : r'.source = r.source) (owner : TypeKind) :
    ∀ n : Node, n.IsClean → r'.member owner n = r.member owner n
  | .mk kind role flaw start stop children, h => by
    have hchildren := (Node.isClean_iff.1 h).2
    rw [member.eq_def r', member.eq_def r]
    simp only [r'.skips_of_isClean h, r.skips_of_isClean h, methodHeader?_eq hsource h,
      elementHeader?_eq hsource h, constructorHeader?_eq hsource h, typeHeader?_eq hsource h,
      fieldMembers_eq hsource h, localTypesOf_eq hsource .body children hchildren,
      declaratorTypes_eq hsource children hchildren, localTypesAmong_eq hsource children hchildren,
      fun kind => typeMembers_eq hsource kind [] children hchildren]

theorem localTypes_eq (hsource : r'.source = r.source) :
    ∀ n : Node, n.IsClean → r'.localTypes n = r.localTypes n
  | .mk kind role flaw start stop children, h => by
    have hchildren := (Node.isClean_iff.1 h).2
    rw [localTypes, localTypes]
    simp only [r'.skips_of_isClean h, r.skips_of_isClean h, typeHeader?_eq hsource h,
      anonymousHeader?_eq hsource h, argumentTypes_eq hsource children hchildren,
      creationBody_eq hsource none children hchildren, localTypesAmong_eq hsource children hchildren,
      fun kind => typeMembers_eq hsource kind [] children hchildren]

theorem localTypesAmong_eq (hsource : r'.source = r.source) :
    ∀ ns : List Node, (∀ n ∈ ns, n.IsClean) → r'.localTypesAmong ns = r.localTypesAmong ns
  | [], _ => by rw [localTypesAmong, localTypesAmong]
  | n :: rest, h => by
    rw [List.forall_mem_cons] at h
    rw [localTypesAmong, localTypesAmong, localTypes_eq hsource n h.1,
      localTypesAmong_eq hsource rest h.2]

theorem argumentTypes_eq (hsource : r'.source = r.source) :
    ∀ ns : List Node, (∀ n ∈ ns, n.IsClean) → r'.argumentTypes ns = r.argumentTypes ns
  | [], _ => by rw [argumentTypes, argumentTypes]
  | n :: rest, h => by
    rw [List.forall_mem_cons] at h
    rw [argumentTypes, argumentTypes, localTypes_eq hsource n h.1,
      argumentTypes_eq hsource rest h.2]

theorem creationBody_eq (hsource : r'.source = r.source) :
    ∀ (read : Option (List Member)) (ns : List Node), (∀ n ∈ ns, n.IsClean) →
      r'.creationBody read ns = r.creationBody read ns
  | _, [], _ => by rw [creationBody, creationBody]
  | read, .mk kind role flaw start stop children :: rest, h => by
    rw [List.forall_mem_cons] at h
    have hchildren := (Node.isClean_iff.1 h.1).2
    rw [creationBody, creationBody, members_eq hsource .classType children hchildren]
    simp only [fun read => creationBody_eq hsource read rest h.2]

theorem localTypesOf_eq (hsource : r'.source = r.source) (role : Role) :
    ∀ ns : List Node, (∀ n ∈ ns, n.IsClean) → r'.localTypesOf role ns = r.localTypesOf role ns
  | [], _ => by rw [localTypesOf, localTypesOf]
  | n :: rest, h => by
    rw [List.forall_mem_cons] at h
    rw [localTypesOf, localTypesOf, localTypes_eq hsource n h.1, localTypesOf_eq hsource role rest h.2]

theorem declaratorTypes_eq (hsource : r'.source = r.source) :
    ∀ ns : List Node, (∀ n ∈ ns, n.IsClean) → r'.declaratorTypes ns = r.declaratorTypes ns
  | [], _ => by rw [declaratorTypes, declaratorTypes]
  | .mk kind role flaw start stop children :: rest, h => by
    rw [List.forall_mem_cons] at h
    obtain ⟨rfl, hchildren⟩ := Node.isClean_iff.1 h.1
    rw [declaratorTypes, declaratorTypes, localTypesOf_eq hsource .value children hchildren,
      declaratorTypes_eq hsource rest h.2]
    simp only [Option.isSome_none, Bool.and_false]
end

/-- Whether flaws are passed over makes no difference to a tree without any. -/
theorem unit_eq (hsource : r'.source = r.source) (h : n.IsClean) (sourceName : String) :
    r'.unit n sourceName = r.unit n sourceName := by
  unfold unit
  have htypes : ((r.parts n).flatMap fun child =>
      if child.kind.typeKind?.isSome then r'.localTypes child else []) =
        (r.parts n).flatMap fun child =>
          if child.kind.typeKind?.isSome then r.localTypes child else [] :=
    List.flatMap_congr fun child hchild => by
      rw [localTypes_eq hsource child (isClean_of_mem_parts h hchild)]
  simp only [r'.parts_eq r h, funext (package?_eq hsource), funext (import?_eq hsource), htypes]

end Reading

/-! ## Parses -/

variable {source : List Char} {root : Node} {sourceName : String} {u : CompilationUnit}

theorem readTree_of_isClean (h : root.IsClean) (strategy : Strategy) :
    readTree strategy source root sourceName =
      .ok ((⟨source.toArray, strategy = .tolerant⟩ : Reading).unit root sourceName) := by
  have hflaw : root.hasFlaw = false := h
  simp only [readTree, hflaw, Bool.false_and, Bool.false_eq_true, if_false]

theorem isClean_of_readTree (h : readTree .strict source root sourceName = .ok u) :
    root.IsClean := by
  cases hflaw : root.hasFlaw with
  | false => exact hflaw
  | true =>
    rw [readTree, hflaw] at h
    cases h

/-- What a strict parse makes of a tree, a tolerant one makes of it too. -/
theorem readTree_tolerant_of_strict (h : readTree .strict source root sourceName = .ok u) :
    readTree .tolerant source root sourceName = .ok u := by
  have hclean := isClean_of_readTree h
  have hsource : (⟨source.toArray, true⟩ : Reading).source =
      (⟨source.toArray, false⟩ : Reading).source := rfl
  rw [readTree_of_isClean hclean] at h ⊢
  exact (congrArg Except.ok (Reading.unit_eq hsource hclean sourceName)).trans h

/-- A strict parse that succeeds gives what a tolerant parse of the same tree gives, whatever the
tree. With a fallback, a parse gives the unit of the tolerant parse and fails just when that fails,
for the same reason. -/
theorem fst_parseWithFallback (source sourceName : String) :
    (∀ root u, readTree .strict source.toList root sourceName = .ok u →
        readTree .tolerant source.toList root sourceName = .ok u) ∧
      (∀ u, parse .strict source sourceName = .ok u → parse .tolerant source sourceName = .ok u) ∧
      (parseWithFallback source sourceName).map Prod.fst = parse .tolerant source sourceName := by
  have hagree : ∀ u, parse .strict source sourceName = .ok u →
      parse .tolerant source sourceName = .ok u := fun u h => readTree_tolerant_of_strict h
  refine ⟨fun root u h => readTree_tolerant_of_strict h, hagree, ?_⟩
  rw [parseWithFallback]
  cases hstrict : parse .strict source sourceName with
  | ok u => exact (hagree u hstrict).symm
  | error e => cases parse .tolerant source sourceName <;> rfl

end Java

end SymbolTable
