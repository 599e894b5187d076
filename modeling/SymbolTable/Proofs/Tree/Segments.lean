import SymbolTable.Naming
import SymbolTable.Proofs.Tree.Location
import SymbolTable.Proofs.Tree.Merge
import SymbolTable.Text.Blank

/-!
# Coordinates as lists of segments

A coordinate is written as its segments with the delimiter between them, and a search takes the text
apart again while it descends. If the delimiter has no character in common with the segments, nor
with the values in the tree, only the cuts between segments fit. The search then compares segments
with values, and which delimiter was used does not matter.
-/

namespace SymbolTable

open SymbolTable.Tree (root)

/-- No character of the delimiter occurs in the text. -/
def Absent (delimiter text : String) : Prop := ∀ c ∈ delimiter.toList, c ∉ text.toList

instance (delimiter text : String) : Decidable (Absent delimiter text) :=
  List.decidableBAll (fun c => c ∉ text.toList) delimiter.toList

theorem Absent.of_subset {delimiter text text' : String} (h : Absent delimiter text)
    (hsubset : text'.toList ⊆ text.toList) : Absent delimiter text' :=
  fun c hc hmem => h c hc (hsubset hmem)

theorem absent_append {delimiter delimiter' text : String} :
    Absent (delimiter ++ delimiter') text ↔ Absent delimiter text ∧ Absent delimiter' text := by
  simp only [Absent, String.toList_append, List.mem_append, or_imp, forall_and]

theorem absent_empty (delimiter : String) : Absent delimiter "" :=
  fun _ _ hmem => absurd hmem List.not_mem_nil

/-- A text that starts with a value which it does not continue by the delimiter starts with no other
value. -/
theorem eq_of_append_eq {delimiter value segment tail more : List Char} (hne : delimiter ≠ [])
    (hvalue : ∀ c ∈ delimiter, c ∉ value) (hmore : more ≠ [] → delimiter <+: more)
    (h : value ++ tail = segment ++ more) : ∃ left, segment = value ++ left ∧ tail = left ++ more := by
  rcases List.append_eq_append_iff.1 h with hshort | ⟨surplus, hsurplus, hrest⟩
  · exact hshort
  · cases surplus with
    | nil => exact ⟨[], by rw [hsurplus, List.append_nil, List.append_nil], by simpa using hrest.symm⟩
    | cons c surplus =>
      -- The value would run into the delimiter.
      obtain ⟨after, hafter⟩ := hmore (by rw [hrest]; exact List.cons_ne_nil _ _)
      rw [hrest, List.cons_append] at hafter
      cases delimiter with
      | nil => exact absurd rfl hne
      | cons d delimiter =>
        obtain ⟨rfl, -⟩ := List.cons.inj hafter
        refine absurd ?_ (hvalue d List.mem_cons_self)
        rw [hsurplus]
        exact List.mem_append_right _ List.mem_cons_self

namespace Tree

/-- No character of the delimiter occurs in the value of a child. The value of a root is no part of
a coordinate. -/
def Avoids (t : Tree) (delimiter : String) : Prop :=
  ∀ above, ∀ id ∈ t.children above, Absent delimiter (t.node id).value

theorem avoids_iff {t : Tree} {delimiter : String} :
    t.Avoids delimiter ↔
      ∀ above < t.size, ∀ id ∈ t.children above, Absent delimiter (t.node id).value :=
  ⟨fun h above _ => h above, fun h above id hid => h above (lt_size_of_mem_children hid) id hid⟩

instance (t : Tree) (delimiter : String) : Decidable (t.Avoids delimiter) :=
  decidable_of_iff' _ avoids_iff

theorem avoids_empty (delimiter : String) : empty.Avoids delimiter := by
  intro above id hid
  rw [children_empty] at hid
  exact absurd hid List.not_mem_nil

namespace Avoids

variable {t : Tree} {delimiter : String} (h : t.Avoids delimiter)
include h

theorem of_sameShape {t' : Tree} (hshape : t.SameShape t') : t'.Avoids delimiter := by
  intro above id hid
  rw [hshape.value]
  exact h above id (hshape.children above ▸ hid)

theorem put (hlinked : t.Linked) {parent : NodeId} (hp : parent < t.size) {c : Component}
    (hc : Absent delimiter c.value) : (t.put parent c).2.Avoids delimiter := by
  cases hfind : t.findChild parent c with
  | some e =>
    rw [put_of_findChild hfind]
    exact h.of_sameShape (sameShape_uniteAt t e c.attributes)
  | none =>
    rw [put_of_findChild_eq_none hfind]
    intro above id hid
    rcases mem_children_add hp hid with hid | ⟨-, rfl⟩
    · have hvalue : ((t.add parent c).node id).value = (t.node id).value :=
        congrArg Symbol.value ((extends_add t c hp).symbol (hlinked.child_lt hid))
      rw [hvalue]
      exact h above id hid
    · have hvalue : ((t.add parent c).node t.size).value = c.value :=
        congrArg Symbol.value (symbol_add t c hp)
      rwa [hvalue]

/-- A merge brings in no values but those of the source. -/
theorem merge (hgrown : t.Grown) {source : Tree} (hsource : source.Grown)
    (h' : source.Avoids delimiter) : (t.merge source).Avoids delimiter := by
  have hshape := sameShape_uniteAt t root (source.node root).attributes
  have hroot := hgrown.of_sameShape hshape
  rw [merge_eq_graft hgrown hsource]
  exact (graftWithin_keeps source root (P := fun t => t.Avoids delimiter)
    (fun hlinked htop havoids hp hc =>
      havoids.put hlinked (hlinked.follow_lt htop hp) (h' _ _ hc))
    source.size root hroot.linked hroot.root_lt (h.of_sameShape hshape) (follow_nil _ root)).1

end Avoids

/-- A tree avoids what a larger tree avoids. -/
theorem Extends.avoids {t t' : Tree} {delimiter : String} (h : t.Extends t') (hlinked : t.Linked)
    (h' : t'.Avoids delimiter) : t.Avoids delimiter := by
  intro above id hid
  have hvalue : (t'.node id).value = (t.node id).value :=
    congrArg Symbol.value (h.symbol (hlinked.child_lt hid))
  rw [← hvalue]
  exact h' above id ((h.children (lt_size_of_mem_children hid)).subset hid)

theorem kind_ne_root_of_mem_parentsWithin {t : Tree} {fuel : Nat} {id p : NodeId}
    (hp : p ∈ t.parentsWithin fuel id) : (t.node p).kind ≠ .root := by
  induction fuel generalizing id with
  | zero => exact absurd hp List.not_mem_nil
  | succ fuel ih =>
    rw [parentsWithin] at hp
    split at hp
    · exact absurd hp List.not_mem_nil
    · split at hp
      · exact absurd hp List.not_mem_nil
      · next hkind =>
        rcases List.mem_cons.1 hp with rfl | hp
        · exact hkind
        · exact ih hp

/-- The segments of a coordinate are values of children. -/
theorem Grown.absent_pathValues {t : Tree} (h : t.Grown) {delimiter : String}
    (havoids : t.Avoids delimiter) (id : NodeId) :
    ∀ value ∈ t.pathValues id, Absent delimiter value := by
  have hlisted : ∀ {p}, (t.node p).kind ≠ .root → Absent delimiter (t.node p).value := by
    intro p hkind
    rcases Nat.lt_or_ge p t.size with hp | hp
    · have hpos : root < p := Nat.pos_of_ne_zero fun hzero => hkind (hzero ▸ h.kind_root)
      obtain ⟨above, habove⟩ := h.attached hpos hp
      exact havoids above p habove
    · rw [node_of_size_le hp]
      exact absent_empty delimiter
  intro value hvalue
  unfold pathValues at hvalue
  rcases List.mem_append.1 hvalue with hvalue | hvalue
  · obtain ⟨p, hp, rfl⟩ := List.mem_map.1 hvalue
    exact hlisted (kind_ne_root_of_mem_parentsWithin (List.mem_reverse.1 hp))
  · split at hvalue
    · exact absurd hvalue List.not_mem_nil
    · next hkind =>
      rw [List.mem_singleton.1 hvalue]
      exact hlisted hkind

/-- The search for a list of segments below a node: in pre-order, one segment for each level. -/
def locateSegmentsWithin (t : Tree) : Nat → NodeId → List String → Option NodeId
  | 0, _, _ => none
  | _ + 1, _, [] => none
  | fuel + 1, above, segment :: rest =>
    (t.children above).findSome? fun child =>
      if (t.node child).value = segment then
        if rest = [] then some child else t.locateSegmentsWithin fuel child rest
      else none

/-- The first node, in pre-order, with the segments as the values on its path. A single empty
segment spells the empty text, which is not searched for. -/
def locateSegments (t : Tree) (segments : List String) : Option NodeId :=
  if segments = [""] then none else t.locateSegmentsWithin t.size root segments

variable {t : Tree} {delimiter : String}

/-- What follows the first segment of a coordinate. -/
def afterSegment (delimiter : List Char) : List (List Char) → List Char
  | [] => []
  | rest => delimiter ++ delimiter.intercalate rest

theorem intercalate_cons_eq (delimiter segment : List Char) (rest : List (List Char)) :
    delimiter.intercalate (segment :: rest) = segment ++ afterSegment delimiter rest := by
  cases rest with
  | nil => simp [afterSegment]
  | cons next rest => simp [afterSegment, List.intercalate_cons_of_ne_nil]

theorem delimiter_prefix_afterSegment {delimiter : List Char} {rest : List (List Char)}
    (h : afterSegment delimiter rest ≠ []) : delimiter <+: afterSegment delimiter rest := by
  cases rest with
  | nil => exact absurd rfl h
  | cons next rest => exact List.prefix_append _ _

/-- What follows a segment starts as the delimiter does. -/
theorem mem_delimiter_of_afterSegment {delimiter rest : List Char} {more : List (List Char)} {c : Char}
    (hne : delimiter ≠ []) (h : afterSegment delimiter more = c :: rest) : c ∈ delimiter := by
  have hsome : afterSegment delimiter more ≠ [] := by simp [h]
  obtain ⟨next, hnext⟩ := delimiter_prefix_afterSegment hsome
  obtain ⟨d, delimiter, rfl⟩ := List.exists_cons_of_ne_nil hne
  obtain ⟨rfl, -⟩ := List.cons.inj (hnext.trans h)
  exact List.mem_cons_self

/-- Joined texts determine their segments if each segment is told apart from any other one, whatever
follows the two. -/
theorem intercalate_inj {delimiter : List Char} (hne : delimiter ≠ []) {P : List Char → Prop}
    (hfirst : ∀ x y more more', P x → P y →
      x ++ afterSegment delimiter more = y ++ afterSegment delimiter more' → x = y)
    {xs ys : List (List Char)} (hx : xs ≠ []) (hy : ys ≠ []) (hxs : ∀ x ∈ xs, P x)
    (hys : ∀ y ∈ ys, P y) (h : delimiter.intercalate xs = delimiter.intercalate ys) : xs = ys := by
  induction xs generalizing ys with
  | nil => exact absurd rfl hx
  | cons x xs ih =>
    obtain ⟨y, ys, rfl⟩ := List.exists_cons_of_ne_nil hy
    rw [List.forall_mem_cons] at hxs hys
    rw [intercalate_cons_eq, intercalate_cons_eq] at h
    obtain rfl := hfirst x y xs ys hxs.1 hys.1 h
    have hrest := List.append_cancel_left h
    cases xs with
    | nil =>
      cases ys with
      | nil => rfl
      | cons y ys => simp [afterSegment, hne] at hrest
    | cons x' xs =>
      cases ys with
      | nil => simp [afterSegment, hne] at hrest
      | cons y ys =>
        rw [ih (List.cons_ne_nil _ _) (List.cons_ne_nil _ _) hxs.2 hys.2
          (List.append_cancel_left hrest)]

/-- Without the delimiter in any segment, the joined text determines the segments. -/
theorem intercalate_inj_of_absent {delimiter : List Char} (hne : delimiter ≠ [])
    {xs ys : List (List Char)} (hx : xs ≠ []) (hy : ys ≠ [])
    (hxs : ∀ x ∈ xs, ∀ c ∈ delimiter, c ∉ x) (hys : ∀ y ∈ ys, ∀ c ∈ delimiter, c ∉ y)
    (h : delimiter.intercalate xs = delimiter.intercalate ys) : xs = ys := by
  refine intercalate_inj hne (fun x y more more' hx hy h => ?_) hx hy hxs hys h
  obtain ⟨left, rfl, hrest⟩ := eq_of_append_eq hne hx delimiter_prefix_afterSegment h
  cases left with
  | nil => exact (List.append_nil x).symm
  | cons c left =>
    -- The surplus of the second segment stands where the delimiter would.
    exact absurd (List.mem_append_right x List.mem_cons_self)
      (hy c (mem_delimiter_of_afterSegment hne hrest))

/-- Coordinates whose values do not hold the delimiter are equal only for equal lists of values. -/
theorem coordinate_eq_iff {id id' : NodeId} (hne : delimiter ≠ "") (hid : t.pathValues id ≠ [])
    (hid' : t.pathValues id' ≠ [])
    (habsent : ∀ value ∈ t.pathValues id ++ t.pathValues id', Absent delimiter value) :
    t.coordinate id delimiter = t.coordinate id' delimiter ↔ t.pathValues id = t.pathValues id' := by
  refine ⟨fun h => ?_, fun h => congrArg delimiter.intercalate h⟩
  have htexts : ∀ {values : List String}, (∀ value ∈ values, Absent delimiter value) →
      ∀ text ∈ values.map String.toList, ∀ d ∈ delimiter.toList, d ∉ text :=
    fun hvalues => List.forall_mem_map.2 hvalues
  rw [List.forall_mem_append] at habsent
  rw [coordinate, coordinate, ← String.toList_inj, String.toList_intercalate,
    String.toList_intercalate] at h
  have hlists := intercalate_inj_of_absent (mt String.toList_eq_nil_iff.1 hne)
    (mt List.map_eq_nil_iff.1 hid) (mt List.map_eq_nil_iff.1 hid') (htexts habsent.1)
    (htexts habsent.2) h
  exact List.map_injective_iff.2 (fun _ _ => String.toList_inj.1) hlists

theorem append_ne_cons {delimiter next text : List Char} (hne : delimiter ≠ []) {c : Char}
    (hc : c ∉ delimiter) : delimiter ++ next ≠ c :: text := by
  obtain ⟨d, more, rfl⟩ := List.exists_cons_of_ne_nil hne
  intro h
  obtain ⟨rfl, -⟩ := List.cons.inj h
  exact hc List.mem_cons_self

theorem locateAt_segments (hne : delimiter ≠ "") {fuel : Nat} {child : NodeId}
    (hchild : Absent delimiter (t.node child).value) {segment : String}
    (hsegment : Absent delimiter segment) (rest : List String) :
    t.locateAt delimiter.toList fuel
        (delimiter.toList.intercalate ((segment :: rest).map String.toList)) child =
      if (t.node child).value = segment then
        if rest = [] then some child
        else t.locateWithin delimiter.toList fuel child
          (delimiter.toList.intercalate (rest.map String.toList))
      else none := by
  have hne' : delimiter.toList ≠ [] := fun h => hne (String.toList_eq_nil_iff.1 h)
  rw [List.map_cons, intercalate_cons_eq]
  split_ifs with hvalue hrest
  · rw [hrest, List.map_nil, afterSegment, List.append_nil, ← hvalue]
    exact locateAt_value
  · obtain ⟨next, rest, rfl⟩ := List.exists_cons_of_ne_nil hrest
    rw [← hvalue]
    exact locateAt_append hne' _
  · refine locateAt_eq_none fun tail hstart => ?_
    obtain ⟨left, hleft, rfl⟩ := eq_of_append_eq hne' hchild delimiter_prefix_afterSegment hstart
    cases left with
    | nil => exact absurd (String.toList_inj.1 (hleft.trans (List.append_nil _))).symm hvalue
    | cons c left =>
      -- What is left of the segment stands where the delimiter would.
      have hc : c ∉ delimiter.toList := fun hmem =>
        hsegment c hmem (hleft ▸ List.mem_append_right _ List.mem_cons_self)
      exact ⟨List.cons_ne_nil _ _, fun next => append_ne_cons hne' hc⟩

theorem locateWithin_segments (hne : delimiter ≠ "") (ht : t.Avoids delimiter) {fuel : Nat}
    {above : NodeId} {segments : List String} (hnil : segments ≠ [])
    (hsegments : ∀ segment ∈ segments, Absent delimiter segment) :
    t.locateWithin delimiter.toList fuel above
        (delimiter.toList.intercalate (segments.map String.toList)) =
      t.locateSegmentsWithin fuel above segments := by
  induction fuel generalizing above segments with
  | zero => rfl
  | succ fuel ih =>
    obtain ⟨segment, rest, rfl⟩ := List.exists_cons_of_ne_nil hnil
    rw [locateWithin_succ, locateSegmentsWithin]
    refine findSome?_congr fun child hchild => ?_
    rw [locateAt_segments hne (ht above child hchild) (hsegments segment List.mem_cons_self)]
    split_ifs with hvalue hrest
    · rfl
    · exact ih hrest fun s hs => hsegments s (List.mem_cons_of_mem segment hs)
    · rfl

theorem locateSegmentsWithin_nil (t : Tree) (fuel : Nat) (above : NodeId) :
    t.locateSegmentsWithin fuel above [] = none := by
  cases fuel <;> rfl

theorem intercalate_eq_empty_iff (hne : delimiter ≠ "") {segments : List String} :
    delimiter.intercalate segments = "" ↔ segments = [] ∨ segments = [""] := by
  constructor
  · intro h
    cases segments with
    | nil => exact .inl rfl
    | cons segment rest =>
      have hchars := String.toList_eq_nil_iff.2 h
      rw [String.toList_intercalate, List.map_cons, intercalate_cons_eq,
        List.append_eq_nil_iff] at hchars
      obtain ⟨hsegment, hrest⟩ := hchars
      rw [String.toList_eq_nil_iff.1 hsegment]
      cases rest with
      | nil => exact .inr rfl
      | cons next rest =>
        have hdelimiter := (List.append_eq_nil_iff.1 hrest).1
        exact absurd (String.toList_eq_nil_iff.1 hdelimiter) hne
  · rintro (rfl | rfl)
    · exact String.intercalate_nil
    · simp

/-- With a delimiter that is absent from the tree and from the segments, searching for the joined
text is searching for the segments. -/
theorem locate_intercalate (hne : delimiter ≠ "") (ht : t.Avoids delimiter) {segments : List String}
    (hsegments : ∀ segment ∈ segments, Absent delimiter segment) :
    t.locate (delimiter.intercalate segments) delimiter = t.locateSegments segments := by
  unfold locate locateSegments
  by_cases hnil : segments = []
  · subst hnil
    simp [String.intercalate_nil, locateSegmentsWithin_nil]
  · by_cases hone : segments = [""]
    · have htext := (intercalate_eq_empty_iff hne).2 (.inr hone)
      rw [if_pos hone, htext]
      rfl
    · have htext : ¬ (delimiter.intercalate segments).isEmpty = true := by
        rw [String.isEmpty_iff, intercalate_eq_empty_iff hne]
        exact not_or.2 ⟨hnil, hone⟩
      rw [if_neg htext, if_neg hone, String.toList_intercalate,
        locateWithin_segments hne ht hnil hsegments]

end Tree

/-! ## Dotted names -/

/-- What a dotted name has between its dots. -/
def dotParts (dotted : String) : List String :=
  (Text.pieces (· = '.') dotted.toList).map String.ofList

theorem mem_of_mem_pieces {cut : Char → Bool} {text piece : List Char}
    (hpiece : piece ∈ Text.pieces cut text) : piece ⊆ text := by
  induction text generalizing piece with
  | nil =>
    rw [List.mem_singleton.1 hpiece]
    exact List.nil_subset _
  | cons c text ih =>
    rw [Text.pieces] at hpiece
    split at hpiece
    · rcases List.mem_cons.1 hpiece with rfl | hpiece
      · exact List.nil_subset _
      · exact fun d hd => List.mem_cons_of_mem c (ih hpiece hd)
    · split at hpiece
      · exact List.mem_singleton.1 hpiece ▸ List.cons_subset_cons c (List.nil_subset _)
      · next first more hmore =>
        rw [hmore] at ih
        rcases List.mem_cons.1 hpiece with rfl | hpiece
        · exact List.cons_subset_cons c (ih List.mem_cons_self)
        · exact fun d hd => List.mem_cons_of_mem c (ih (List.mem_cons_of_mem first hpiece) hd)

theorem absent_of_mem_dotParts {delimiter dotted part : String} (h : Absent delimiter dotted)
    (hpart : part ∈ dotParts dotted) : Absent delimiter part := by
  obtain ⟨piece, hpiece, rfl⟩ := List.mem_map.1 hpart
  exact h.of_subset (by rw [String.toList_ofList]; exact mem_of_mem_pieces hpiece)

theorem flatMap_eq_intercalate (delimiter text : List Char) :
    (text.flatMap fun c => if c = '.' then delimiter else [c]) =
      delimiter.intercalate (Text.pieces (· = '.') text) := by
  induction text with
  | nil => simp [Text.pieces]
  | cons c text ih =>
    rw [List.flatMap_cons, ih]
    obtain ⟨piece, more, hpieces⟩ := List.exists_cons_of_ne_nil (Text.pieces_ne_nil (· = '.') text)
    by_cases hc : c = '.'
    · have hcut : Text.pieces (· = '.') (c :: text) = [] :: Text.pieces (· = '.') text := by
        simp [Text.pieces, hc]
      rw [hcut, if_pos hc, hpieces, List.intercalate_cons_of_ne_nil (List.cons_ne_nil _ _),
        List.nil_append]
    · have hkept : Text.pieces (· = '.') (c :: text) = (c :: piece) :: more := by
        simp [Text.pieces, hc, hpieces]
      rw [hkept, if_neg hc, hpieces, Tree.intercalate_cons_eq, Tree.intercalate_cons_eq]
      rfl

/-- The coordinate of a dotted name has its parts as segments. -/
theorem Naming.coordinateOf_eq (naming : Naming) (dotted : String) :
    naming.coordinateOf dotted = naming.delimiter.intercalate (dotParts dotted) := by
  rw [← String.toList_inj, String.toList_intercalate, coordinateOf, Text.replaceChar,
    String.toList_ofList, flatMap_eq_intercalate, dotParts, List.map_map]
  congr 1
  exact (List.map_id'' (fun _ => String.toList_ofList) _).symm

end SymbolTable
