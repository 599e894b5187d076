import SymbolTable.Proofs.Analysis.Constructors

/-!
# Placements that commute

Two placements that lie apart may change places: the tree has the same paths with the same
attributes either way, and only siblings stand in another order. So may two runs of placements, and
any lists that are made of interchangeable parts.
-/

namespace SymbolTable

open SymbolTable.Tree (root)
open SymbolTable.Tree.Entry (attributesOf)

namespace Tree

/-- The placement finds its place, and is not left out there. -/
def Takes (t : Tree) (p : Placement) : Prop :=
  (t.entry p.outer).isSome ∧ (p.fallback = true → ¬ t.Constructed p.outer)

theorem place_of_not_takes {t : Tree} {p : Placement} (hp : ¬ t.Takes p) : t.place p = t := by
  unfold place
  cases hid : t.follow root p.outer with
  | none => rfl
  | some id =>
    simp only
    rw [if_pos]
    by_contra hskip
    refine hp ⟨isSome_entry_iff.2 ⟨id, hid⟩, fun hfallback hconstructed => hskip ?_⟩
    rw [hfallback, (hasConstructor_iff hid).2 hconstructed]
    rfl

namespace Grown

variable {t : Tree} (h : t.Grown) {p : Placement} {x : List Symbol}
include h

theorem isSome_place_iff : ((t.place p).entry x).isSome ↔
    (t.entry x).isSome ∨ x = p.path ∧ t.Takes p := by
  by_cases houter : (t.follow root p.outer).isSome
  · have htakes : t.Takes p ↔ (p.fallback = true → ¬ t.Constructed p.outer) := by
      rw [Takes, isSome_entry, houter]
      exact and_iff_right rfl
    rw [htakes, h.isSome_entry_place houter]
  · have hnot : ¬ t.Takes p := fun htakes => houter (by rw [← isSome_entry]; exact htakes.1)
    rw [place_of_not_takes hnot]
    exact ⟨.inl, fun hx => hx.resolve_right fun hx => hnot hx.2⟩

theorem attributesOf_place_self (hp : t.Takes p) :
    attributesOf ((t.place p).entry p.path) =
      attributesOf (Entry.join (t.entry p.path) (some ⟨p.component.attributes, []⟩)) := by
  obtain ⟨id, hid⟩ := isSome_entry_iff.1 hp.1
  have hplace : t.place p = (t.put id p.component).2 := by
    have hkeep : ¬ (p.fallback && t.hasConstructor id) = true := by
      rw [Bool.and_eq_true, hasConstructor_iff hid]
      exact fun hskip => hp.2 hskip.1 hskip.2
    simp only [Tree.place, hid, if_neg hkeep]
  have hne : p.path ≠ p.outer := by
    intro heq
    have hlength := congrArg List.length heq
    simp [Placement.path] at hlength
  have hself : p.path = p.outer ++ [p.component.symbol] := rfl
  rw [hplace, h.entry_put hid, if_neg hne, if_pos hself]

theorem attributesOf_place_of_ne (hx : ¬ (x = p.path ∧ t.Takes p)) :
    attributesOf ((t.place p).entry x) = attributesOf (t.entry x) := by
  rcases h.entry_place p x with heq | ⟨hsome, s, heq⟩ | ⟨hpath, -⟩
  · rw [heq]
  · rw [heq, Entry.attributesOf_join, if_pos hsome]
    exact unite_nil _
  · rw [place_of_not_takes fun hp => hx ⟨hpath, hp⟩]

end Grown

/-! ## Trees with the same entries -/

/-- The trees differ at most in the order of siblings. -/
structure SameEntries (t t' : Tree) : Prop where
  isSome : ∀ x, (t'.entry x).isSome = (t.entry x).isSome
  attributes : ∀ x, attributesOf (t'.entry x) = attributesOf (t.entry x)

namespace SameEntries

variable {t t' t'' : Tree}

theorem refl (t : Tree) : t.SameEntries t := ⟨fun _ => rfl, fun _ => rfl⟩

theorem symm (h : t.SameEntries t') : t'.SameEntries t :=
  ⟨fun x => (h.isSome x).symm, fun x => (h.attributes x).symm⟩

theorem trans (h : t.SameEntries t') (h' : t'.SameEntries t'') : t.SameEntries t'' :=
  ⟨fun x => (h'.isSome x).trans (h.isSome x), fun x => (h'.attributes x).trans (h.attributes x)⟩

theorem constructed_iff (h : t.SameEntries t') (x : List Symbol) :
    t'.Constructed x ↔ t.Constructed x := by
  unfold Constructed
  simp only [h.isSome]

theorem takes_iff (h : t.SameEntries t') (p : Placement) : t'.Takes p ↔ t.Takes p := by
  unfold Takes
  rw [h.isSome, h.constructed_iff]

theorem attributes_join (h : t.SameEntries t') (x : List Symbol) (f : Option Entry) :
    attributesOf (Entry.join (t'.entry x) f) = attributesOf (Entry.join (t.entry x) f) := by
  rw [Entry.attributesOf_join, Entry.attributesOf_join, h.isSome, h.attributes]

theorem place (h : t.SameEntries t') (ht : t.Grown) (ht' : t'.Grown) (p : Placement) :
    (t.place p).SameEntries (t'.place p) where
  isSome x := by
    rw [Bool.eq_iff_iff, ht'.isSome_place_iff, ht.isSome_place_iff, h.isSome, h.takes_iff]
  attributes x := by
    by_cases hx : x = p.path ∧ t.Takes p
    · obtain ⟨rfl, hp⟩ := hx
      rw [ht.attributesOf_place_self hp, ht'.attributesOf_place_self ((h.takes_iff p).2 hp),
        h.attributes_join]
    · rw [ht.attributesOf_place_of_ne hx, ht'.attributesOf_place_of_ne
        fun hx' => hx ⟨hx'.1, (h.takes_iff p).1 hx'.2⟩, h.attributes]

end SameEntries

end Tree

/-! ## Placements apart -/

/-- Neither of the placements makes a difference to the other. -/
structure Placement.Apart (p q : Placement) : Prop where
  path : p.path ≠ q.path
  outer : p.path ≠ q.outer
  outer' : q.path ≠ p.outer
  /-- A fallback looks for siblings. -/
  fallback : p.outer = q.outer → p.fallback = false ∧ q.fallback = false

theorem Placement.Apart.symm {p q : Placement} (h : p.Apart q) : q.Apart p :=
  ⟨h.path.symm, h.outer', h.outer, fun houter => (h.fallback houter.symm).symm⟩

namespace Tree.Grown

variable {t : Tree} (h : t.Grown) {p q : Placement}
include h

theorem takes_place_iff (hpq : p.Apart q) : (t.place p).Takes q ↔ t.Takes q := by
  have houter : ((t.place p).entry q.outer).isSome ↔ (t.entry q.outer).isSome := by
    rw [h.isSome_place_iff]
    exact or_iff_left fun hx => hpq.outer hx.1.symm
  have hconstructed : q.fallback = true →
      ((t.place p).Constructed q.outer ↔ t.Constructed q.outer) := by
    intro hfallback
    unfold Constructed
    refine exists_congr fun s => and_congr_right fun _ => ?_
    rw [h.isSome_place_iff]
    refine or_iff_left fun hx => ?_
    obtain ⟨hsame, -⟩ := CompilationUnit.path_inj hx.1.symm
    rw [(hpq.fallback hsame).2] at hfallback
    cases hfallback
  unfold Takes
  rw [houter]
  exact and_congr_right fun _ => forall_congr' fun hfallback => not_congr (hconstructed hfallback)

/-- The attributes at the path of `p` do not depend on whether `q` comes before or after. -/
theorem attributesOf_place_comm (hp : p.component.kind ≠ .root) (hq : q.component.kind ≠ .root)
    (hpq : p.Apart q) : attributesOf (((t.place p).place q).entry p.path) =
      attributesOf (((t.place q).place p).entry p.path) := by
  have htp := h.place hp
  have htq := h.place hq
  have hsome : ((t.place q).entry p.path).isSome = (t.entry p.path).isSome := by
    rw [Bool.eq_iff_iff, h.isSome_place_iff]
    exact or_iff_left fun hx => hpq.path hx.1
  have hkeep : attributesOf ((t.place q).entry p.path) = attributesOf (t.entry p.path) :=
    h.attributesOf_place_of_ne fun hx => hpq.path hx.1
  rw [htp.attributesOf_place_of_ne fun hx => hpq.path hx.1]
  by_cases htakes : t.Takes p
  · rw [h.attributesOf_place_self htakes,
      htq.attributesOf_place_self ((h.takes_place_iff hpq.symm).2 htakes),
      Entry.attributesOf_join, Entry.attributesOf_join, hsome, hkeep]
  · rw [h.attributesOf_place_of_ne fun hx => htakes hx.2,
      htq.attributesOf_place_of_ne fun hx => htakes ((h.takes_place_iff hpq.symm).1 hx.2), hkeep]

/-- Placements apart may change places. -/
theorem place_comm (hp : p.component.kind ≠ .root) (hq : q.component.kind ≠ .root)
    (hpq : p.Apart q) : ((t.place p).place q).SameEntries ((t.place q).place p) := by
  have htp := h.place hp
  have htq := h.place hq
  refine ⟨fun x => ?_, fun x => ?_⟩
  · rw [Bool.eq_iff_iff, htp.isSome_place_iff, htq.isSome_place_iff, h.isSome_place_iff,
      h.isSome_place_iff, h.takes_place_iff hpq, h.takes_place_iff hpq.symm, or_assoc, or_assoc]
    exact or_congr_right or_comm
  · by_cases hxp : x = p.path
    · rw [hxp]
      exact (h.attributesOf_place_comm hp hq hpq).symm
    · by_cases hxq : x = q.path
      · rw [hxq]
        exact h.attributesOf_place_comm hq hp hpq.symm
      · rw [htp.attributesOf_place_of_ne fun hx => hxq hx.1,
          htq.attributesOf_place_of_ne fun hx => hxp hx.1,
          h.attributesOf_place_of_ne fun hx => hxp hx.1,
          h.attributesOf_place_of_ne fun hx => hxq hx.1]

end Tree.Grown

/-! ## Interchangeable lists -/

/-- Placing either list gives trees with the same entries. -/
structure Interchangeable (pls pls' : List Placement) : Prop where
  ne_root : ∀ p ∈ pls, p.component.kind ≠ .root
  ne_root' : ∀ p ∈ pls', p.component.kind ≠ .root
  sameEntries : ∀ {t t' : Tree}, t.Grown → t'.Grown → t.SameEntries t' →
    (pls.foldl Tree.place t).SameEntries (pls'.foldl Tree.place t')

theorem Tree.Grown.places {t : Tree} (h : t.Grown) {pls : List Placement}
    (hpls : ∀ p ∈ pls, p.component.kind ≠ .root) : (pls.foldl Tree.place t).Grown := by
  induction pls generalizing t with
  | nil => exact h
  | cons p pls ih =>
    exact ih (h.place (hpls p List.mem_cons_self)) fun q hq => hpls q (List.mem_cons_of_mem p hq)

namespace Interchangeable

variable {pls pls' pls'' more more' : List Placement}

theorem refl (h : ∀ p ∈ pls, p.component.kind ≠ .root) : Interchangeable pls pls where
  ne_root := h
  ne_root' := h
  sameEntries {t t'} ht ht' hsame := by
    induction pls generalizing t t' with
    | nil => exact hsame
    | cons p pls ih =>
      have hp := h p List.mem_cons_self
      exact ih (fun q hq => h q (List.mem_cons_of_mem p hq)) (ht.place hp) (ht'.place hp)
        (hsame.place ht ht' p)

theorem trans (h : Interchangeable pls pls') (h' : Interchangeable pls' pls'') :
    Interchangeable pls pls'' where
  ne_root := h.ne_root
  ne_root' := h'.ne_root'
  sameEntries ht ht' hsame :=
    (h.sameEntries ht ht (.refl _)).trans (h'.sameEntries ht ht' hsame)

theorem append (h : Interchangeable pls pls') (hmore : Interchangeable more more') :
    Interchangeable (pls ++ more) (pls' ++ more') where
  ne_root p hp := (List.mem_append.1 hp).elim (h.ne_root p) (hmore.ne_root p)
  ne_root' p hp := (List.mem_append.1 hp).elim (h.ne_root' p) (hmore.ne_root' p)
  sameEntries ht ht' hsame := by
    rw [List.foldl_append, List.foldl_append]
    exact hmore.sameEntries (ht.places h.ne_root) (ht'.places h.ne_root')
      (h.sameEntries ht ht' hsame)

/-- A placement may pass others that lie apart from it. -/
theorem pass {p : Placement} (hp : p.component.kind ≠ .root)
    (hpls : ∀ q ∈ pls, q.component.kind ≠ .root) (hapart : ∀ q ∈ pls, p.Apart q) :
    Interchangeable (p :: pls) (pls ++ [p]) := by
  induction pls with
  | nil => exact refl fun q hq => List.mem_singleton.1 hq ▸ hp
  | cons q pls ih =>
    have hq := hpls q List.mem_cons_self
    have hfirst : Interchangeable [p, q] [q, p] := by
      have hne : ∀ r ∈ [p, q], r.component.kind ≠ .root := by simp [hp, hq]
      have hne' : ∀ r ∈ [q, p], r.component.kind ≠ .root := by simp [hp, hq]
      refine ⟨hne, hne', fun ht ht' hsame => ?_⟩
      exact (ht.place_comm hp hq (hapart q List.mem_cons_self)).trans
        ((refl hne').sameEntries ht ht' hsame)
    have hrest := ih (fun r hr => hpls r (List.mem_cons_of_mem q hr))
      fun r hr => hapart r (List.mem_cons_of_mem q hr)
    have hself : Interchangeable [q] [q] := refl fun r hr => List.mem_singleton.1 hr ▸ hq
    have htail : Interchangeable pls pls := refl fun r hr => hpls r (List.mem_cons_of_mem q hr)
    exact (hfirst.append htail).trans (hself.append hrest)

/-- Two lists may change places when all that is in one lies apart from all that is in the other. -/
theorem swap (hpls : ∀ p ∈ pls, p.component.kind ≠ .root)
    (hmore : ∀ q ∈ more, q.component.kind ≠ .root) (hapart : ∀ p ∈ pls, ∀ q ∈ more, p.Apart q) :
    Interchangeable (pls ++ more) (more ++ pls) := by
  induction pls with
  | nil =>
    rw [List.append_nil]
    exact refl hmore
  | cons p pls ih =>
    have hp := hpls p List.mem_cons_self
    have hrest := ih (fun r hr => hpls r (List.mem_cons_of_mem p hr))
      fun r hr => hapart r (List.mem_cons_of_mem p hr)
    have hself : Interchangeable [p] [p] := refl fun r hr => List.mem_singleton.1 hr ▸ hp
    have htail : Interchangeable pls pls := refl fun r hr => hpls r (List.mem_cons_of_mem p hr)
    rw [List.append_cons more p pls]
    exact (hself.append hrest).trans ((pass hp hmore (hapart p List.mem_cons_self)).append htail)

end Interchangeable

end SymbolTable
