import Mathlib.Logic.Function.Iterate
import SymbolTable.Proofs.Files.PathOrder
import SymbolTable.Proofs.Files.Sources

/-!
# The walk finds the sources

A walk visits every entry at and below its root that neither an exclusion nor a link cuts off, and
it keeps the accepted files among them. In a proper directory tree no two entries have the same
path, so nothing is lost to the paths that were seen already; and since what is found is sorted, the
order in which the directories list their entries does not show.
-/

namespace SymbolTable

namespace SourceWalk

open Entry

variable {α : Type} {s : Selection} {w : SourceWalk α} {p : Path} {e : Entry α}

/-! ## Nothing that waits was seen -/

/-- Neither path is at or above the other. -/
def Apart (p q : Path) : Prop := ¬ p.steps <+: q.steps ∧ ¬ q.steps <+: p.steps

/-- The paths that wait are apart and none is at or above one that was visited; what they lead to is
proper. -/
structure Fresh (pending : List (Path × Entry α)) (seen : List (List Path.Step)) : Prop where
  proper : ∀ x ∈ pending, x.2.Proper
  apart : pending.Pairwise fun x y => Apart x.1 y.1
  unseen : ∀ x ∈ pending, ∀ t ∈ seen, ¬ x.1.steps <+: t

theorem fresh_start (he : e.Proper) : Fresh [(p, e)] [] := by
  refine ⟨by simpa using he, List.pairwise_singleton _ _, by simp⟩

variable {rest : List (Path × Entry α)} {seen : List (List Path.Step)}

/-- The first path has been visited. -/
theorem Fresh.tail (h : Fresh ((p, e) :: rest) seen) : Fresh rest (p.steps :: seen) := by
  obtain ⟨hproper, hapart, hunseen⟩ := h
  rw [List.pairwise_cons] at hapart
  refine ⟨fun x hx => hproper x (List.mem_cons_of_mem _ hx), hapart.2, fun x hx => ?_⟩
  rw [List.forall_mem_cons]
  exact ⟨(hapart.1 x hx).2, hunseen x (List.mem_cons_of_mem _ hx)⟩

section
variable {q : Path} {name other : String}

theorem prefix_join (hn : Path.IsName name) : p.steps <+: (p.join ⟨name⟩).steps := by
  rw [Path.steps_join hn]
  exact List.prefix_append _ _

theorem not_join_prefix (hn : Path.IsName name) : ¬ (p.join ⟨name⟩).steps <+: p.steps := by
  rw [Path.steps_join hn]
  intro hprefix
  have hlength := hprefix.length_le
  rw [List.length_append, List.length_singleton] at hlength
  omega

theorem Apart.join (h : Apart q p) (hn : Path.IsName name) : Apart q (p.join ⟨name⟩) := by
  refine ⟨fun hq => ?_, fun hjoin => h.2 ((prefix_join hn).trans hjoin)⟩
  rw [Path.steps_join hn, List.prefix_concat_iff] at hq
  rcases hq with hq | hq
  · exact h.2 (hq ▸ List.prefix_append _ _)
  · exact h.1 hq

theorem not_join_prefix_join (hn : Path.IsName name) (ho : Path.IsName other) (hne : name ≠ other) :
    ¬ (p.join ⟨name⟩).steps <+: (p.join ⟨other⟩).steps := by
  intro hprefix
  rw [Path.steps_join ho, List.prefix_concat_iff] at hprefix
  rcases hprefix with heq | hprefix
  · rw [Path.steps_join hn] at heq
    exact hne (by simpa using heq)
  · exact not_join_prefix hn hprefix

end

/-- The paths that a directory lists extend its own, each by another name. -/
theorem Fresh.append_listing {entries : List (String × Entry α)}
    (h : Fresh ((p, .directory entries) :: rest) seen) :
    Fresh (rest ++ listing p entries) (p.steps :: seen) := by
  obtain ⟨hproper, hapart, hunseen⟩ := h.tail
  have hrest := (List.pairwise_cons.1 h.apart).1
  cases h.proper _ (List.mem_cons_self ..) with
  | directory names distinct below =>
    refine ⟨List.forall_mem_append.2 ⟨hproper, ?_⟩, List.pairwise_append.2 ⟨hapart, ?_, ?_⟩,
      List.forall_mem_append.2 ⟨hunseen, ?_⟩⟩
    · exact List.forall_mem_map.2 below
    · refine List.pairwise_map.2 ((List.pairwise_map.1 distinct).imp_of_mem ?_)
      intro x y hx hy hne
      exact ⟨not_join_prefix_join (names x hx) (names y hy) hne,
        not_join_prefix_join (names y hy) (names x hx) hne.symm⟩
    · intro x hx
      exact List.forall_mem_map.2 fun y hy =>
        Apart.join ⟨(hrest x hx).2, (hrest x hx).1⟩ (names y hy)
    · refine List.forall_mem_map.2 fun y hy => List.forall_mem_cons.2 ⟨?_, fun t ht hprefix => ?_⟩
      · exact not_join_prefix (names y hy)
      · exact h.unseen _ (List.mem_cons_self ..) t ht ((prefix_join (names y hy)).trans hprefix)

/-- What a walk will have found: what it found, and what is at and below the paths that wait. -/
def expected (s : Selection) (w : SourceWalk α) : List Path :=
  w.found ++ w.pending.flatMap fun x => x.2.sourcesAt s x.1

theorem flatMap_listing (entries : List (String × Entry α)) :
    (listing p entries).flatMap (fun x => x.2.sourcesAt s x.1) = sourcesIn s p entries := by
  rw [sourcesIn_eq, listing, List.flatMap_map]

theorem Fresh.visit (h : Fresh ((p, e) :: w.pending) w.seen) :
    Fresh (w.visit s p e).pending (w.visit s p e).seen ∧
      (expected s (w.visit s p e)).Perm (w.found ++ (e.sourcesAt s p ++
        w.pending.flatMap fun x => x.2.sourcesAt s x.1)) := by
  rcases visit_cases s w p e with ⟨hseen, -⟩ | ⟨-, hpassed, hvisit⟩ |
    ⟨-, hkept, haccepted, ⟨content, rfl⟩, hvisit⟩ | ⟨-, hkept, entries, rfl, hvisit⟩
  · exact absurd (List.prefix_refl _) (h.unseen _ List.mem_cons_self _ hseen)
  · rw [hvisit, sourcesAt_of_passed hpassed]
    exact ⟨h.tail, .refl _⟩
  · have hfile : (Entry.file content).sourcesAt s p = [p] := by
      simp [sourcesAt, hkept, haccepted]
    rw [hvisit, hfile]
    exact ⟨h.tail, List.perm_middle.symm⟩
  · rw [hvisit, expected, List.flatMap_append, flatMap_listing, sourcesAt, hkept]
    exact ⟨h.append_listing, List.perm_append_comm.append_left _⟩

theorem Fresh.step (h : Fresh w.pending w.seen) :
    Fresh (w.step s).pending (w.step s).seen ∧ (expected s (w.step s)).Perm (expected s w) := by
  rw [SourceWalk.step]
  split
  · exact ⟨h, .refl _⟩
  · next p e rest hpending =>
    rw [hpending] at h
    have hvisit := Fresh.visit (s := s) (w := { w with pending := rest }) h
    refine ⟨hvisit.1, hvisit.2.trans ?_⟩
    rw [expected, hpending]
    exact .refl _

/-- A walk finds what it is expected to find. -/
theorem Fresh.perm_run (h : Fresh w.pending w.seen) :
    ((w.run s).found).Perm (expected s w) := by
  fun_induction run s w with
  | case1 w hnone => simp [expected, hnone]
  | case2 w hsome ih => exact (ih h.step.1).trans h.step.2

/-! ## Nothing is found twice -/

/-- What was found was visited, and no path of it twice. -/
structure Recorded (w : SourceWalk α) : Prop where
  distinct : (w.found.map Path.steps).Nodup
  visited : ∀ q ∈ w.found, q.steps ∈ w.seen

theorem Recorded.visit (h : Recorded w) : Recorded (w.visit s p e) := by
  have hvisited : ∀ q ∈ w.found, q.steps ∈ p.steps :: w.seen := fun q hq =>
    List.mem_cons_of_mem _ (h.visited q hq)
  rcases visit_cases s w p e with ⟨-, hvisit⟩ | ⟨-, -, hvisit⟩ | ⟨hunseen, -, -, -, hvisit⟩ |
    ⟨-, -, entries, -, hvisit⟩
  · rwa [hvisit]
  · rw [hvisit]
    exact ⟨h.distinct, hvisited⟩
  · rw [hvisit]
    refine ⟨?_, List.forall_mem_cons.2 ⟨List.mem_cons_self, hvisited⟩⟩
    -- The paths found before were visited before, and this one was not.
    refine List.nodup_cons.2 ⟨fun hmem => ?_, h.distinct⟩
    obtain ⟨q, hq, hsteps⟩ := List.mem_map.1 hmem
    exact hunseen (hsteps ▸ h.visited q hq)
  · rw [hvisit]
    exact ⟨h.distinct, hvisited⟩

theorem Recorded.step (h : Recorded w) : Recorded (w.step s) := by
  rw [SourceWalk.step]
  split
  · exact h
  · exact Recorded.visit ⟨h.distinct, h.visited⟩

theorem Recorded.run (h : Recorded w) : Recorded (w.run s) := by
  fun_induction SourceWalk.run s w with
  | case1 w hnone => exact h
  | case2 w hsome ih => exact ih h.step

/-! ## The walk ends -/

/-- A walk is a number of single visits, at most one for each entry at and below what waits. -/
theorem exists_iterate_step (s : Selection) (w : SourceWalk α) :
    ∃ n ≤ ahead w.pending, (SourceWalk.step s)^[n] w = w.run s ∧ (w.run s).pending = [] := by
  fun_induction SourceWalk.run s w with
  | case1 w hnone => exact ⟨0, Nat.zero_le _, rfl, hnone⟩
  | case2 w hsome ih =>
    obtain ⟨n, hn, hrun, hnone⟩ := ih
    exact ⟨n + 1, Nat.lt_of_le_of_lt hn (ahead_step_lt s hsome), hrun, hnone⟩

end SourceWalk

/-! ## The result -/

namespace Entry

open SourceWalk

variable {α : Type} {s : Selection} {root : Path} {e e' : Entry α}

theorem nodup_steps_sources : ((e.sources s root).map Path.steps).Nodup := by
  have hrecorded : Recorded (SourceWalk.mk [(root, e)] [] []) := ⟨List.nodup_nil, nofun⟩
  exact ((List.mergeSort_perm _ _).map _).nodup_iff.2 hrecorded.run.distinct

theorem perm_sources (he : e.Proper) : (e.sources s root).Perm (e.sourcesAt s root) := by
  refine (List.mergeSort_perm _ _).trans ((fresh_start he).perm_run.trans ?_)
  simp [expected]

theorem pairwise_sources : (e.sources s root).Pairwise fun p q => p.le q = true := by
  have htrans : ∀ a b c : Path, a.le b = true → b.le c = true → a.le c = true :=
    fun _ _ _ => Path.le_trans
  exact List.pairwise_mergeSort htrans Path.le_total _

/-- The sources ascend strictly: two paths on a par would have the same steps. -/
theorem ascending_sources :
    (e.sources s root).Pairwise fun p q => p.le q = true ∧ q.le p = false := by
  refine (pairwise_sources.and (List.pairwise_map.1 nodup_steps_sources)).imp ?_
  rintro p q ⟨hle, hne⟩
  exact ⟨hle, Bool.eq_false_iff.2 fun hge => hne (Path.steps_eq_of_le hle hge)⟩

theorem sources_eq_of_relisted (h : e.Relisted e') (he : e.Proper) :
    e'.sources s root = e.sources s root := by
  have hperm : (e'.sources s root).Perm (e.sources s root) :=
    calc (e'.sources s root).Perm (e'.sourcesAt s root) := perm_sources (h.proper he)
      List.Perm _ (e.sourcesAt s root) := (h.perm_sourcesAt root).symm
      List.Perm _ (e.sources s root) := (perm_sources he).symm
  refine hperm.eq_of_pairwise (fun p q hp hq hpq hqp => ?_) pairwise_sources pairwise_sources
  exact List.inj_on_of_nodup_map nodup_steps_sources (hperm.mem_iff.1 hp) hq
    (Path.steps_eq_of_le hpq hqp)

/-- The walk over a proper tree ends within as many visits as there are entries. It yields the
sources of the tree, strictly ascending and so without repetition, in whatever order the directories
list their entries. -/
theorem sources_exact (s : Selection) (root : Path) (he : e.Proper) :
    (∃ n ≤ e.size, ∃ w : SourceWalk α, (SourceWalk.step s)^[n] ⟨[(root, e)], [], []⟩ = w ∧
      w.pending = [] ∧ e.sources s root = w.found.mergeSort Path.le) ∧
    (e.sources s root).Pairwise (fun p q => p.le q = true ∧ q.le p = false) ∧
    (∀ p, p ∈ e.sources s root ↔ IsSource s root e p) ∧
    ∀ e', e.Relisted e' → e'.sources s root = e.sources s root := by
  refine ⟨?_, ascending_sources, fun p => ?_, fun e' h => sources_eq_of_relisted h he⟩
  · obtain ⟨n, hn, hrun, hnone⟩ := exists_iterate_step s (SourceWalk.mk [(root, e)] [] [])
    exact ⟨n, by simpa [ahead] using hn, _, hrun, hnone, rfl⟩
  · rw [(perm_sources he).mem_iff, mem_sourcesAt_iff e he]

/-- A link back to the root and an excluded directory beside two sources. -/
def checkout : Entry Unit :=
  directory
    [("src", directory [("B.java", file ()), ("up", link ⟨"/r"⟩), ("A.java", file ())]),
      ("gen", directory [("G.java", file ())])]

theorem proper_checkout : checkout.Proper := by
  refine .directory (by decide +kernel) (by decide +kernel) ?_
  simp only [List.forall_mem_cons]
  refine ⟨.directory (by decide +kernel) (by decide +kernel) ?_,
    .directory (by decide +kernel) (by decide +kernel) ?_, nofun⟩ <;>
  simp only [List.forall_mem_cons]
  · exact ⟨.file (), .link _, .file (), nofun⟩
  · exact ⟨.file (), nofun⟩

theorem sources_exact_of_checkout :
    checkout.Proper ∧
      ⟨"/r/src/A.java"⟩ ∈ checkout.sources ⟨(· == ⟨"/r/gen"⟩), Path.isJavaSource⟩ ⟨"/r"⟩ ∧
      ⟨"/r/gen/G.java"⟩ ∉ checkout.sources ⟨(· == ⟨"/r/gen"⟩), Path.isJavaSource⟩ ⟨"/r"⟩ := by
  obtain ⟨-, -, hmem, -⟩ :=
    sources_exact ⟨(· == ⟨"/r/gen"⟩), Path.isJavaSource⟩ ⟨"/r"⟩ proper_checkout
  refine ⟨proper_checkout, (hmem _).2 ?_, mt (hmem _).1 ?_⟩ <;>
  rw [← mem_sourcesAt_iff checkout proper_checkout]
  · decide +kernel
  · decide +kernel

end Entry

end SymbolTable
