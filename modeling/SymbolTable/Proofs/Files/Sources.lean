import Mathlib.Data.List.Nodup
import SymbolTable.Files.Discovery
import SymbolTable.Proofs.Files.PathSteps

/-!
# The sources of a directory tree

Which files are sources, told by the names that lead to them, and the same files listed depth first.
Whether the directories list their entries in one order or another, the sources are the same.
-/

namespace SymbolTable

namespace Entry

variable {α : Type}

/-- Trees as a file system has them: the entries of a directory have names, no two the same. -/
inductive Proper : Entry α → Prop
  | file (content : α) : Proper (.file content)
  | link (target : Path) : Proper (.link target)
  | directory {entries : List (String × Entry α)}
      (names : ∀ entry ∈ entries, Path.IsName entry.1) (distinct : (entries.map (·.1)).Nodup)
      (below : ∀ entry ∈ entries, Proper entry.2) : Proper (.directory entries)

/-- Two trees that differ at most in the order in which their directories list the entries. -/
inductive Relisted : Entry α → Entry α → Prop
  | refl (e : Entry α) : Relisted e e
  | directory {entries entries' : List (String × Entry α)} (h : entries.Perm entries') :
      Relisted (.directory entries) (.directory entries')
  | inside {front back : List (String × Entry α)} {name : String} {e e' : Entry α}
      (h : Relisted e e') :
      Relisted (.directory (front ++ (name, e) :: back)) (.directory (front ++ (name, e') :: back))
  | trans {e e' e'' : Entry α} (h : Relisted e e') (h' : Relisted e' e'') : Relisted e e''

/-- An accepted regular file at or below an entry that stands at `root`. No path on the way, from
the root to the file itself, is excluded or leads to a link. -/
def IsSource (s : Selection) (root : Path) (e : Entry α) (p : Path) : Prop :=
  ∃ (names : List String) (content : α), e.at? names = some (.file content) ∧
    p = root.below names ∧ s.accepts p = true ∧
    ∀ front, front <+: names → s.excludes (root.below front) = false ∧
      ∀ target, e.at? front ≠ some (.link target)

/-! ## The sources, depth first -/

mutual
/-- The files kept at and below an entry that stands at `p`, in the order of the listings. -/
def sourcesAt (s : Selection) (p : Path) : Entry α → List Path
  | file _ => if !s.excludes p && s.accepts p then [p] else []
  | link _ => []
  | directory entries => if s.excludes p then [] else sourcesIn s p entries

def sourcesIn (s : Selection) (p : Path) : List (String × Entry α) → List Path
  | [] => []
  | (name, e) :: rest => sourcesAt s (p.join ⟨name⟩) e ++ sourcesIn s p rest
end

variable {s : Selection} {p q : Path} {e e' : Entry α} {entries : List (String × Entry α)}

theorem sourcesIn_eq (s : Selection) (p : Path) (entries : List (String × Entry α)) :
    sourcesIn s p entries = entries.flatMap fun x => x.2.sourcesAt s (p.join ⟨x.1⟩) := by
  induction entries with
  | nil => rfl
  | cons entry entries ih => rw [sourcesIn, ih, List.flatMap_cons]

/-- Nothing is kept of what is excluded, a link, or a file that is not accepted. -/
theorem sourcesAt_of_passed (h : s.excludes p = true ∨ (∃ target, e = .link target) ∨
    s.accepts p = false ∧ ∃ content, e = .file content) : e.sourcesAt s p = [] := by
  rcases h with hexcluded | ⟨target, rfl⟩ | ⟨haccepts, content, rfl⟩
  · cases e <;> simp [sourcesAt, hexcluded]
  · rfl
  · simp [sourcesAt, haccepts]

theorem child?_eq_some_iff (hd : (entries.map (·.1)).Nodup) {name : String} :
    (directory entries).child? name = some e ↔ (name, e) ∈ entries := by
  simp only [child?, Option.map_eq_some_iff]
  constructor
  · rintro ⟨⟨first, _⟩, hfind, rfl⟩
    obtain rfl : first = name := by simpa using List.find?_some hfind
    exact List.mem_of_find?_eq_some hfind
  · intro hmem
    have hsome : (entries.find? (·.1 = name)).isSome := by
      rw [List.find?_isSome]
      exact ⟨_, hmem, by simp⟩
    obtain ⟨entry, hfind⟩ := Option.isSome_iff_exists.1 hsome
    have hname : entry.1 = name := by simpa using List.find?_some hfind
    have hentry : entry = (name, e) :=
      List.inj_on_of_nodup_map hd (List.mem_of_find?_eq_some hfind) hmem hname
    exact ⟨entry, hfind, by rw [hentry]⟩

theorem isSource_file_iff {content : α} :
    IsSource s p (.file content) q ↔ s.excludes p = false ∧ s.accepts p = true ∧ q = p := by
  constructor
  · rintro ⟨_ | ⟨name, names⟩, _, hat, rfl, haccept, hway⟩
    · exact ⟨(hway [] List.nil_prefix).1, haccept, rfl⟩
    · cases hat
  · rintro ⟨hp, haccept, rfl⟩
    refine ⟨[], content, rfl, rfl, haccept, fun front hfront => ?_⟩
    obtain rfl := List.prefix_nil.1 hfront
    exact ⟨hp, fun target h => nomatch h⟩

theorem not_isSource_link {target : Path} : ¬ IsSource s p (.link target : Entry α) q := by
  rintro ⟨names, content, hat, -, -, hway⟩
  exact (hway [] List.nil_prefix).2 target rfl

theorem isSource_directory_iff (hd : (entries.map (·.1)).Nodup) :
    IsSource s p (.directory entries) q ↔
      s.excludes p = false ∧ ∃ entry ∈ entries, IsSource s (p.join ⟨entry.1⟩) entry.2 q := by
  constructor
  · rintro ⟨_ | ⟨name, names⟩, content, hat, rfl, haccept, hway⟩
    · cases hat
    · obtain ⟨child, hchild, hat⟩ := Option.bind_eq_some_iff.1 hat
      refine ⟨(hway [] (List.nil_prefix)).1, (name, child), (child?_eq_some_iff hd).1 hchild,
        names, content, hat, rfl, haccept, fun front hfront => ?_⟩
      have hcons := hway (name :: front) (List.cons_prefix_cons.2 ⟨rfl, hfront⟩)
      rwa [at?, hchild] at hcons
  · rintro ⟨hp, ⟨name, child⟩, hmem, names, content, hat, rfl, haccept, hway⟩
    have hchild := (child?_eq_some_iff hd).2 hmem
    refine ⟨name :: names, content, by rw [at?, hchild]; exact hat, rfl, haccept, ?_⟩
    rintro (_ | ⟨first, front⟩) hfront
    · exact ⟨hp, fun target h => nomatch h⟩
    · obtain ⟨rfl, hprefix⟩ := List.cons_prefix_cons.1 hfront
      rw [at?, hchild]
      exact hway front hprefix

mutual
theorem mem_sourcesAt_iff {s : Selection} {p q : Path} :
    (e : Entry α) → e.Proper → (q ∈ e.sourcesAt s p ↔ IsSource s p e q)
  | .file content, _ => by
    rw [isSource_file_iff, sourcesAt]
    cases s.excludes p <;> cases s.accepts p <;> simp
  | .link target, _ => by simpa [sourcesAt] using not_isSource_link
  | .directory entries, .directory _ distinct below => by
    rw [isSource_directory_iff distinct, ← mem_sourcesIn_iff entries below, sourcesAt]
    cases s.excludes p <;> simp

theorem mem_sourcesIn_iff {s : Selection} {p q : Path} :
    (entries : List (String × Entry α)) → (∀ entry ∈ entries, entry.2.Proper) →
      (q ∈ sourcesIn s p entries ↔ ∃ entry ∈ entries, IsSource s (p.join ⟨entry.1⟩) entry.2 q)
  | [], _ => by simp [sourcesIn]
  | (name, e) :: rest, h => by
    rw [List.forall_mem_cons] at h
    rw [sourcesIn, List.mem_append, mem_sourcesAt_iff e h.1, mem_sourcesIn_iff rest h.2]
    simp
end

/-! ## The order of the listings -/

theorem Relisted.perm_sourcesAt (h : e.Relisted e') (p : Path) :
    (e.sourcesAt s p).Perm (e'.sourcesAt s p) := by
  induction h generalizing p with
  | refl e => exact .refl _
  | @directory entries entries' hperm =>
    simp only [sourcesAt, sourcesIn_eq]
    split
    · exact .refl _
    · exact hperm.flatMap_right _
  | @inside front back name e e' _ ih =>
    simp only [sourcesAt, sourcesIn_eq, List.flatMap_append, List.flatMap_cons]
    split
    · exact .refl _
    · exact ((ih _).append_right _).append_left _
  | trans _ _ ih ih' => exact (ih p).trans (ih' p)

theorem Relisted.proper (h : e.Relisted e') (he : e.Proper) : e'.Proper := by
  induction h with
  | refl e => exact he
  | @directory entries entries' hperm =>
    cases he with
    | directory names distinct below =>
      exact .directory (fun x hx => names x (hperm.mem_iff.2 hx))
        ((hperm.map _).nodup_iff.1 distinct) fun x hx => below x (hperm.mem_iff.2 hx)
  | @inside front back name e e' _ ih =>
    cases he with
    | directory names distinct below =>
      rw [List.forall_mem_append, List.forall_mem_cons] at names below
      refine .directory ?_ (by simpa using distinct) ?_
      · rw [List.forall_mem_append, List.forall_mem_cons]
        exact names
      · rw [List.forall_mem_append, List.forall_mem_cons]
        exact ⟨below.1, ih below.2.1, below.2.2⟩
  | trans _ _ ih ih' => exact ih' (ih he)

end Entry

end SymbolTable
