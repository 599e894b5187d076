import SymbolTable.Files.Entry

/-!
# The sources in a directory tree

The walk that collects the files of interest at and below an entry, breadth first. Links are never
followed, nothing below an excluded directory is looked at, and no path is visited twice. The files
come in path order, whatever order the directories list their entries in.
-/

namespace SymbolTable

/-- Which files a walk keeps and which paths it stays away from. -/
structure Selection where
  excludes : Path → Bool
  accepts : Path → Bool

/-- The state of a walk: the paths that wait, each with what it leads to, the steps of the paths
that were visited, and the files that were kept. -/
structure SourceWalk (α : Type) where
  pending : List (Path × Entry α)
  seen : List (List Path.Step) := []
  found : List Path := []

namespace SourceWalk

variable {α : Type}

/-- The paths of the entries that a directory at `p` lists. -/
def listing (p : Path) (entries : List (String × Entry α)) : List (Path × Entry α) :=
  entries.map fun (name, e) => (p.join ⟨name⟩, e)

/-- Visits the path `p`, which has been taken off the paths that wait. -/
def visit (s : Selection) (w : SourceWalk α) (p : Path) (e : Entry α) : SourceWalk α :=
  if p.steps ∈ w.seen then w
  else
    let w := { w with seen := p.steps :: w.seen }
    if s.excludes p then w
    else
      match e with
      | .link _ => w
      | .file _ => if s.accepts p then { w with found := p :: w.found } else w
      | .directory entries => { w with pending := w.pending ++ listing p entries }

/-- All that a visit can do: nothing about a path that was seen before, and else pass over what it
leads to, keep it, or put what it lists in line. -/
theorem visit_cases (s : Selection) (w : SourceWalk α) (p : Path) (e : Entry α) :
    (p.steps ∈ w.seen ∧ w.visit s p e = w) ∨
    (p.steps ∉ w.seen ∧ (s.excludes p = true ∨ (∃ target, e = .link target) ∨
        s.accepts p = false ∧ ∃ content, e = .file content) ∧
      w.visit s p e = { w with seen := p.steps :: w.seen }) ∨
    (p.steps ∉ w.seen ∧ s.excludes p = false ∧ s.accepts p = true ∧ (∃ content, e = .file content) ∧
      w.visit s p e = { w with seen := p.steps :: w.seen, found := p :: w.found }) ∨
    (p.steps ∉ w.seen ∧ s.excludes p = false ∧ ∃ entries, e = .directory entries ∧
      w.visit s p e =
        { w with seen := p.steps :: w.seen, pending := w.pending ++ listing p entries }) := by
  by_cases hseen : p.steps ∈ w.seen
  · exact .inl ⟨hseen, if_pos hseen⟩
  rw [visit, if_neg hseen]
  right
  cases hexcluded : s.excludes p with
  | true => exact .inl ⟨hseen, .inl rfl, rfl⟩
  | false =>
    cases e with
    | link target => exact .inl ⟨hseen, .inr (.inl ⟨target, rfl⟩), rfl⟩
    | directory entries => exact .inr (.inr ⟨hseen, rfl, entries, rfl, rfl⟩)
    | file content =>
      cases haccepts : s.accepts p with
      | true => exact .inr (.inl ⟨hseen, rfl, rfl, ⟨content, rfl⟩, rfl⟩)
      | false => exact .inl ⟨hseen, .inr (.inr ⟨rfl, content, rfl⟩), rfl⟩

/-- The number of entries at and below the paths that wait. -/
def ahead : List (Path × Entry α) → Nat
  | [] => 0
  | (_, e) :: rest => e.size + ahead rest

theorem ahead_cons (p : Path) (e : Entry α) (rest : List (Path × Entry α)) :
    ahead ((p, e) :: rest) = e.size + ahead rest := rfl

theorem ahead_append (front back : List (Path × Entry α)) :
    ahead (front ++ back) = ahead front + ahead back := by
  induction front with
  | nil => simp [ahead]
  | cons e rest ih => simp [ahead, ih, Nat.add_assoc]

theorem ahead_listing (p : Path) (entries : List (String × Entry α)) :
    ahead (listing p entries) = Entry.sizes entries := by
  induction entries with
  | nil => rfl
  | cons entry entries ih => exact congrArg (entry.2.size + ·) ih

/-- What a directory lists is less than the directory itself. -/
theorem ahead_visit_lt (s : Selection) (w : SourceWalk α) (p : Path) (e : Entry α) :
    ahead (w.visit s p e).pending < ahead ((p, e) :: w.pending) := by
  have hrest : ahead w.pending < e.size + ahead w.pending := Nat.lt_add_of_pos_left e.size_pos
  rw [ahead_cons]
  rcases visit_cases s w p e with ⟨-, hvisit⟩ | ⟨-, -, hvisit⟩ | ⟨-, -, -, -, hvisit⟩ |
    ⟨-, -, entries, rfl, hvisit⟩
  · rwa [hvisit]
  · rwa [hvisit]
  · rwa [hvisit]
  · rw [hvisit, ahead_append, ahead_listing, Entry.size]
    omega

/-- Visits the path that has waited longest. -/
def step (s : Selection) (w : SourceWalk α) : SourceWalk α :=
  match w.pending with
  | [] => w
  | (p, e) :: rest => { w with pending := rest }.visit s p e

theorem ahead_step_lt (s : Selection) {w : SourceWalk α} (h : w.pending ≠ []) :
    ahead (w.step s).pending < ahead w.pending := by
  obtain ⟨⟨p, e⟩, rest, hw⟩ := List.exists_cons_of_ne_nil h
  rw [step, hw]
  exact ahead_visit_lt s { w with pending := rest } p e

/-- Visits paths until none waits. -/
def run (s : Selection) (w : SourceWalk α) : SourceWalk α :=
  if w.pending = [] then w else run s (w.step s)
termination_by ahead w.pending
decreasing_by
  exact ahead_step_lt s ‹_›

end SourceWalk

/-- The files kept at and below an entry that stands at `root`, in path order. -/
def Entry.sources {α : Type} (s : Selection) (root : Path) (e : Entry α) : List Path :=
  ((SourceWalk.mk [(root, e)] [] []).run s).found.mergeSort Path.le

end SymbolTable
