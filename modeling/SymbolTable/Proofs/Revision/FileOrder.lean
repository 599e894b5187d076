import SymbolTable.Proofs.Files.PathOrder
import SymbolTable.Revision
import Mathlib.Data.List.Basic

/-!
# Revisions and the order of files

The files of a revision are sorted by path before they are read, and the sort is stable. So the
order in which they are given counts among files whose paths are on a par, and nowhere else: the
message is that of the groups of such files, one after the other, and `bytes_eq_iff_of_perm`
compares two orders group by group.
-/

namespace SymbolTable

namespace Revision

/-- The files in the order in which they are read. -/
def inPathOrder (files : List SourceFile) : List SourceFile :=
  files.mergeSort fun f g => f.path.le g.path

theorem perm_inPathOrder (files : List SourceFile) : (inPathOrder files).Perm files :=
  List.mergeSort_perm files _

/-- No file comes before one of a smaller path. -/
def Ascending (files : List SourceFile) : Prop := files.Pairwise fun f g => f.path.le g.path

instance (files : List SourceFile) : Decidable (Ascending files) :=
  inferInstanceAs (Decidable (files.Pairwise _))

theorem path_le_trans (f g k : SourceFile) (hfg : f.path.le g.path) (hgk : g.path.le k.path) :
    f.path.le k.path := Path.le_trans hfg hgk

theorem path_le_total (f g : SourceFile) : f.path.le g.path || g.path.le f.path :=
  Path.le_total f.path g.path

theorem ascending_inPathOrder (files : List SourceFile) : Ascending (inPathOrder files) :=
  List.pairwise_mergeSort path_le_trans path_le_total files

theorem Ascending.inPathOrder_eq {files : List SourceFile} (h : Ascending files) :
    inPathOrder files = files :=
  List.mergeSort_of_pairwise h

/-! ## Groups of files -/

/-- The files whose paths have the steps, in the given order. -/
def filesAt (steps : List Path.Step) (files : List SourceFile) : List SourceFile :=
  files.filter fun f => f.path.steps = steps

def filesApart (steps : List Path.Step) (files : List SourceFile) : List SourceFile :=
  files.filter fun f => f.path.steps ≠ steps

theorem filesAt_filesApart (steps steps' : List Path.Step) (files : List SourceFile) :
    filesAt steps (filesApart steps' files) = if steps = steps' then [] else filesAt steps files := by
  unfold filesAt filesApart
  rw [List.filter_filter]
  split
  · next h =>
    subst h
    exact List.filter_eq_nil_iff.2 fun f _ => by simp
  · next h =>
    refine List.filter_congr fun f _ => ?_
    by_cases hf : f.path.steps = steps <;> simp [hf, h]

/-- Sorting is stable: files on a par keep their order. -/
theorem filesAt_inPathOrder (steps : List Path.Step) (files : List SourceFile) :
    filesAt steps (inPathOrder files) = filesAt steps files := by
  have hpar : Ascending (filesAt steps files) := by
    refine List.pairwise_of_forall_mem_list fun f hf g hg => ?_
    have hfsteps : f.path.steps = steps := by simpa using (List.mem_filter.1 hf).2
    have hgsteps : g.path.steps = steps := by simpa using (List.mem_filter.1 hg).2
    exact Path.le_of_steps_eq (hfsteps.trans hgsteps.symm)
  have hsub : (filesAt steps files).Sublist (inPathOrder files) :=
    List.sublist_mergeSort path_le_trans path_le_total hpar List.filter_sublist
  have hself : filesAt steps (filesAt steps files) = filesAt steps files := by
    simp [filesAt, List.filter_filter]
  have hgroup : (filesAt steps files).Sublist (filesAt steps (inPathOrder files)) :=
    hself ▸ hsub.filter _
  exact (hgroup.eq_of_length ((perm_inPathOrder files).filter _).length_eq.symm).symm

/-- In path order the files with the least path come first. -/
theorem Ascending.eq_filesAt_append {files : List SourceFile} (h : Ascending files) {f : SourceFile}
    (hleast : ∀ g ∈ files, f.path.le g.path) :
    files = filesAt f.path.steps files ++ filesApart f.path.steps files := by
  induction files with
  | nil => rfl
  | cons g files ih =>
    obtain ⟨hg, hfiles⟩ := List.pairwise_cons.1 h
    rw [List.forall_mem_cons] at hleast
    by_cases hpar : g.path.steps = f.path.steps
    · have hrest := ih hfiles hleast.2
      unfold filesAt filesApart at hrest ⊢
      rw [List.filter_cons_of_pos (by simpa using hpar), List.filter_cons_of_neg (by simpa using hpar),
        List.cons_append, ← hrest]
    · -- A later file on a par with `f` would put `g` on a par with it too.
      have hlater : ∀ k ∈ g :: files, k.path.steps ≠ f.path.steps := by
        intro k hk hkpar
        rcases List.mem_cons.1 hk with rfl | hk
        · exact hpar hkpar
        · have hgf := Path.le_trans (hg k hk) (Path.le_of_steps_eq hkpar)
          exact hpar (Path.steps_eq_of_le hgf hleast.1)
      have hnone : filesAt f.path.steps (g :: files) = [] :=
        List.filter_eq_nil_iff.2 fun k hk => by simpa using hlater k hk
      have hall : filesApart f.path.steps (g :: files) = g :: files :=
        List.filter_eq_self.2 fun k hk => by simpa using hlater k hk
      rw [hnone, hall, List.nil_append]

/-! ## Messages, group by group -/

theorem bytes_eq (files : List SourceFile) : bytes files = (inPathOrder files).flatMap fileBytes :=
  rfl

/-- Files with the least path come first, and what the others give begins at the same place in any
order of the files. -/
theorem Ascending.flatMap_eq_iff_and {fs gs : List SourceFile} (hfs : Ascending fs)
    (hgs : Ascending gs) (h : fs.Perm gs) {f : SourceFile} (hleast : ∀ g ∈ fs, f.path.le g.path) :
    fs.flatMap fileBytes = gs.flatMap fileBytes ↔
      (filesAt f.path.steps fs).flatMap fileBytes = (filesAt f.path.steps gs).flatMap fileBytes ∧
      (filesApart f.path.steps fs).flatMap fileBytes =
        (filesApart f.path.steps gs).flatMap fileBytes := by
  have hfirst := hfs.eq_filesAt_append hleast
  have hfirst' := hgs.eq_filesAt_append fun g hg => hleast g (h.mem_iff.2 hg)
  have hgroup : (filesAt f.path.steps fs).Perm (filesAt f.path.steps gs) := h.filter _
  have hlength := (hgroup.flatMap_right fileBytes).length_eq
  have hsplit := congrArg (List.flatMap fileBytes) hfirst
  have hsplit' := congrArg (List.flatMap fileBytes) hfirst'
  rw [List.flatMap_append] at hsplit hsplit'
  rw [hsplit, hsplit']
  exact ⟨fun heq => List.append_inj heq hlength, fun ⟨hat, hapart⟩ => by rw [hat, hapart]⟩

/-- Two ascending lists of the same files give one message just when each group does. -/
theorem Ascending.flatMap_eq_iff {fs gs : List SourceFile} (hfs : Ascending fs) (hgs : Ascending gs)
    (h : fs.Perm gs) :
    fs.flatMap fileBytes = gs.flatMap fileBytes ↔
      ∀ steps, (filesAt steps fs).flatMap fileBytes = (filesAt steps gs).flatMap fileBytes := by
  -- The induction takes off the files with the least path, all at once.
  induction hn : fs.length using Nat.strongRecOn generalizing fs gs with
  | ind n ih =>
    cases fs with
    | nil =>
      rw [List.nil_perm.1 h]
      simp
    | cons f rest =>
      have hleast : ∀ g ∈ f :: rest, f.path.le g.path :=
        List.forall_mem_cons.2 ⟨Path.le_of_steps_eq rfl, (List.pairwise_cons.1 hfs).1⟩
      have hshorter : (filesApart f.path.steps (f :: rest)).length < n := by
        rw [← hn]
        exact List.length_filter_lt_length_iff_exists.2 ⟨f, List.mem_cons_self, by simp⟩
      have hothers : (filesApart f.path.steps (f :: rest)).flatMap fileBytes =
          (filesApart f.path.steps gs).flatMap fileBytes ↔
            ∀ steps, (filesAt steps (filesApart f.path.steps (f :: rest))).flatMap fileBytes =
              (filesAt steps (filesApart f.path.steps gs)).flatMap fileBytes :=
        ih _ hshorter (hfs.filter _) (hgs.filter _) (h.filter _) rfl
      rw [hfs.flatMap_eq_iff_and hgs h hleast, hothers]
      constructor
      · rintro ⟨hat, hapart⟩ steps
        by_cases hsteps : steps = f.path.steps
        · rw [hsteps, hat]
        · have hgroup := hapart steps
          rwa [filesAt_filesApart, filesAt_filesApart, if_neg hsteps, if_neg hsteps] at hgroup
      · intro hall
        refine ⟨hall _, fun steps => ?_⟩
        rw [filesAt_filesApart, filesAt_filesApart]
        split
        · rfl
        · exact hall steps

theorem eq_of_perm_of_forall_eq {α : Type} {as bs : List α} (h : as.Perm bs)
    (hone : ∀ a ∈ as, ∀ b ∈ as, a = b) : as = bs := by
  cases as with
  | nil => exact (List.nil_perm.1 h).symm
  | cons a as =>
    have hsame : a :: as = List.replicate (a :: as).length a :=
      List.eq_replicate_of_mem fun b hb => hone b hb a List.mem_cons_self
    rw [hsame] at h ⊢
    exact List.replicate_perm.1 h

/-- A change of the order of files changes the message just when, for some path, the files with that
path then give other bytes. Where files whose paths are on a par are one file, the message and the
id do not depend on the order. -/
theorem bytes_eq_iff_of_perm {fs gs : List SourceFile} (h : fs.Perm gs) :
    (bytes fs = bytes gs ↔
      ∀ steps, (filesAt steps fs).flatMap fileBytes = (filesAt steps gs).flatMap fileBytes) ∧
    ((∀ f ∈ fs, ∀ g ∈ fs, f.path.steps = g.path.steps → f = g) →
      bytes fs = bytes gs ∧ id fs = id gs) := by
  have hperm : (inPathOrder fs).Perm (inPathOrder gs) :=
    calc (inPathOrder fs).Perm fs := perm_inPathOrder fs
      List.Perm _ gs := h
      List.Perm _ (inPathOrder gs) := (perm_inPathOrder gs).symm
  have hgroups : bytes fs = bytes gs ↔
      ∀ steps, (filesAt steps fs).flatMap fileBytes = (filesAt steps gs).flatMap fileBytes := by
    rw [bytes_eq, bytes_eq,
      (ascending_inPathOrder fs).flatMap_eq_iff (ascending_inPathOrder gs) hperm]
    simp only [filesAt_inPathOrder]
  refine ⟨hgroups, fun hone => ?_⟩
  have hbytes : bytes fs = bytes gs := by
    refine hgroups.2 fun steps => congrArg _ (eq_of_perm_of_forall_eq (h.filter _) ?_)
    intro f hf g hg
    obtain ⟨hf, hfsteps⟩ := List.mem_filter.1 hf
    obtain ⟨hg, hgsteps⟩ := List.mem_filter.1 hg
    exact hone f hf g hg ((of_decide_eq_true hfsteps).trans (of_decide_eq_true hgsteps).symm)
  exact ⟨hbytes, congrArg Blake3.hex hbytes⟩

/-- Two files in two orders. -/
theorem bytes_eq_iff_of_perm_twoFiles :
    let a : SourceFile := ⟨⟨"src/A.java"⟩, "class A { }"⟩
    let b : SourceFile := ⟨⟨"src/B.java"⟩, "class B { }"⟩
    [b, a].Perm [a, b] ∧ bytes [b, a] = bytes [a, b] ∧ id [b, a] = id [a, b] := by
  intro a b
  have hperm : [b, a].Perm [a, b] := List.Perm.swap a b []
  have hone : ∀ f ∈ [b, a], ∀ g ∈ [b, a], f.path.steps = g.path.steps → f = g := by decide
  exact ⟨hperm, (bytes_eq_iff_of_perm hperm).2 hone⟩

/-- Two spellings of one path are on a par, but it is the spelling that is hashed, so the order in
which they are given shows in the message. -/
theorem spellings_in_two_orders :
    let a : SourceFile := ⟨⟨"src/A.java"⟩, "class A { }"⟩
    let b : SourceFile := ⟨⟨"src//A.java"⟩, "class A { }"⟩
    [b, a].Perm [a, b] ∧ bytes [b, a] ≠ bytes [a, b] := by
  intro a b
  have hab : Ascending [a, b] := by decide
  have hba : Ascending [b, a] := by decide
  refine ⟨List.Perm.swap a b [], ?_⟩
  rw [bytes_eq, bytes_eq, hab.inPathOrder_eq, hba.inPathOrder_eq]
  decide

end Revision

end SymbolTable
