import SymbolTable.Proofs.Tree.Entry
import SymbolTable.Proofs.Tree.Height
import SymbolTable.Tree.Copy
import Mathlib.Data.List.Basic

/-!
# Merging as a sequence of growing steps

Both ways of merging a child, descending into an equal sibling and copying the whole subtree, are
the same sequence of steps: put the child, then its children below it. `graft` is that sequence, and
merging is one union of attributes followed by it.

* `graftWithin_keeps`: what one step keeps a whole graft keeps;
* `mergeAt_eq`: merging and copying are grafts;
* `entryFrom_mergeAt`: merging joins entries path by path.
-/

namespace SymbolTable

namespace Tree

/-- Puts the nodes below `id` in `source` below `target`. -/
def graftWithin (source : Tree) : Nat → Tree → NodeId → NodeId → Tree
  | 0, t, _, _ => t
  | fuel + 1, t, target, id =>
    (source.children id).foldl
      (fun acc c =>
        source.graftWithin fuel (acc.put target (source.node c)).2
          (acc.put target (source.node c)).1 c)
      t

theorem Grown.kind_of_mem_children {t : Tree} (h : t.Grown) {id c : NodeId}
    (hc : c ∈ t.children id) : (t.node c).kind ≠ .root :=
  h.kind_ne_root (Nat.lt_of_le_of_lt (Nat.zero_le id) (h.lt_child hc)) (h.child_lt hc)

theorem Grown.put_fst_lt {t : Tree} (h : t.Grown) (parent : NodeId) (c : Component) :
    (t.put parent c).1 < (t.put parent c).2.size := h.linked.put_fst_lt parent c

/-! ## What every step of a graft keeps -/

/-- Fuel beyond the height of the subtree makes no difference. -/
theorem graftWithin_fuel {source : Tree} {fuel fuel' : Nat} {t : Tree} {target id : NodeId}
    (hf : source.Shallow fuel id) (hf' : source.Shallow fuel' id) :
    source.graftWithin fuel t target id = source.graftWithin fuel' t target id := by
  induction fuel generalizing fuel' t target id with
  | zero =>
    cases fuel' with
    | zero => rfl
    | succ fuel' => rw [graftWithin, graftWithin, show source.children id = [] from hf]; rfl
  | succ fuel ih =>
    cases fuel' with
    | zero =>
      rw [graftWithin, graftWithin, show source.children id = [] from hf']
      rfl
    | succ fuel' =>
      rw [graftWithin, graftWithin]
      apply List.foldl_ext
      intro acc c hc
      exact ih (hf c hc) (hf' c hc)

/-- A graft only puts nodes of the source at `top` or below it, so it keeps what every such step
keeps. -/
theorem graftWithin_keeps (source : Tree) (top : NodeId) {P : Tree → Prop}
    (hput : ∀ {t : Tree} {path : List Symbol} {parent id c : NodeId}, t.Linked → top < t.size →
      P t → t.follow top path = some parent → c ∈ source.children id →
        P (t.put parent (source.node c)).2)
    (fuel : Nat) (id : NodeId) {t : Tree} {path : List Symbol} {target : NodeId} (h : t.Linked)
    (htop : top < t.size) (hP : P t) (hp : t.follow top path = some target) :
    P (source.graftWithin fuel t target id) ∧ (source.graftWithin fuel t target id).Linked ∧
      t.Extends (source.graftWithin fuel t target id) := by
  induction fuel generalizing t target path id with
  | zero => exact ⟨hP, h, Extends.refl t⟩
  | succ fuel ih =>
    rw [graftWithin]
    apply List.foldlRecOn (motive := fun acc => P acc ∧ acc.Linked ∧ t.Extends acc) _ _
      ⟨hP, h, Extends.refl t⟩
    rintro acc ⟨hPacc, hacc, hext⟩ c hc
    have htop' := hext.lt htop
    have hp' := h.follow_extends hext htop hp
    have hput' := extends_put acc (source.node c) (hacc.follow_lt htop' hp')
    obtain ⟨hP', h', hext'⟩ := ih c (hacc.put (hacc.follow_lt htop' hp')) (hput'.lt htop')
      (hput hacc htop' hPacc hp' hc) (hacc.follow_put htop' hp')
    exact ⟨hP', h', hext.trans (hput'.trans hext')⟩

theorem linked_graftWithin (source : Tree) (fuel : Nat) (id : NodeId) {t : Tree} {target : NodeId}
    (h : t.Linked) (htarget : target < t.size) :
    (source.graftWithin fuel t target id).Linked ∧
      t.Extends (source.graftWithin fuel t target id) :=
  (graftWithin_keeps source target (P := fun _ => True) (fun _ _ _ _ _ => trivial) fuel id h htarget
    trivial (follow_nil t target)).2

theorem grown_graftWithin {source : Tree} (hs : source.Grown) (fuel : Nat) (id : NodeId) {t : Tree}
    {target : NodeId} (h : t.Grown) (htarget : target < t.size) :
    (source.graftWithin fuel t target id).Grown ∧
      t.Extends (source.graftWithin fuel t target id) := by
  have hkeeps := graftWithin_keeps source target (P := Grown)
    (fun ht htop hgrown hp hc => hgrown.put (ht.follow_lt htop hp) (hs.kind_of_mem_children hc))
    fuel id h.linked htarget h (follow_nil t target)
  exact ⟨hkeeps.1, hkeeps.2.2⟩

theorem rooted_graftWithin (source : Tree) (fuel : Nat) (id : NodeId) {t : Tree}
    {top target : NodeId} {path : List Symbol} (h : t.Rooted top)
    (hp : t.follow top path = some target) :
    (source.graftWithin fuel t target id).Rooted top ∧
      t.Extends (source.graftWithin fuel t target id) := by
  have hkeeps := graftWithin_keeps source top (P := fun t => t.Rooted top)
    (fun ht htop hrooted hp _ => hrooted.put (ht.follow_lt htop hp)) fuel id h.linked h.top_lt h hp
  exact ⟨hkeeps.1, hkeeps.2.2⟩

/-- A graft leaves alone what neither is its target nor lies below it. -/
theorem node_graftWithin (source : Tree) (fuel : Nat) (id : NodeId) {t : Tree} {target i : NodeId}
    (h : t.Linked) (htarget : target < t.size) (hi : i < t.size) (hne : i ≠ target)
    (hout : ¬ t.Below target i) : (source.graftWithin fuel t target id).node i = t.node i := by
  have hkeeps := graftWithin_keeps source target
    (P := fun t' => i < t'.size ∧ ¬ t'.Below target i ∧ t'.node i = t.node i)
    ?_ fuel id h htarget ⟨hi, hout, rfl⟩ (follow_nil t target)
  · exact hkeeps.1.2.2
  · rintro t' path parent id c ht' htop ⟨hi', hout', hnode⟩ hp hc
    have hplt := ht'.follow_lt htop hp
    have hip : i ≠ parent := by
      rintro rfl
      rcases below_of_follow hp with ⟨-, rfl⟩ | hbelow
      · exact hne rfl
      · exact hout' hbelow
    refine ⟨(extends_put t' _ hplt).lt hi', ?_, ?_⟩ <;> unfold Tree.put <;> split
    · exact fun hb => hout' ((sameShape_uniteAt t' _ _).below hb)
    · exact fun hb => (below_of_below_add hplt hb).elim hout' (Nat.ne_of_lt hi')
    · next e he =>
      have hie : i ≠ e := by
        rintro rfl
        have hself : t'.follow target (path ++ [(source.node c).symbol]) = some i := by
          rw [follow_concat, hp]
          exact he
        exact hout' (below_of_follow_concat hself)
      rw [node_modify_ne hie, hnode]
    · rw [node_add t' parent _ i hplt, if_neg (Nat.ne_of_lt hi'), if_neg hip, hnode]

/-! ## Entries of a graft -/

/-- What grafting the nodes `cs`, each with all below it, joins at a path relative to the target. -/
def offered (source : Tree) (cs : List NodeId) : List Symbol → Option Entry
  | [] => some ⟨[], cs.map fun c => (source.node c).symbol⟩
  | s :: rest =>
    (cs.find? fun c => (source.node c).symbol = s).bind fun c => source.entryFrom c rest

theorem offered_children_cons (source : Tree) (id : NodeId) (s : Symbol) (rest : List Symbol) :
    source.offered (source.children id) (s :: rest) = source.entryFrom id (s :: rest) := by
  rw [entryFrom_cons]
  rfl

section Graft

variable {source : Tree} (hs : source.HasUniqueSiblings)
include hs

/-- The head of a list of siblings offers its own component and all below it. -/
theorem offered_cons {c : NodeId} {cs : List NodeId} (x : List Symbol)
    (hnodup : ((c :: cs).map fun d => (source.node d).symbol).Nodup) :
    source.offered (c :: cs) x =
      Entry.join
        (Entry.join
          (if x = [] then some ⟨[], [(source.node c).symbol]⟩
            else if x = [(source.node c).symbol] then some ⟨(source.node c).attributes, []⟩
            else none)
          (if [(source.node c).symbol] <+: x then source.offered (source.children c) (x.drop 1)
            else none))
        (source.offered cs x) := by
  cases x with
  | nil =>
    have h := unite_of_nodup [(source.node c).symbol] hnodup
    simp [offered, Entry.join, Entry.unite, h]
  | cons s rest =>
    by_cases hsym : (source.node c).symbol = s
    · subst hsym
      -- No sibling shares the symbol, so the others offer nothing under it.
      have hnone : source.offered cs ((source.node c).symbol :: rest) = none := by
        have hfresh := (List.nodup_cons.1 hnodup).1
        rw [offered, Option.bind_eq_none_iff]
        intro d hd
        have hdmem := List.mem_of_find?_eq_some hd
        have hdsym : (source.node d).symbol = (source.node c).symbol := by
          simpa using List.find?_some hd
        exact absurd (List.mem_map.2 ⟨d, hdmem, hdsym⟩) hfresh
      rw [hnone]
      cases rest with
      | nil =>
        have hmembers := unite_of_nodup [] (hs c)
        rw [if_neg (List.cons_ne_nil _ _), if_pos rfl, if_pos List.prefix_rfl]
        simp [offered, entryFrom, entryAt, Entry.join, Entry.unite, members, hmembers]
      | cons r rest =>
        simp [offered, entryFrom_cons, childWith]
    · have hpre : ¬ [(source.node c).symbol] <+: s :: rest := by
        rw [List.cons_prefix_cons]
        exact fun h => hsym h.1
      have hne : s :: rest ≠ [(source.node c).symbol] := fun h => hsym (List.cons.inj h).1.symm
      simp [offered, hsym, hpre, hne]

variable {t : Tree} {top target : NodeId} {path : List Symbol}

/-- Grafting joins what the listed nodes offer below the path of the target. -/
theorem entryFrom_graft_foldl (fuel : Nat) (cs : List NodeId)
    (hgraft : ∀ {t : Tree} {target : NodeId} {path : List Symbol} {c : NodeId}, t.Rooted top →
      t.follow top path = some target → c ∈ cs → ∀ x,
      (source.graftWithin fuel t target c).entryFrom top x = Entry.join (t.entryFrom top x)
        (if path <+: x then source.offered (source.children c) (x.drop path.length) else none))
    (hnodup : (cs.map fun d => (source.node d).symbol).Nodup)
    (h : t.Rooted top) (hp : t.follow top path = some target) (x : List Symbol) :
    (cs.foldl
      (fun acc c =>
        source.graftWithin fuel (acc.put target (source.node c)).2
          (acc.put target (source.node c)).1 c) t).entryFrom top x =
      Entry.join (t.entryFrom top x)
        (if path <+: x then source.offered cs (x.drop path.length) else none) := by
  induction cs generalizing t with
  | nil =>
    by_cases hx : path <+: x
    · obtain ⟨rest, rfl⟩ := hx
      cases rest with
      | nil => simp [entryFrom_of_follow hp, Entry.join, Entry.unite, offered]
      | cons s rest => simp [offered]
    · simp [hx]
  | cons c cs ih =>
    have hlt := h.follow_lt hp
    have hrooted : (t.put target (source.node c)).2.Rooted top := h.put hlt
    have hself := h.follow_put hp (c := source.node c)
    obtain ⟨hg, hext⟩ := rooted_graftWithin source fuel c hrooted hself
    have hp' := h.linked.follow_extends ((extends_put t _ hlt).trans hext) h.top_lt hp
    rw [List.foldl_cons, ih (fun ht hp hc => hgraft ht hp (List.mem_cons_of_mem c hc))
      (List.nodup_cons.1 hnodup).2 hg hp', hgraft hrooted hself List.mem_cons_self,
      h.entryFrom_put hp, Entry.join_assoc, Entry.join_assoc,
      ← Entry.join_assoc (if x = path then _ else _)]
    -- What the head and the other siblings join is what the whole list offers.
    congr 1
    by_cases hx : path <+: x
    · obtain ⟨rest, rfl⟩ := hx
      rw [if_pos (List.prefix_append _ _), List.drop_left, offered_cons hs rest hnodup]
      simp [List.drop_length_add_append]
    · have hne : x ≠ path := fun h => hx (h ▸ List.prefix_rfl)
      have hne' : x ≠ path ++ [(source.node c).symbol] := fun h => hx (h ▸ List.prefix_append _ _)
      have hpre : ¬ path ++ [(source.node c).symbol] <+: x :=
        fun h => hx ((List.prefix_append _ _).trans h)
      simp [hx, hne, hne', hpre]

variable {fuel : Nat}

theorem entryFrom_graftWithin {id : NodeId} (hf : source.Shallow fuel id) (h : t.Rooted top)
    (hp : t.follow top path = some target) (x : List Symbol) :
    (source.graftWithin fuel t target id).entryFrom top x = Entry.join (t.entryFrom top x)
      (if path <+: x then source.offered (source.children id) (x.drop path.length) else none) := by
  induction fuel generalizing t target id path x with
  | zero =>
    have hnil : source.children id = [] := hf
    have := entryFrom_graft_foldl hs 0 [] (by simp) (by simp) h hp x
    simpa [graftWithin, hnil] using this
  | succ fuel ih =>
    rw [graftWithin]
    apply entryFrom_graft_foldl hs fuel _ _ (hs id) h hp
    intro t target path c h hp hc x
    exact ih (hf c hc) h hp x

/-! ## Merging and copying are grafts -/

omit hs in
/-- Two folds agree when their steps do in every state that a property of what is left admits. -/
theorem foldl_eq_of_invariant {α β : Type} {f g : β → α → β} (P : List α → β → Prop)
    (hstep : ∀ a rest acc, P (a :: rest) acc → f acc a = g acc a ∧ P rest (g acc a))
    {as : List α} {acc : β} (h : P as acc) : as.foldl f acc = as.foldl g acc := by
  induction as generalizing acc with
  | nil => rfl
  | cons a rest ih =>
    obtain ⟨heq, hrest⟩ := hstep a rest acc h
    rw [List.foldl_cons, List.foldl_cons, heq]
    exact ih hrest

omit hs in
/-- Grafting below a new child leaves its parent with that one new member. -/
theorem members_graftWithin_add {c : NodeId} (h : t.Linked) (htarget : target < t.size) :
    (source.graftWithin fuel (t.add target (source.node c)) t.size c).members target =
      t.members target ++ [(source.node c).symbol] := by
  have hlink := h.add htarget (c := source.node c)
  have hsize : t.size < (t.add target (source.node c)).size := by simp
  have hlt := Nat.lt_trans htarget hsize
  have hleaf : ¬ (t.add target (source.node c)).Below t.size target := by
    intro hbelow
    rcases below_of_below_add htarget hbelow with hold | heq
    · exact absurd (lt_size_of_below hold) (Nat.lt_irrefl _)
    · exact Nat.ne_of_lt htarget heq
  have hnode := node_graftWithin source fuel c hlink hsize hlt (Nat.ne_of_lt htarget) hleaf
  have hext := (linked_graftWithin source fuel c hlink hsize).2
  rw [members, children, hnode, ← children, children_add t _ htarget, if_pos rfl, List.map_append,
    List.map_singleton, hext.symbol hsize, symbol_add t _ htarget]
  congr 1
  apply List.map_congr_left
  intro d hd
  have hd' : d < t.size := h.child_lt hd
  rw [hext.symbol (Nat.lt_trans hd' hsize), (extends_add t _ htarget).symbol hd']

theorem copyWithin_eq {parent id : NodeId} (hf : source.Shallow fuel id) (h : t.Linked)
    (hp : parent < t.size) :
    source.copyWithin (fuel + 1) t parent id =
      source.graftWithin fuel (t.add parent (source.node id)) t.size id := by
  induction fuel generalizing t parent id with
  | zero =>
    rw [copyWithin, graftWithin, show source.children id = [] from hf]
    rfl
  | succ fuel ih =>
    rw [copyWithin, graftWithin]
    have hnew : (t.add parent (source.node id)).members t.size = [] := by
      rw [members, children_add t _ hp, if_neg (Nat.ne_of_gt hp),
        children_of_size_le (Nat.le_refl _)]
      rfl
    -- While the children are copied one by one, the new node has the earlier ones as members.
    apply foldl_eq_of_invariant fun cs acc => acc.Linked ∧ t.size < acc.size ∧
      (∀ c ∈ cs, c ∈ source.children id ∧ (source.node c).symbol ∉ acc.members t.size) ∧
      (cs.map fun c => (source.node c).symbol).Nodup
    · rintro c cs acc ⟨hacc, hN, hcs, hnodup⟩
      obtain ⟨hc, hcfresh⟩ := hcs c List.mem_cons_self
      have hnone : acc.findChild t.size (source.node c) = none :=
        childWith_eq_none_iff.2 hcfresh
      obtain ⟨hlinked, hext⟩ := linked_graftWithin source fuel c (hacc.put hN)
        (hacc.put_fst_lt t.size (source.node c))
      rw [put_of_findChild_eq_none hnone] at hlinked hext ⊢
      refine ⟨ih (hf c hc) hacc hN, hlinked, ?_, ?_, (List.nodup_cons.1 hnodup).2⟩
      · exact ((extends_add acc _ hN).trans hext).lt hN
      · intro d hd
        refine ⟨(hcs d (List.mem_cons_of_mem c hd)).1, ?_⟩
        rw [members_graftWithin_add hacc hN, List.mem_append, List.mem_singleton]
        rintro (hold | hsame)
        · exact (hcs d (List.mem_cons_of_mem c hd)).2 hold
        · exact (List.nodup_cons.1 hnodup).1 (List.mem_map.2 ⟨d, hd, hsame⟩)
    · have hfresh : ∀ c ∈ source.children id,
          c ∈ source.children id ∧ (source.node c).symbol ∉
            (t.add parent (source.node id)).members t.size :=
        fun c hc => ⟨hc, by rw [hnew]; exact List.not_mem_nil⟩
      exact ⟨h.add hp, by simp, hfresh, hs id⟩

/-- Merging a subtree is one union of attributes and a graft. -/
theorem mergeWithin_eq (hheight : ∀ id, source.Shallow source.size id) {id : NodeId}
    (hf : source.Shallow fuel id) (h : t.Linked) (htarget : target < t.size) :
    source.mergeWithin (fuel + 1) t target id =
      source.graftWithin fuel
        (t.modify target fun node => node.uniteAttributes (source.node id).attributes)
        target id := by
  induction fuel generalizing t target id with
  | zero =>
    rw [mergeWithin, graftWithin, show source.children id = [] from hf]
    rfl
  | succ fuel ih =>
    rw [mergeWithin, graftWithin]
    have hshape := sameShape_uniteAt t target (source.node id).attributes
    apply foldl_eq_of_invariant fun cs acc => acc.Linked ∧ target < acc.size ∧
      ∀ c ∈ cs, c ∈ source.children id
    · rintro c cs acc ⟨hacc, hlt, hcs⟩
      have hfc := hf c (hcs c List.mem_cons_self)
      obtain ⟨hlinked, hext⟩ := linked_graftWithin source fuel c (hacc.put hlt)
        (hacc.put_fst_lt target (source.node c))
      have hlt' := ((extends_put acc (source.node c) hlt).trans hext).lt hlt
      refine ⟨?_, hlinked, hlt', fun d hd => hcs d (List.mem_cons_of_mem c hd)⟩
      cases he : acc.findChild target (source.node c) with
      | some e =>
        rw [put_of_findChild he]
        exact ih hfc hacc (hacc.child_lt (List.mem_of_find?_eq_some he))
      | none =>
        rw [put_of_findChild_eq_none he]
        simp only [copySubtree]
        rw [copyWithin_eq hs (hheight c) hacc hlt, graftWithin_fuel (hheight c) hfc]
    · exact ⟨h.of_sameShape hshape, by simpa using htarget, fun _ hc => hc⟩

theorem mergeAt_eq (hacyclic : source.Acyclic) (id : NodeId) (h : t.Linked)
    (htarget : target < t.size) :
    t.mergeAt target source id =
      source.graftWithin source.size
        (t.modify target fun node => node.uniteAttributes (source.node id).attributes)
        target id :=
  mergeWithin_eq hs hacyclic.shallow (hacyclic.shallow id) h htarget

/-- Merging a subtree joins what it holds below the target, path by path. -/
theorem entryFrom_mergeAt (hacyclic : source.Acyclic) (id : NodeId) (h : t.Rooted target)
    (x : List Symbol) :
    (t.mergeAt target source id).entryFrom target x =
      Entry.join (t.entryFrom target x) (source.entryFrom id x) := by
  have hshape := sameShape_uniteAt t target (source.node id).attributes
  have hrooted := h.of_sameShape hshape
  rw [mergeAt_eq hs hacyclic id h.linked h.top_lt, entryFrom_graftWithin hs (hacyclic.shallow id)
    hrooted (follow_nil _ target) x, if_pos List.nil_prefix]
  cases x with
  | nil =>
    rw [entryFrom_of_follow (follow_nil _ target), entryFrom_of_follow (follow_nil t target),
      entryFrom_of_follow (follow_nil source id), entryAt_uniteAt t _ _ _ h.top_lt, if_pos rfl]
    simp [offered, entryAt, members, Entry.join, Entry.unite]
  | cons s rest =>
    have hold : (t.modify target fun node =>
        node.uniteAttributes (source.node id).attributes).entryFrom target (s :: rest) =
        t.entryFrom target (s :: rest) := by
      rw [entryFrom, hshape.follow]
      cases hx : t.follow target (s :: rest) with
      | none => simp [entryFrom, hx]
      | some i =>
        have hne : i ≠ target := by
          rintro rfl
          exact List.cons_ne_nil s rest (h.follow_inj hx (follow_nil t i))
        rw [Option.map_some, entryAt_uniteAt t _ _ _ h.top_lt, if_neg hne, entryFrom_of_follow hx]
    rw [hold, List.length_nil, List.drop_zero, offered_children_cons]

end Graft

/-! ## Whole trees -/

section Merge

variable {t source : Tree} (h : t.Grown) (hs : source.Grown)
include h hs

theorem merge_eq_graft :
    t.merge source = source.graftWithin source.size
      (t.modify root fun node => node.uniteAttributes (source.node root).attributes) root root :=
  mergeAt_eq hs.uniqueSiblings hs.acyclic root h.linked h.root_lt

theorem grown_merge : (t.merge source).Grown := by
  have hshape := sameShape_uniteAt t root (source.node root).attributes
  have hgrown := h.of_sameShape hshape
  rw [merge_eq_graft h hs]
  exact (grown_graftWithin hs _ _ hgrown hgrown.root_lt).1

theorem extends_merge : t.Extends (t.merge source) := by
  have hgrown := h.of_sameShape (sameShape_uniteAt t root (source.node root).attributes)
  rw [merge_eq_graft h hs]
  exact (extends_uniteAt t root _).trans (grown_graftWithin hs _ _ hgrown hgrown.root_lt).2

/-- Merging joins what the two trees hold, path by path. -/
theorem entry_merge (x : List Symbol) :
    (t.merge source).entry x = Entry.join (t.entry x) (source.entry x) :=
  entryFrom_mergeAt hs.uniqueSiblings hs.acyclic root h.rooted x

end Merge

end Tree

end SymbolTable
