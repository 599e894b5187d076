import SymbolTable.Files.Volume
import Mathlib.Data.Option.Basic
import Mathlib.Data.List.Infix

/-!
# Volumes read back what was written

Putting an entry changes nothing but what lies at and below its location: a file or a link
elsewhere stays as it is, a directory stays a directory. A walk asks for no more than that, so the
path of a file that was written leads to the file.
-/

namespace SymbolTable

namespace Entry

variable {α : Type}

theorem at?_append (e : Entry α) (front back : List String) :
    e.at? (front ++ back) = (e.at? front).bind (·.at? back) := by
  induction front generalizing e with
  | nil => rfl
  | cons name front ih =>
    rw [List.cons_append, at?, at?, Option.bind_assoc]
    simp only [ih]

theorem at?_concat {e : Entry α} {here : List String} {entries : List (String × Entry α)}
    (h : e.at? here = some (directory entries)) (name : String) :
    e.at? (here ++ [name]) = (directory entries).child? name := by
  rw [at?_append, h, Option.bind_some, at?]
  simp [at?]

/-- Everything in front of a location is a directory. -/
def Reaches (e : Entry α) (location : List String) : Prop :=
  ∀ front name back, location = front ++ name :: back →
    ∃ entries, e.at? front = some (directory entries)

theorem reaches_of_at? {e found : Entry α} {location : List String}
    (h : e.at? location = some found) : e.Reaches location := by
  rintro front name back rfl
  rw [at?_append] at h
  cases hfront : e.at? front with
  | none =>
    rw [hfront] at h
    cases h
  | some parent =>
    cases parent with
    | directory entries => exact ⟨entries, rfl⟩
    | _ =>
      rw [hfront] at h
      cases h

theorem Reaches.concat {e : Entry α} {here : List String} {entries : List (String × Entry α)}
    (h : e.at? here = some (directory entries)) (name : String) : e.Reaches (here ++ [name]) := by
  intro front piece back heq
  rcases List.eq_nil_or_concat back with rfl | ⟨back, last, rfl⟩
  · obtain ⟨rfl, -⟩ := List.append_inj' heq rfl
    exact ⟨entries, h⟩
  · have hlonger : here ++ [name] = (front ++ piece :: back) ++ [last] := by
      simpa using heq
    obtain ⟨rfl, -⟩ := List.append_inj' hlonger rfl
    exact reaches_of_at? h front piece back rfl

/-- What a directory holds once an entry has been put below the name: one child is replaced or
added, the others stay. -/
theorem child?_put (new : Entry α) (entries : List (String × Entry α)) (name : String)
    (rest : List String) (x : String) :
    (put new (directory entries) (name :: rest)).child? x =
      if x = name then some (put new (((directory entries).child? name).getD (directory [])) rest)
      else (directory entries).child? x := by
  cases hfind : entries.find? (·.1 = name) with
  | none =>
    simp only [put, child?, hfind, Option.map_none, Option.getD_none, List.find?_append]
    split
    · next hx =>
      subst hx
      simp [hfind]
    · next hx =>
      have hlast : [(name, put new (directory []) rest)].find? (·.1 = x) = none := by
        simpa using Ne.symm hx
      rw [hlast, Option.or_none]
  | some found =>
    obtain ⟨n, old⟩ := found
    obtain rfl : n = name := by simpa using List.find?_some hfind
    have hnames : ∀ e : String × Entry α,
        (if e.1 = n then (n, put new old rest) else e).1 = e.1 := by
      intro e
      split
      · next he => exact he.symm
      · rfl
    simp only [put, child?, hfind, Option.map_some, Option.getD_some, List.find?_map,
      Function.comp_def, hnames]
    split
    · next hx =>
      subst hx
      simp [hfind]
    · next hx =>
      cases hother : entries.find? (·.1 = x) with
      | none => rfl
      | some other =>
        obtain rfl : other.1 = x := by simpa using List.find?_some hother
        simp [hx]

/-- The head of a reachable location is a child of a directory, and what follows is reachable there,
unless nothing follows. -/
theorem Reaches.cons {e : Entry α} {name : String} {rest : List String}
    (h : e.Reaches (name :: rest)) : ∃ entries, e = directory entries ∧
      (rest = [] ∨ ∃ child, e.child? name = some child ∧ child.Reaches rest) := by
  obtain ⟨entries, hentries⟩ := h [] name rest rfl
  obtain rfl : e = directory entries := by simpa [at?] using hentries
  refine ⟨entries, rfl, ?_⟩
  cases rest with
  | nil => exact .inl rfl
  | cons second rest =>
    obtain ⟨below, hbelow⟩ := h [name] second rest rfl
    refine .inr ⟨directory below, by simpa [at?] using hbelow, ?_⟩
    rintro front piece back heq
    obtain ⟨deep, hdeep⟩ := h (name :: front) piece back (by rw [heq, List.cons_append])
    have hchild : (directory entries).child? name = some (directory below) := by
      simpa [at?] using hbelow
    exact ⟨deep, by rwa [at?, hchild, Option.bind_some] at hdeep⟩

theorem at?_put_self (new : Entry α) {e : Entry α} {location : List String}
    (h : e.Reaches location) : (put new e location).at? location = some new := by
  induction location generalizing e with
  | nil => simp [put, at?]
  | cons name rest ih =>
    obtain ⟨entries, rfl, hrest⟩ := h.cons
    rw [at?, child?_put, if_pos rfl, Option.bind_some]
    rcases hrest with rfl | ⟨child, hchild, hreach⟩
    · simp [put, at?]
    · rw [hchild, Option.getD_some, ih hreach]

/-- Two entries that a walk does not tell apart: equal ones, and any two directories. -/
inductive SameSort : Entry α → Entry α → Prop where
  | refl (e : Entry α) : SameSort e e
  | directories (entries entries' : List (String × Entry α)) :
    SameSort (directory entries) (directory entries')

theorem put_directory (new : Entry α) (entries : List (String × Entry α)) (name : String)
    (rest : List String) :
    ∃ entries', put new (directory entries) (name :: rest) = directory entries' := by
  rw [put]
  split <;> exact ⟨_, rfl⟩

/-- Putting an entry changes the sort of no entry that is not at its location or below it. -/
theorem at?_put (new : Entry α) {e found : Entry α} {location key : List String}
    (h : e.Reaches location) (hkey : ¬ location <+: key) (hfound : e.at? key = some found) :
    ∃ found', (put new e location).at? key = some found' ∧ SameSort found found' := by
  induction location generalizing e key with
  | nil => exact absurd List.nil_prefix hkey
  | cons name rest ih =>
    obtain ⟨entries, rfl, hrest⟩ := h.cons
    cases key with
    | nil =>
      obtain ⟨entries', hput⟩ := put_directory new entries name rest
      obtain rfl : directory entries = found := by simpa [at?] using hfound
      exact ⟨directory entries', by rw [at?, hput], .directories entries entries'⟩
    | cons x key =>
      rw [at?] at hfound ⊢
      rw [child?_put]
      split
      · next hx =>
        subst hx
        rcases hrest with rfl | ⟨child, hchild, hreach⟩
        · exact absurd ⟨key, rfl⟩ hkey
        · rw [hchild, Option.bind_some] at hfound
          rw [hchild, Option.getD_some, Option.bind_some]
          exact ih hreach (fun hbelow => hkey (List.cons_prefix_cons.2 ⟨rfl, hbelow⟩)) hfound
      · exact ⟨found, hfound, .refl found⟩

/-- Nothing is found below a location that no directory is at. -/
theorem eq_location_of_at? {e found : Entry α} {location key : List String}
    (hlocation : ∀ other, e.at? location = some other → ∃ content, other = file content)
    (hfound : e.at? key = some found) (hbelow : location <+: key) : key = location := by
  obtain ⟨back, rfl⟩ := hbelow
  rw [at?_append] at hfound
  obtain ⟨other, hother, hback⟩ := Option.bind_eq_some_iff.1 hfound
  obtain ⟨content, rfl⟩ := hlocation other hother
  cases back with
  | nil => exact List.append_nil location
  | cons name back => cases hback

/-- Where a file or nothing was, putting an entry changes the sort of no link and no directory. -/
theorem at?_put_of_not_file (new : Entry α) {e found : Entry α} {location key : List String}
    (hreach : e.Reaches location)
    (hlocation : ∀ other, e.at? location = some other → ∃ content, other = file content)
    (hfound : e.at? key = some found) (hfile : ∀ content, found ≠ file content) :
    ∃ found', (put new e location).at? key = some found' ∧ SameSort found found' := by
  refine at?_put new hreach (fun hbelow => ?_) hfound
  obtain rfl := eq_location_of_at? hlocation hfound hbelow
  obtain ⟨content, hcontent⟩ := hlocation found hfound
  exact hfile content hcontent

/-- Where a file or nothing was, putting a file turns no entry into a link. -/
theorem at?_put_file_ne_link (content : α) {e found : Entry α} {location key : List String}
    (hreach : e.Reaches location)
    (hlocation : ∀ other, e.at? location = some other → ∃ content, other = file content)
    (hfound : e.at? key = some found) (hlink : ∀ target, found ≠ link target) :
    ∃ found', (put (file content) e location).at? key = some found' ∧
      ∀ target, found' ≠ link target := by
  by_cases hbelow : location <+: key
  · rw [eq_location_of_at? hlocation hfound hbelow]
    exact ⟨_, at?_put_self (file content) hreach, fun target heq => by cases heq⟩
  · obtain ⟨found', hfound', hsort⟩ := at?_put (file content) hreach hbelow hfound
    refine ⟨found', hfound', ?_⟩
    rintro target rfl
    cases hsort
    exact hlink target rfl

end Entry

namespace Volume

variable {v : Volume} {location : Location}

theorem at?_dropLast {here : Location} {entries : List (String × Entry (Option String))}
    (h : v.root.at? here = some (.directory entries)) :
    ∃ entries', v.root.at? here.dropLast = some (.directory entries') := by
  rcases List.eq_nil_or_concat here with rfl | ⟨front, name, rfl⟩
  · exact ⟨entries, h⟩
  · rw [List.concat_eq_append] at h ⊢
    rw [List.dropLast_concat]
    exact Entry.reaches_of_at? h front name [] rfl

/-- A link leads on from the root or from where it stands, which is a directory either way. -/
theorem at?_target {here : Location} {entries : List (String × Entry (Option String))}
    (h : v.root.at? here = some (.directory entries)) (target : Path) :
    ∃ entries', v.root.at? (if target.isAbsolute then [] else here) =
      some (.directory entries') := by
  split
  · cases here with
    | nil => exact ⟨entries, h⟩
    | cons name rest => exact Entry.reaches_of_at? h [] name rest rfl
  · exact ⟨entries, h⟩

/-- A walk ends where a file can be put or at an entry, and never on a link: links are followed. -/
theorem reaches_of_walk {links : Nat} {here : Location} {pieces : List String}
    (hwalk : v.walk links here pieces = .ok location)
    (hstart : pieces ≠ [] ∨ ∃ e, v.root.at? here = some e ∧ ∀ target, e ≠ .link target) :
    v.root.Reaches location ∧ ∀ target, v.root.at? location ≠ some (.link target) := by
  have hdirectory : ∀ {here : Location} {pieces : List String},
      (∃ entries, v.root.at? here = some (.directory entries)) →
        pieces ≠ [] ∨ ∃ e, v.root.at? here = some e ∧ ∀ target, e ≠ .link target := by
    rintro here pieces ⟨entries, h⟩
    exact .inr ⟨_, h, fun target heq => by cases heq⟩
  induction links, here, pieces using Volume.walk.induct v with
  | case1 links here =>
    rw [walk] at hwalk
    cases hwalk
    rcases hstart with hne | ⟨e, he, hlink⟩
    · exact absurd rfl hne
    · refine ⟨Entry.reaches_of_at? he, fun target heq => ?_⟩
      rw [he] at heq
      exact hlink target (Option.some.inj heq)
  | case2 links here piece rest entries hhere hpiece ih =>
    simp only [walk, hhere, hpiece, if_true] at hwalk
    exact ih hwalk (hdirectory ⟨entries, hhere⟩)
  | case3 links here rest entries hhere hpiece ih =>
    simp only [walk, hhere, hpiece, if_true, if_false] at hwalk
    exact ih hwalk (hdirectory (at?_dropLast hhere))
  | case4 links here piece entries hhere hpiece hup hchild =>
    simp only [walk, hhere, hpiece, hup, hchild, if_true, if_false] at hwalk
    cases hwalk
    refine ⟨Entry.Reaches.concat hhere piece, fun target heq => ?_⟩
    rw [Entry.at?_concat hhere, hchild] at heq
    cases heq
  | case7 here piece rest entries hhere hpiece hup target hchild links ih =>
    simp only [walk, hhere, hpiece, hup, hchild, if_false] at hwalk
    exact ih hwalk (hdirectory (at?_target hhere target))
  | case8 links here piece rest entries hhere hpiece hup found hfound hchild ih =>
    have hnext : v.walk links (here ++ [piece]) rest = .ok location := by
      simpa only [walk, hhere, hpiece, hup, hchild, if_false] using hwalk
    exact ih hnext (.inr ⟨found, by rw [Entry.at?_concat hhere, hchild], hfound⟩)
  | case5 | case6 | case9 | case10 => simp_all [walk]

/-- Putting a file where a walk ends does not lead the walk astray. -/
theorem walk_put {links : Nat} {here : Location} {pieces : List String} (content : Option String)
    (hwalk : v.walk links here pieces = .ok location) (hreach : v.root.Reaches location)
    (hfile : ∀ e, v.root.at? location = some e → ∃ content, e = .file content) :
    Volume.walk { v with root := Entry.put (.file content) v.root location } links here pieces =
      .ok location := by
  have hself := Entry.at?_put_self (.file content) hreach
  have hdirectory : ∀ {key : Location} {entries : List (String × Entry (Option String))},
      v.root.at? key = some (.directory entries) →
        ∃ entries', (Entry.put (.file content) v.root location).at? key =
          some (.directory entries') := by
    intro key entries hkey
    obtain ⟨e, he, hsort⟩ := Entry.at?_put_of_not_file (.file content) hreach hfile hkey
      fun _ heq => by cases heq
    cases hsort <;> exact ⟨_, he⟩
  induction links, here, pieces using Volume.walk.induct v with
  | case1 links here => rwa [walk] at hwalk ⊢
  | case2 links here piece rest entries hhere hpiece ih =>
    obtain ⟨entries', hhere'⟩ := hdirectory hhere
    simp only [walk, hhere, hhere', hpiece, if_true] at hwalk ⊢
    exact ih hwalk
  | case3 links here rest entries hhere hpiece ih =>
    obtain ⟨entries', hhere'⟩ := hdirectory hhere
    simp only [walk, hhere, hhere', hpiece, if_true, if_false] at hwalk ⊢
    exact ih hwalk
  | case4 links here piece entries hhere hpiece hup hchild =>
    -- The walk ended where nothing was, and the file is there now.
    obtain ⟨entries', hhere'⟩ := hdirectory hhere
    simp only [walk, hhere, hpiece, hup, hchild, if_true, if_false] at hwalk
    cases hwalk
    rw [Entry.at?_concat hhere'] at hself
    simp only [walk, hhere', hpiece, hup, hself, if_false]
  | case7 here piece rest entries hhere hpiece hup target hchild links ih =>
    -- A link on the way is no file, so that it is still there and leads where it led.
    obtain ⟨entries', hhere'⟩ := hdirectory hhere
    simp only [walk, hhere, hpiece, hup, hchild, if_false] at hwalk
    rw [← Entry.at?_concat hhere] at hchild
    obtain ⟨e, he, hsort⟩ := Entry.at?_put_of_not_file (.file content) hreach hfile hchild
      fun _ heq => by cases heq
    cases hsort
    rw [Entry.at?_concat hhere'] at he
    simp only [walk, hhere', hpiece, hup, he, if_false]
    exact ih hwalk
  | case8 links here piece rest entries hhere hpiece hup found hfound hchild ih =>
    obtain ⟨entries', hhere'⟩ := hdirectory hhere
    have hnext : v.walk links (here ++ [piece]) rest = .ok location := by
      simpa only [walk, hhere, hpiece, hup, hchild, if_false] using hwalk
    rw [← Entry.at?_concat hhere] at hchild
    obtain ⟨found', hchild', hfound'⟩ :=
      Entry.at?_put_file_ne_link content hreach hfile hchild hfound
    rw [Entry.at?_concat hhere'] at hchild'
    simp only [walk, hhere', hpiece, hup, hchild', if_false]
    exact ih hnext
  | case5 | case6 | case9 | case10 => simp_all [walk]

theorem pieces_ne_nil (p : Path) : p.pieces ≠ [] := by
  rw [Path.pieces, ne_eq, List.map_eq_nil_iff]
  exact Text.pieces_ne_nil _ _

/-- A file that was written is read back. -/
theorem read_of_write {v' : Volume} {p : Path} {text : String} (h : v.write p text = some v') :
    v'.read p = .ok text := by
  rw [write, place] at h
  cases hlocate : v.locate p with
  | error e =>
    rw [hlocate] at h
    cases h
  | ok location =>
    rw [hlocate] at h
    have htext : p.text ≠ "" := by
      intro hempty
      rw [locate, if_pos hempty] at hlocate
      cases hlocate
    rw [locate, if_neg htext] at hlocate
    obtain ⟨hreach, hlink⟩ := reaches_of_walk hlocate (.inl (pieces_ne_nil p))
    have hput : (∀ e, v.root.at? location = some e → ∃ content, e = .file content) ∧
        v' = { v with root := Entry.put (.file (some text)) v.root location } := by
      dsimp only at h
      split at h
      · cases h
      · next hdirectory =>
        refine ⟨fun e he => ?_, (Option.some.inj h).symm⟩
        cases e with
        | file content => exact ⟨content, rfl⟩
        | link target => exact absurd he (hlink target)
        | directory entries => exact absurd he (hdirectory entries)
    obtain ⟨hfile, rfl⟩ := hput
    have hwalk := walk_put (some text) hlocate hreach hfile
    have hself := Entry.at?_put_self (.file (some text)) hreach
    have hlocate' : Volume.locate { v with root := Entry.put (.file (some text)) v.root location } p =
        .ok location := by
      rw [locate, if_neg htext]
      exact hwalk
    simp only [read, find, hlocate', bind, Except.bind, hself]
    rfl

theorem attempt_eq (operation : Volume → Option Volume) (v : Volume) :
    attempt operation v = ((operation v).isSome, (operation v).getD v) := by
  cases h : operation v <;> simp only [attempt, h, Option.isSome, Option.getD]

end Volume

end SymbolTable
