import SymbolTable.Proofs.Revision.FileOrder

/-!
# Revisions and the framing of files

In the message of a revision a zero byte closes every path and every content. What the message
determines is therefore the sequence of texts between zero bytes, the fields. A file without zero
characters is two fields, and such files can be read off the message. A content that holds a zero
character is more fields, and nothing tells where in it a file ends.
-/

namespace SymbolTable

/-- The file with another content. -/
def SourceFile.withContent (f : SourceFile) (content : String) : SourceFile := { f with content }

namespace Revision

def encode (text : List Char) : List UInt8 := text.flatMap String.utf8EncodeChar

theorem encode_append (text text' : List Char) : encode (text ++ text') = encode text ++ encode text' :=
  List.flatMap_append

theorem encode_injective : Function.Injective encode := by
  intro text text' h
  have hdecoded : some text.toArray = some text'.toArray := by
    rw [← List.utf8Decode?_utf8Encode, ← List.utf8Decode?_utf8Encode]
    exact congrArg (fun bytes => bytes.toByteArray.utf8Decode?) h
  simpa using hdecoded

/-! ## Fields -/

/-- The character that closes a field; one zero byte when encoded. -/
def nul : Char := '\x00'

def pieces (text : List Char) : List (List Char) := Text.pieces (· = nul) text

/-- Texts one after the other, each of them closed. -/
def closed (texts : List (List Char)) : List Char := texts.flatMap (· ++ [nul])

theorem closed_append (texts texts' : List (List Char)) :
    closed (texts ++ texts') = closed texts ++ closed texts' :=
  List.flatMap_append

theorem pieces_nul_cons (text : List Char) : pieces (nul :: text) = [] :: pieces text := by
  simp [pieces, Text.pieces]

theorem exists_pieces_cons {c : Char} (hc : c ≠ nul) (text : List Char) :
    ∃ piece more, pieces text = piece :: more ∧ pieces (c :: text) = (c :: piece) :: more := by
  obtain ⟨piece, more, hpieces⟩ := List.exists_cons_of_ne_nil (Text.pieces_ne_nil (· = nul) text)
  exact ⟨piece, more, hpieces, by simp [pieces, Text.pieces, hc, hpieces]⟩

theorem nul_not_mem_of_mem_pieces {text piece : List Char} (h : piece ∈ pieces text) :
    nul ∉ piece := by
  induction text generalizing piece with
  | nil =>
    rw [List.mem_singleton.1 h]
    exact List.not_mem_nil
  | cons c text ih =>
    by_cases hc : c = nul
    · subst hc
      rw [pieces_nul_cons] at h
      rcases List.mem_cons.1 h with rfl | h
      · exact List.not_mem_nil
      · exact ih h
    · obtain ⟨first, more, hpieces, hcons⟩ := exists_pieces_cons hc text
      rw [hcons] at h
      rcases List.mem_cons.1 h with rfl | h
      · exact List.not_mem_cons_of_ne_of_not_mem (Ne.symm hc) (ih (hpieces ▸ List.mem_cons_self))
      · exact ih (hpieces ▸ List.mem_cons_of_mem first h)

theorem closed_pieces (text : List Char) : closed (pieces text) = text ++ [nul] := by
  induction text with
  | nil => rfl
  | cons c text ih =>
    by_cases hc : c = nul
    · subst hc
      rw [pieces_nul_cons, closed, List.flatMap_cons, ← closed, ih]
      rfl
    · obtain ⟨first, more, hpieces, hcons⟩ := exists_pieces_cons hc text
      rw [hpieces] at ih
      rw [hcons]
      exact congrArg (c :: ·) ih

theorem pieces_append_nul {text : List Char} (h : nul ∉ text) (rest : List Char) :
    pieces (text ++ nul :: rest) = text :: pieces rest := by
  induction text with
  | nil => exact pieces_nul_cons rest
  | cons c text ih =>
    obtain ⟨hc, htext⟩ := not_or.1 (mt List.mem_cons.2 h)
    obtain ⟨first, more, hpieces, hcons⟩ := exists_pieces_cons (Ne.symm hc) (text ++ nul :: rest)
    rw [ih htext] at hpieces
    obtain ⟨rfl, rfl⟩ := List.cons.inj hpieces
    exact hcons

/-- Texts without zero characters can be read off when each of them is closed. -/
theorem pieces_closed {texts : List (List Char)} (h : ∀ text ∈ texts, nul ∉ text) :
    pieces (closed texts) = texts ++ [[]] := by
  induction texts with
  | nil => rfl
  | cons text texts ih =>
    obtain ⟨htext, htexts⟩ := List.forall_mem_cons.1 h
    have hcons : closed (text :: texts) = text ++ nul :: closed texts := by
      rw [closed, List.flatMap_cons, List.append_assoc, closed]
      rfl
    rw [hcons, pieces_append_nul htext, ih htexts, List.cons_append]

theorem eq_of_closed_eq {texts texts' : List (List Char)} (h : ∀ text ∈ texts, nul ∉ text)
    (h' : ∀ text ∈ texts', nul ∉ text) (heq : closed texts = closed texts') : texts = texts' := by
  have hpieces := congrArg pieces heq
  rw [pieces_closed h, pieces_closed h'] at hpieces
  exact List.append_cancel_right hpieces

theorem pieces_of_nul_not_mem {text : List Char} (h : nul ∉ text) : pieces text = [text] := by
  refine eq_of_closed_eq (fun piece hpiece => nul_not_mem_of_mem_pieces hpiece) ?_ ?_
  · exact List.forall_mem_singleton.2 h
  · rw [closed_pieces, closed, List.flatMap_singleton]

/-! ## Messages as fields -/

/-- The pieces that a file contributes to the message. -/
def fields (f : SourceFile) : List (List Char) :=
  pieces f.path.text.toList ++ pieces f.content.toList

theorem nul_not_mem_of_mem_fields {files : List SourceFile} :
    ∀ field ∈ files.flatMap fields, nul ∉ field := by
  intro field hfield
  obtain ⟨f, -, hf⟩ := List.mem_flatMap.1 hfield
  rcases List.mem_append.1 hf with h | h
  · exact nul_not_mem_of_mem_pieces h
  · exact nul_not_mem_of_mem_pieces h

theorem fileBytes_eq (f : SourceFile) : fileBytes f = encode (closed (fields f)) := by
  rw [fields, closed_append, closed_pieces, closed_pieces, encode_append, encode_append,
    encode_append, List.append_assoc]
  rfl

theorem flatMap_fileBytes (files : List SourceFile) :
    files.flatMap fileBytes = encode (closed (files.flatMap fields)) := by
  induction files with
  | nil => rfl
  | cons f files ih =>
    rw [List.flatMap_cons, List.flatMap_cons, ih, fileBytes_eq, closed_append, encode_append]

theorem bytes_eq_iff (fs gs : List SourceFile) :
    bytes fs = bytes gs ↔ (inPathOrder fs).flatMap fields = (inPathOrder gs).flatMap fields := by
  rw [bytes_eq, bytes_eq, flatMap_fileBytes, flatMap_fileBytes]
  refine ⟨fun h => ?_, fun h => by rw [h]⟩
  exact eq_of_closed_eq nul_not_mem_of_mem_fields nul_not_mem_of_mem_fields (encode_injective h)

/-! ## Files without zero characters -/

/-- Neither the path nor the content holds a zero character. -/
def Plain (f : SourceFile) : Prop := nul ∉ f.path.text.toList ∧ nul ∉ f.content.toList

instance (f : SourceFile) : Decidable (Plain f) :=
  inferInstanceAs (Decidable (_ ∧ _))

theorem Plain.fields_eq {f : SourceFile} (h : Plain f) :
    fields f = [f.path.text.toList, f.content.toList] := by
  rw [fields, pieces_of_nul_not_mem h.1, pieces_of_nul_not_mem h.2]
  rfl

theorem eq_of_toList_eq {f g : SourceFile} (hpath : f.path.text.toList = g.path.text.toList)
    (hcontent : f.content.toList = g.content.toList) : f = g := by
  obtain ⟨⟨path⟩, content⟩ := f
  obtain ⟨⟨path'⟩, content'⟩ := g
  rw [String.toList_inj] at hpath hcontent
  subst hpath hcontent
  rfl

theorem eq_of_flatMap_fields_eq {fs gs : List SourceFile} (hfs : ∀ f ∈ fs, Plain f)
    (hgs : ∀ g ∈ gs, Plain g) (h : fs.flatMap fields = gs.flatMap fields) : fs = gs := by
  induction fs generalizing gs with
  | nil =>
    cases gs with
    | nil => rfl
    | cons g gs =>
      rw [List.flatMap_cons, (hgs g List.mem_cons_self).fields_eq] at h
      cases h
  | cons f fs ih =>
    obtain ⟨hf, hfs⟩ := List.forall_mem_cons.1 hfs
    cases gs with
    | nil =>
      rw [List.flatMap_cons, hf.fields_eq] at h
      cases h
    | cons g gs =>
      obtain ⟨hg, hgs⟩ := List.forall_mem_cons.1 hgs
      rw [List.flatMap_cons, List.flatMap_cons, hf.fields_eq, hg.fields_eq] at h
      obtain ⟨hpath, hrest⟩ := List.cons.inj h
      obtain ⟨hcontent, hfiles⟩ := List.cons.inj hrest
      rw [eq_of_toList_eq hpath hcontent, ih hfs hgs hfiles]

/-- Files without zero characters are determined by the message, up to their order. -/
theorem perm_of_bytes_eq {fs gs : List SourceFile} (hfs : ∀ f ∈ fs, Plain f)
    (hgs : ∀ g ∈ gs, Plain g) (h : bytes fs = bytes gs) : fs.Perm gs := by
  have hsorted : inPathOrder fs = inPathOrder gs :=
    eq_of_flatMap_fields_eq (fun f hf => hfs f ((perm_inPathOrder fs).mem_iff.1 hf))
      (fun g hg => hgs g ((perm_inPathOrder gs).mem_iff.1 hg)) ((bytes_eq_iff fs gs).1 h)
  calc fs.Perm (inPathOrder fs) := (perm_inPathOrder fs).symm
    _ = inPathOrder gs := hsorted
    List.Perm _ gs := perm_inPathOrder gs

/-! ## One content replaced -/

theorem inPathOrder_map {α : Type} (file : α → SourceFile) (as : List α) :
    inPathOrder (as.map file) = (as.mergeSort fun a b => (file a).path.le (file b).path).map file := by
  refine (List.map_mergeSort ?_).symm
  exact fun _ _ _ _ => rfl

/-- Replacing contents commutes with sorting, since the order looks at paths only. -/
theorem inPathOrder_replaced (files : List (SourceFile × String)) :
    ∃ sorted : List (SourceFile × String), sorted.Perm files ∧
      inPathOrder (files.map Prod.fst) = sorted.map Prod.fst ∧
      inPathOrder (files.map fun f => f.1.withContent f.2) =
        sorted.map fun f => f.1.withContent f.2 :=
  ⟨files.mergeSort fun f g => f.1.path.le g.1.path, List.mergeSort_perm files _,
    inPathOrder_map _ files, inPathOrder_map _ files⟩

theorem content_eq_of_fileBytes_eq {f : SourceFile} {content : String}
    (h : fileBytes f = fileBytes (f.withContent content)) : f.content = content := by
  have hrest := (List.cons.inj (List.append_cancel_left h)).2
  exact String.toList_inj.1 (encode_injective (List.append_cancel_right hrest))

/-- Another content for one file, whatever it is, changes the message. -/
theorem bytes_ne_of_content_ne (before after : List SourceFile) {f : SourceFile} {content : String}
    (h : f.content ≠ content) :
    bytes (before ++ f :: after) ≠ bytes (before ++ f.withContent content :: after) := by
  let kept (g : SourceFile) : SourceFile × String := (g, g.content)
  obtain ⟨sorted, hperm, hold, hnew⟩ :=
    inPathOrder_replaced (before.map kept ++ (f, content) :: after.map kept)
  have hkept : ∀ files : List SourceFile, (files.map kept).map Prod.fst = files ∧
      (files.map kept).map (fun g => g.1.withContent g.2) = files := fun files =>
    ⟨List.map_map.trans (List.map_id files), List.map_map.trans (List.map_id files)⟩
  rw [List.map_append, List.map_cons, (hkept before).1, (hkept after).1] at hold
  rw [List.map_append, List.map_cons, (hkept before).2, (hkept after).2] at hnew
  obtain ⟨left, right, rfl⟩ := List.append_of_mem
    (hperm.mem_iff.2 (List.mem_append_right _ List.mem_cons_self))
  -- All the files around the one with the new content are kept.
  have hothers : (left ++ right).Perm (before.map kept ++ after.map kept) :=
    (List.perm_cons _).1 (List.perm_middle.symm.trans (hperm.trans List.perm_middle))
  have hsame : ∀ g ∈ left ++ right, g.1.withContent g.2 = g.1 := by
    intro g hg
    rw [hothers.mem_iff, ← List.map_append] at hg
    obtain ⟨k, -, rfl⟩ := List.mem_map.1 hg
    rfl
  obtain ⟨hleft, hright⟩ := List.forall_mem_append.1 hsame
  rw [List.map_append, List.map_cons, List.map_congr_left hleft, List.map_congr_left hright] at hnew
  rw [List.map_append, List.map_cons] at hold
  rw [bytes_eq, bytes_eq, hold, hnew]
  simp only [List.flatMap_append, List.flatMap_cons]
  intro heq
  exact h (content_eq_of_fileBytes_eq
    (List.append_cancel_right (List.append_cancel_left heq)))

/-! ## What a message determines -/

/-- Two sets of files give one message just when they have the same fields in path order. Two sets
without zero characters are then the same set. And a file cannot get another content without a
change of the message, whatever the contents. -/
theorem bytes_eq_iff_fields (fs gs : List SourceFile) :
    (bytes fs = bytes gs ↔ (inPathOrder fs).flatMap fields = (inPathOrder gs).flatMap fields) ∧
    ((∀ f ∈ fs ++ gs, Plain f) → (∃ f, ¬(f ∈ fs ↔ f ∈ gs)) → bytes fs ≠ bytes gs) ∧
    (∀ before after f content, f.content ≠ content → fs = before ++ f :: after →
      gs = before ++ f.withContent content :: after → bytes fs ≠ bytes gs) := by
  refine ⟨bytes_eq_iff fs gs, ?_, ?_⟩
  · rintro hplain ⟨f, hf⟩ heq
    obtain ⟨hfs, hgs⟩ := List.forall_mem_append.1 hplain
    exact hf (perm_of_bytes_eq hfs hgs heq).mem_iff
  · rintro before after f content hcontent rfl rfl
    exact bytes_ne_of_content_ne before after hcontent

/-- A file more, and a file with another content. -/
theorem bytes_eq_iff_fields_twoFiles :
    let a : SourceFile := ⟨⟨"A.java"⟩, "class A { }"⟩
    let b : SourceFile := ⟨⟨"B.java"⟩, "class B { }"⟩
    bytes [a, b] ≠ bytes [a] ∧ bytes [a, b] ≠ bytes [a, b.withContent "class C { }"] := by
  intro a b
  constructor
  · refine (bytes_eq_iff_fields [a, b] [a]).2.1 (by decide) ⟨b, by decide⟩
  · exact (bytes_eq_iff_fields [a, b] [a, b.withContent "class C { }"]).2.2 [a] [] b "class C { }"
      (by decide) rfl rfl

/-- A content may hold what the message would say of a further file. -/
theorem file_swallowed :
    let a : SourceFile := ⟨⟨"A.java"⟩, "class A { }"⟩
    let b : SourceFile := ⟨⟨"B.java"⟩, "class B { }"⟩
    let c : SourceFile := ⟨⟨"A.java"⟩, "class A { }\x00B.java\x00class B { }"⟩
    ([a, b].map (·.path)).Nodup ∧ ([c].map (·.path)).Nodup ∧
      (∀ f ∈ [a, b] ++ [c], nul ∉ f.path.text.toList) ∧ ¬(b ∈ [a, b] ↔ b ∈ [c]) ∧
      bytes [a, b] = bytes [c] := by
  intro a b c
  have hab : Ascending [a, b] := by decide
  have hc : Ascending [c] := by decide
  refine ⟨by decide, by decide, by decide, by decide, ?_⟩
  rw [bytes_eq, bytes_eq, hab.inPathOrder_eq, hc.inPathOrder_eq]
  decide

end Revision

end SymbolTable
