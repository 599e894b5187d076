import SymbolTable.Json.Printer
import SymbolTable.Json.Reader
import Mathlib.Data.List.TakeDrop

/-!
# Reading undoes indented printing

The reader gives back the value that an indented text was printed from, for every value that holds
no number but natural ones. A value is read off the front of a longer text, so what may follow it is
part of the statement: a comma, a line break or nothing, none of which can prolong a number.
-/

namespace SymbolTable

namespace Json

/-! ## Strings -/

theorem hexNumber_hexDigit {a b : Nat} (ha : a < 16) (hb : b < 16) :
    Text.hexNumber ['0', '0', Text.hexDigit a, Text.hexDigit b] = some (a * 16 + b) := by
  have hzero : Text.hexValue '0' = some 0 := by decide
  simp [Text.hexNumber, hzero, Text.hexValue_hexDigit ha, Text.hexValue_hexDigit hb]

theorem readString_short {e c : Char} (h : shortEscape e = some c) (done rest : List Char) :
    readString done ('\\' :: e :: rest) = readString (c :: done) rest := by
  have hu : e ≠ 'u' := by
    rintro rfl
    cases h
  rw [readString]
  · simp only [h]
  · rintro - - - - - - - - - heq -
    exact hu heq
  · rintro - - - - - heq -
    exact hu heq

/-- Four digits that name no surrogate are read alike, whether another escape follows or not. -/
theorem readString_hex {a b : Nat} (ha : a < 16) (hb : b < 16) (done rest : List Char) :
    readString done ('\\' :: 'u' :: '0' :: '0' :: Text.hexDigit a :: Text.hexDigit b :: rest) =
      readString (Char.ofNat (a * 16 + b) :: done) rest := by
  have hhigh : isHighSurrogate (a * 16 + b) = false := by
    simp [isHighSurrogate]
    omega
  have hlow : isLowSurrogate (a * 16 + b) = false := by
    simp [isLowSurrogate]
    omega
  rw [readString.eq_def]
  split
  · next heq => cases heq
  · next heq =>
    simp only [List.cons.injEq, true_and] at heq
    obtain ⟨rfl, rfl, rfl, rfl, rfl⟩ := heq
    simp [hexNumber_hexDigit ha hb, hhigh, hlow]
  · next heq =>
    simp only [List.cons.injEq, true_and] at heq
    obtain ⟨rfl, rfl, rfl, rfl, rfl⟩ := heq
    simp [hexNumber_hexDigit ha hb, hhigh, hlow]
  · next hne heq =>
    simp only [List.cons.injEq, true_and] at heq
    obtain ⟨rfl, rfl⟩ := heq
    exact absurd rfl (hne _ _ _ _ _ rfl)
  · next hne heq =>
    simp only [List.cons.injEq] at heq
    obtain ⟨rfl, rfl⟩ := heq
    exact absurd rfl (hne _ _ rfl)
  · next heq => cases heq

theorem readString_plain {c : Char} (hquote : c ≠ '"') (hslash : c ≠ '\\') (hc : 32 ≤ c.toNat)
    (done rest : List Char) : readString done (c :: rest) = readString (c :: done) rest := by
  rw [readString]
  · simp [hslash, Nat.not_lt.2 hc]
  all_goals
    intros
    contradiction

theorem readString_escapeChar (done : List Char) (c : Char) (rest : List Char) :
    readString done (escapeChar c ++ rest) = readString (c :: done) rest := by
  have hshort : ∀ {e d : Char}, c = d → shortEscape e = some d →
      readString done (['\\', e] ++ rest) = readString (c :: done) rest := by
    rintro e d rfl h
    exact readString_short h done rest
  have hcode : ∀ {n : Nat}, c.toNat = n → c = Char.ofNat n := by
    rintro n rfl
    rw [Char.ofNat_toNat]
  unfold escapeChar
  split
  · next h => exact hshort h rfl
  split
  · next h => exact hshort h rfl
  split
  · next h => exact hshort h rfl
  split
  · next h => exact hshort h rfl
  split
  · next h => exact hshort h rfl
  split
  · next h => exact hshort (hcode h) rfl
  split
  · next h => exact hshort (hcode h) rfl
  split
  · next h =>
    have hvalue : c.toNat / 16 * 16 + c.toNat % 16 = c.toNat := Nat.div_add_mod' _ _
    have hread := readString_hex (a := c.toNat / 16) (b := c.toNat % 16) (by omega) (by omega)
      done rest
    rwa [hvalue, Char.ofNat_toNat] at hread
  · next hquote hslash _ _ _ _ _ hc => exact readString_plain hquote hslash (by omega) done rest

theorem readString_flatMap (s done rest : List Char) :
    readString done (s.flatMap escapeChar ++ '"' :: rest) =
      some (String.ofList (done.reverse ++ s), rest) := by
  induction s generalizing done with
  | nil => simp [readString]
  | cons c s ih =>
    rw [List.flatMap_cons, List.append_assoc, readString_escapeChar, ih]
    simp

/-- The characters of a quoted text after the opening quote. -/
theorem exists_quote (s : String) :
    ∃ inner, (quote s).toList = '"' :: inner ∧
      ∀ rest, readString [] (inner ++ rest) = some (s, rest) := by
  refine ⟨s.toList.flatMap escapeChar ++ ['"'], by simp [quote], fun rest => ?_⟩
  rw [List.append_assoc, List.singleton_append, readString_flatMap]
  simp

/-! ## Numbers -/

/-- What stands behind a value in an indented text: a comma, a line break or nothing. -/
def Delimited (rest : List Char) : Prop := ∀ c ∈ rest.head?, c = ',' ∨ c = '\n'

theorem Delimited.not_isDigit {c : Char} {rest : List Char} (h : Delimited (c :: rest)) :
    c.isDigit = false := by
  rcases h c rfl with rfl | rfl <;> decide

theorem digitsValue_toDigits (n : Nat) : digitsValue (Nat.toDigits 10 n) = n := by
  have hvalue := Nat.ofDigitChars_ten_toDigits (n := n)
  rw [Nat.ofDigitChars_eq_foldl] at hvalue
  simpa only [digitsValue, Nat.mul_comm] using hvalue

/-- The digits of a positive number do not start with a zero. -/
theorem head_toDigits_ne_zero {n : Nat} (hn : 0 < n) : (Nat.toDigits 10 n).head? ≠ some '0' := by
  induction n using Nat.strongRecOn with
  | ind n ih =>
    rw [Nat.toDigits_eq_if (by decide)]
    split
    · rw [List.head?_singleton, ne_eq, Option.some_inj, Nat.digitChar_eq_zero]
      omega
    · obtain ⟨c, cs, hcs⟩ := List.exists_cons_of_ne_nil (Nat.toDigits_ne_nil (b := 10) (n := n / 10))
      have hc := ih (n / 10) (by omega) (by omega)
      rw [hcs, List.head?_cons] at hc
      rwa [hcs, List.cons_append, List.head?_cons]

theorem readDigits_toDigits (n : Nat) {rest : List Char} (hrest : Delimited rest) :
    readDigits (Nat.toDigits 10 n ++ rest) = (Nat.toDigits 10 n, rest) := by
  have hdigits : ∀ c ∈ Nat.toDigits 10 n, c.isDigit = true := fun c hc =>
    Nat.isDigit_of_mem_toDigits (by decide) (by decide) hc
  rw [readDigits, List.takeWhile_append_of_pos hdigits, List.dropWhile_append_of_pos hdigits]
  cases rest with
  | nil => simp
  | cons c rest => simp [hrest.not_isDigit]

theorem readFraction_delimited {rest : List Char} (hrest : Delimited rest) :
    readFraction rest = some ([], rest) := by
  cases rest with
  | nil => rfl
  | cons c rest => rcases hrest c rfl with rfl | rfl <;> rfl

theorem readNumber_toDigits (n : Nat) {rest : List Char} (hrest : Delimited rest) :
    readNumber (Nat.toDigits 10 n ++ rest) = some (.natural n, rest) := by
  have hplain : ¬ ((Nat.toDigits 10 n).head? = some '0' ∧ (Nat.toDigits 10 n).length > 1) := by
    rintro ⟨hhead, hlong⟩
    rcases Nat.eq_zero_or_pos n with rfl | hn
    · exact absurd hlong (by decide)
    · exact head_toDigits_ne_zero hn hhead
  have hsign : ∀ more, Nat.toDigits 10 n ++ rest ≠ '-' :: more := by
    intro more heq
    have hmem : '-' ∈ Nat.toDigits 10 n := by
      obtain ⟨c, cs, hcs⟩ := List.exists_cons_of_ne_nil (Nat.toDigits_ne_nil (b := 10) (n := n))
      rw [hcs, List.cons_append] at heq
      rw [hcs, (List.cons.inj heq).1]
      exact List.mem_cons_self
    exact absurd (Nat.isDigit_of_mem_toDigits (by decide) (by decide) hmem) (by decide)
  unfold readNumber
  split
  next sign s heq =>
    split at heq
    · next more hmore => exact absurd hmore (hsign more)
    · obtain ⟨rfl, rfl⟩ := Prod.mk.inj heq
      rw [readDigits_toDigits n hrest]
      simp only [List.isEmpty_iff, Nat.toDigits_ne_nil, false_or]
      rw [if_neg hplain, readFraction_delimited hrest]
      simp [digitsValue_toDigits]

/-! ## Blanks -/

theorem isSpace_lineBreak {level : Nat} {c : Char} (hc : c ∈ (Value.lineBreak level).toList) :
    isSpace c = true := by
  have hmem : c = '\n' ∨ ∃ s ∈ List.replicate level "  ", c ∈ s.toList := by
    simpa [Value.lineBreak, String.toList_join] using hc
  rcases hmem with rfl | ⟨s, hs, hc⟩
  · rfl
  · rw [List.eq_of_mem_replicate hs] at hc
    have hblank : c = ' ' := by simpa using hc
    rw [hblank]
    rfl

theorem skipSpace_append {blanks : List Char} (h : ∀ c ∈ blanks, isSpace c = true)
    (s : List Char) : skipSpace (blanks ++ s) = skipSpace s := List.dropWhile_append_of_pos h

theorem skipSpace_cons {c : Char} (h : isSpace c = false) (s : List Char) :
    skipSpace (c :: s) = c :: s := by
  rw [skipSpace, List.dropWhile_cons, h]
  rfl

theorem delimited_lineBreak (level : Nat) (rest : List Char) :
    Delimited ((Value.lineBreak level).toList ++ rest) := by
  have hhead : (Value.lineBreak level).toList.head? = some '\n' := by simp [Value.lineBreak]
  intro c hc
  rw [List.head?_append, hhead, Option.some_or, Option.mem_some_iff] at hc
  exact .inr hc.symm

theorem readValue_skipSpace {s s' : List Char} (h : skipSpace s = skipSpace s') (fuel depth : Nat) :
    readValue fuel depth s = readValue fuel depth s' := by
  cases fuel with
  | zero => rfl
  | succ fuel => rw [readValue, readValue, h]


/-! ## Brackets -/

theorem readItems_eq_none {s rest : List Char} (hs : skipSpace s = ']' :: rest)
    (fuel depth : Nat) : readItems fuel depth s = none := by
  cases fuel with
  | zero => rfl
  | succ fuel =>
    have hvalue : readValue fuel depth s = none := by
      cases fuel with
      | zero => rfl
      | succ fuel =>
        rw [readValue, hs]
        rfl
    rw [readItems, hvalue]
    rfl

theorem readFields_eq_none {s rest : List Char} (hs : skipSpace s = '\x7d' :: rest)
    (fuel depth : Nat) : readFields fuel depth s = none := by
  cases fuel with
  | zero => rfl
  | succ fuel =>
    rw [readFields, hs]
    rfl

/-- A list with an item that is read does not close at once. -/
theorem readValue_array {s rest : List Char} {fuel depth : Nat} {items : List Value}
    (h : readItems fuel depth s = some (items, rest)) :
    readValue (fuel + 1) (depth + 1) ('[' :: s) = some (.array items, rest) := by
  rw [readValue, skipSpace_cons (by decide)]
  simp only [Nat.add_one_ne_zero, if_false, Nat.add_sub_cancel]
  split
  · next hs =>
    rw [readItems_eq_none hs] at h
    cases h
  · rw [h]
    rfl

theorem readValue_object {s rest : List Char} {fuel depth : Nat} {fields : List (String × Value)}
    (h : readFields fuel depth s = some (fields, rest)) :
    readValue (fuel + 1) (depth + 1) ('\x7b' :: s) = some (.object fields, rest) := by
  rw [readValue, skipSpace_cons (by decide)]
  simp only [Nat.add_one_ne_zero, if_false, Nat.add_sub_cancel]
  split
  · next hs =>
    rw [readFields_eq_none hs] at h
    cases h
  · rw [h]
    rfl

/-- What stands between the brackets of a list that is not empty. -/
def listed (level : Nat) (entries : List String) : String :=
  ",".intercalate (entries.map (Value.lineBreak (level + 1) ++ ·)) ++ Value.lineBreak level

theorem bracketed_eq (opening closing : String) (level : Nat) {entries : List String}
    (h : entries ≠ []) : Value.bracketed opening closing level entries =
      opening ++ listed level entries ++ closing := by
  rw [Value.bracketed, if_neg (by simpa using h), listed, String.append_assoc, String.append_assoc,
    String.append_assoc, String.append_assoc]

theorem listed_singleton (level : Nat) (entry : String) :
    listed level [entry] = Value.lineBreak (level + 1) ++ entry ++ Value.lineBreak level := by
  simp [listed]

theorem listed_cons_cons (level : Nat) (first second : String) (entries : List String) :
    listed level (first :: second :: entries) =
      Value.lineBreak (level + 1) ++ first ++ "," ++ listed level (second :: entries) := by
  simp only [listed, List.map_cons, String.intercalate_cons_cons, String.append_assoc]

/-! ## Values -/

/-- A value is read off the front of its text, whatever delimits it. -/
def ReadsBack (v : Value) : Prop :=
  ∀ level fuel depth rest, (v.indentedAt level).length ≤ fuel →
    (v.indentedAt level).length ≤ depth → Delimited rest →
      readValue fuel depth ((v.indentedAt level).toList ++ rest) = some (v, rest)

/-- The blanks in front of a value are skipped. -/
theorem ReadsBack.after_blanks {v : Value} (h : ReadsBack v) {blanks : List Char}
    (hblanks : ∀ c ∈ blanks, isSpace c = true) {level fuel depth : Nat} {rest : List Char}
    (hfuel : (v.indentedAt level).length ≤ fuel) (hdepth : (v.indentedAt level).length ≤ depth)
    (hrest : Delimited rest) :
    readValue fuel depth (blanks ++ ((v.indentedAt level).toList ++ rest)) = some (v, rest) := by
  rw [readValue_skipSpace (skipSpace_append hblanks _)]
  exact h level fuel depth rest hfuel hdepth hrest

theorem length_lineBreak_pos (level : Nat) : 0 < (Value.lineBreak level).length := by
  have hone : "\n".length = 1 := rfl
  simp only [Value.lineBreak, String.length_append]
  omega

theorem delimited_comma (rest : List Char) : Delimited (',' :: rest) := by
  rintro c ⟨⟩
  exact .inl rfl

section Steps

variable {s r rest : List Char} {fuel depth : Nat} {v : Value}

theorem readItems_last (hv : readValue fuel depth s = some (v, r)) (hr : skipSpace r = ']' :: rest) :
    readItems (fuel + 1) depth s = some ([v], rest) := by
  rw [readItems, hv]
  simp only [Option.bind_eq_bind, Option.bind_some, hr]

theorem readItems_more {items : List Value} (hv : readValue fuel depth s = some (v, ',' :: r))
    (hr : readItems fuel depth r = some (items, rest)) :
    readItems (fuel + 1) depth s = some (v :: items, rest) := by
  rw [readItems, hv]
  simp only [Option.bind_eq_bind, Option.bind_some, skipSpace_cons (c := ',') (by decide), hr,
    Option.map_some]

theorem readFields_last {blanks : List Char} (hblanks : ∀ c ∈ blanks, isSpace c = true)
    {name : String} (hv : readValue fuel depth s = some (v, r))
    (hr : skipSpace r = '\x7d' :: rest) :
    readFields (fuel + 1) depth (blanks ++ ((quote name).toList ++ ':' :: s)) =
      some ([(name, v)], rest) := by
  obtain ⟨inner, hinner, hread⟩ := exists_quote name
  rw [readFields, skipSpace_append hblanks, hinner, List.cons_append, skipSpace_cons (by decide)]
  simp only [hread, Option.bind_eq_bind, Option.bind_some, skipSpace_cons (c := ':') (by decide),
    hv, hr]

theorem readFields_more {blanks : List Char} (hblanks : ∀ c ∈ blanks, isSpace c = true)
    {name : String} {fields : List (String × Value)}
    (hv : readValue fuel depth s = some (v, ',' :: r))
    (hr : readFields fuel depth r = some (fields, rest)) :
    readFields (fuel + 1) depth (blanks ++ ((quote name).toList ++ ':' :: s)) =
      some ((name, v) :: fields, rest) := by
  obtain ⟨inner, hinner, hread⟩ := exists_quote name
  rw [readFields, skipSpace_append hblanks, hinner, List.cons_append, skipSpace_cons (by decide)]
  simp only [hread, Option.bind_eq_bind, Option.bind_some, skipSpace_cons (c := ':') (by decide),
    hv, skipSpace_cons (c := ',') (by decide), hr, Option.map_some]

end Steps

theorem readItems_listed {items : List Value} (hne : items ≠ [])
    (hitems : ∀ v ∈ items, ReadsBack v) (level fuel depth : Nat) (rest : List Char)
    (hfuel : (listed level (Value.indentedItems (level + 1) items)).length ≤ fuel)
    (hdepth : (listed level (Value.indentedItems (level + 1) items)).length ≤ depth) :
    readItems fuel depth
      ((listed level (Value.indentedItems (level + 1) items)).toList ++ ']' :: rest) =
        some (items, rest) := by
  -- A round of the reader costs one unit of fuel, and the break before the item pays for it.
  induction items generalizing fuel with
  | nil => exact absurd rfl hne
  | cons v items ih =>
    have hv := hitems v List.mem_cons_self
    have hpos := length_lineBreak_pos (level + 1)
    cases items with
    | nil =>
      simp only [Value.indentedItems, listed_singleton, String.length_append,
        String.toList_append, List.append_assoc] at hfuel hdepth ⊢
      obtain ⟨fuel, rfl⟩ := Nat.exists_eq_add_of_lt (show 0 < fuel by omega)
      rw [Nat.zero_add]
      refine readItems_last (hv.after_blanks (fun _ hc => isSpace_lineBreak hc) (by omega)
        (by omega) (delimited_lineBreak level _)) ?_
      rw [skipSpace_append (fun _ hc => isSpace_lineBreak hc), skipSpace_cons (by decide)]
    | cons w items =>
      have hrest := fun n => ih (List.cons_ne_nil w items)
        (fun u hu => hitems u (List.mem_cons_of_mem v hu)) n
      simp only [Value.indentedItems, listed_cons_cons, String.length_append,
        String.toList_append, List.append_assoc] at hfuel hdepth hrest ⊢
      obtain ⟨fuel, rfl⟩ := Nat.exists_eq_add_of_lt (show 0 < fuel by omega)
      rw [Nat.zero_add]
      exact readItems_more (hv.after_blanks (fun _ hc => isSpace_lineBreak hc) (by omega)
        (by omega) (delimited_comma _)) (hrest fuel (by omega) (by omega))

theorem readFields_listed {fields : List (String × Value)} (hne : fields ≠ [])
    (hfields : ∀ f ∈ fields, ReadsBack f.2) (level fuel depth : Nat) (rest : List Char)
    (hfuel : (listed level (Value.indentedFields (level + 1) fields)).length ≤ fuel)
    (hdepth : (listed level (Value.indentedFields (level + 1) fields)).length ≤ depth) :
    readFields fuel depth
      ((listed level (Value.indentedFields (level + 1) fields)).toList ++ '\x7d' :: rest) =
        some (fields, rest) := by
  have hcolon : ": ".toList = [':', ' '] := rfl
  have hblank : ∀ c ∈ [' '], isSpace c = true := by
    intro c hc
    rw [List.mem_singleton.1 hc]
    rfl
  induction fields generalizing fuel with
  | nil => exact absurd rfl hne
  | cons f fields ih =>
    obtain ⟨name, v⟩ := f
    have hv : ReadsBack v := hfields (name, v) List.mem_cons_self
    have hpos := length_lineBreak_pos (level + 1)
    cases fields with
    | nil =>
      simp only [Value.indentedFields, listed_singleton, String.length_append,
        String.toList_append, List.append_assoc, hcolon, List.cons_append] at hfuel hdepth ⊢
      obtain ⟨fuel, rfl⟩ := Nat.exists_eq_add_of_lt (show 0 < fuel by omega)
      rw [Nat.zero_add]
      refine readFields_last (fun _ hc => isSpace_lineBreak hc) (hv.after_blanks hblank (by omega)
        (by omega) (delimited_lineBreak level _)) ?_
      rw [skipSpace_append (fun _ hc => isSpace_lineBreak hc), skipSpace_cons (by decide)]
    | cons g fields =>
      have hrest := fun n => ih (List.cons_ne_nil g fields)
        (fun f hf => hfields f (List.mem_cons_of_mem (name, v) hf)) n
      simp only [Value.indentedFields, listed_cons_cons, String.length_append,
        String.toList_append, List.append_assoc, hcolon, List.cons_append] at hfuel hdepth hrest ⊢
      obtain ⟨fuel, rfl⟩ := Nat.exists_eq_add_of_lt (show 0 < fuel by omega)
      rw [Nat.zero_add]
      exact readFields_more (fun _ hc => isSpace_lineBreak hc) (hv.after_blanks hblank (by omega)
        (by omega) (delimited_comma _)) (hrest fuel (by omega) (by omega))

/-- A value whose numbers, if any, are natural ones. -/
inductive Integral : Value → Prop where
  | null : Integral .null
  | bool (b : Bool) : Integral (.bool b)
  | natural (n : Nat) : Integral (.natural n)
  | string (s : String) : Integral (.string s)
  | array {items : List Value} (h : ∀ v ∈ items, Integral v) : Integral (.array items)
  | object {fields : List (String × Value)} (h : ∀ f ∈ fields, Integral f.2) :
    Integral (.object fields)

theorem readsBack_natural (n : Nat) : ReadsBack (.natural n) := by
  intro level fuel depth rest hfuel _ hrest
  have hread := readNumber_toDigits n hrest
  obtain ⟨c, cs, hcs⟩ := List.exists_cons_of_ne_nil (Nat.toDigits_ne_nil (b := 10) (n := n))
  have hdigit : c.isDigit = true :=
    Nat.isDigit_of_mem_toDigits (by decide) (by decide) (hcs ▸ List.mem_cons_self)
  rw [Value.indentedAt, Nat.toString_eq_ofList_toDigits, hcs, String.length_ofList,
    List.length_cons] at hfuel
  rw [Value.indentedAt, Nat.toString_eq_ofList_toDigits, String.toList_ofList]
  rw [hcs, List.cons_append] at hread ⊢
  obtain ⟨fuel, rfl⟩ := Nat.exists_eq_add_of_lt (show 0 < fuel by omega)
  have hnot : ∀ d : Char, d.isDigit = false → c ≠ d := by
    rintro d hd rfl
    exact absurd hdigit (by simp [hd])
  have hspace : isSpace c = false := by
    simp only [isSpace, hnot ' ' (by decide), hnot '\n' (by decide), hnot '\t' (by decide),
      hnot '\r' (by decide), or_self, decide_false]
  rw [Nat.zero_add, readValue, skipSpace_cons hspace]
  -- each of the other cases starts with a character that is no digit
  split
  case h_7 => exact hread
  all_goals
    next heq =>
      exact absurd (List.cons.inj heq).1 (hnot _ (by decide))

theorem indentedItems_eq_nil_iff {level : Nat} {items : List Value} :
    Value.indentedItems level items = [] ↔ items = [] := by
  cases items <;> simp [Value.indentedItems]

theorem indentedFields_eq_nil_iff {level : Nat} {fields : List (String × Value)} :
    Value.indentedFields level fields = [] ↔ fields = [] := by
  cases fields <;> simp [Value.indentedFields]

/-- A list costs one step and one level for its brackets; what is between them is shorter. -/
theorem readsBack_of_bracketed {v : Value} {opening closing : String} {entries : Nat → List String}
    (hopening : opening.length = 1) (hclosing : closing.length = 1)
    (htext : ∀ level, v.indentedAt level = Value.bracketed opening closing level (entries level))
    (hempty : ∀ level fuel depth rest, entries level = [] →
      readValue (fuel + 1) (depth + 1) ((opening ++ closing).toList ++ rest) = some (v, rest))
    (hlisted : ∀ level fuel depth rest, entries level ≠ [] →
      (listed level (entries level)).length ≤ fuel → (listed level (entries level)).length ≤ depth →
        readValue (fuel + 1) (depth + 1)
          ((opening ++ listed level (entries level) ++ closing).toList ++ rest) = some (v, rest)) :
    ReadsBack v := by
  intro level fuel depth rest hfuel hdepth _
  rw [htext] at hfuel hdepth ⊢
  by_cases hnil : entries level = []
  · rw [Value.bracketed, if_pos (List.isEmpty_iff.2 hnil)] at hfuel hdepth ⊢
    rw [String.length_append] at hfuel hdepth
    obtain ⟨fuel, rfl⟩ := Nat.exists_eq_add_of_lt (show 0 < fuel by omega)
    obtain ⟨depth, rfl⟩ := Nat.exists_eq_add_of_lt (show 0 < depth by omega)
    rw [Nat.zero_add, Nat.zero_add]
    exact hempty level fuel depth rest hnil
  · rw [bracketed_eq _ _ _ hnil] at hfuel hdepth ⊢
    rw [String.length_append, String.length_append] at hfuel hdepth
    obtain ⟨fuel, rfl⟩ := Nat.exists_eq_add_of_lt (show 0 < fuel by omega)
    obtain ⟨depth, rfl⟩ := Nat.exists_eq_add_of_lt (show 0 < depth by omega)
    rw [Nat.zero_add, Nat.zero_add]
    exact hlisted level fuel depth rest hnil (by omega) (by omega)

theorem readsBack_array {items : List Value} (hitems : ∀ v ∈ items, ReadsBack v) :
    ReadsBack (.array items) := by
  refine readsBack_of_bracketed (show "[".length = 1 from rfl) (show "]".length = 1 from rfl)
    (fun level => by rw [Value.indentedAt]) ?_ ?_
  · intro level fuel depth rest hnil
    obtain rfl := indentedItems_eq_nil_iff.1 hnil
    rfl
  · intro level fuel depth rest hne hfuel hdepth
    have hitem := readItems_listed (mt indentedItems_eq_nil_iff.2 hne) hitems level fuel depth rest
      hfuel hdepth
    simp only [String.toList_append, List.append_assoc]
    exact readValue_array hitem

theorem readsBack_object {fields : List (String × Value)} (hfields : ∀ f ∈ fields, ReadsBack f.2) :
    ReadsBack (.object fields) := by
  refine readsBack_of_bracketed (show "\x7b".length = 1 from rfl) (show "\x7d".length = 1 from rfl)
    (fun level => by rw [Value.indentedAt]) ?_ ?_
  · intro level fuel depth rest hnil
    obtain rfl := indentedFields_eq_nil_iff.1 hnil
    rfl
  · intro level fuel depth rest hne hfuel hdepth
    have hfield := readFields_listed (mt indentedFields_eq_nil_iff.2 hne) hfields level fuel depth
      rest hfuel hdepth
    simp only [String.toList_append, List.append_assoc]
    exact readValue_object hfield

/-- A text without blanks in front that is read at once, whatever the budget. -/
theorem readsBack_of_step {v : Value} (hpos : ∀ level, 0 < (v.indentedAt level).length)
    (hstep : ∀ level fuel depth rest,
      readValue (fuel + 1) depth ((v.indentedAt level).toList ++ rest) = some (v, rest)) :
    ReadsBack v := by
  intro level fuel depth rest hfuel _ _
  have hfuelPos := Nat.lt_of_lt_of_le (hpos level) hfuel
  obtain ⟨fuel, rfl⟩ := Nat.exists_eq_add_of_lt hfuelPos
  rw [Nat.zero_add]
  exact hstep level fuel depth rest

theorem readsBack_string (s : String) : ReadsBack (.string s) := by
  obtain ⟨inner, hinner, hread⟩ := exists_quote s
  refine readsBack_of_step (fun level => ?_) fun level fuel depth rest => ?_
  · rw [Value.indentedAt, ← String.length_toList, hinner]
    exact Nat.succ_pos _
  · rw [Value.indentedAt, hinner, List.cons_append, readValue, skipSpace_cons (by decide)]
    simp only [hread, Option.map_some]

theorem Integral.readsBack {v : Value} (h : Integral v) : ReadsBack v := by
  induction h with
  | null =>
    refine readsBack_of_step (fun level => ?_) fun level fuel depth rest => ?_
    · rw [Value.indentedAt]
      decide
    · rw [Value.indentedAt]
      rfl
  | bool b =>
    refine readsBack_of_step (fun level => ?_) fun level fuel depth rest => ?_
    · rw [Value.indentedAt]
      cases b <;> decide
    · rw [Value.indentedAt]
      cases b <;> rfl
  | natural n => exact readsBack_natural n
  | string s => exact readsBack_string s
  | array _ ih => exact readsBack_array ih
  | object _ ih => exact readsBack_object ih

/-- Reading undoes indented printing. -/
theorem read_indented {v : Value} (h : Integral v) : read v.indented = some v := by
  have hlength : v.indented.toList.length = v.indented.length := String.length_toList
  have hread : readValue (2 * v.indented.toList.length + 2) v.indented.length v.indented.toList =
      some (v, []) := by
    have hback := h.readsBack 0 (2 * v.indented.toList.length + 2) v.indented.length []
      (by rw [hlength, Value.indented]; omega) (Nat.le_refl _) (by rintro c ⟨⟩)
    rwa [List.append_nil] at hback
  rw [read, readWithin]
  simp only [hread]
  rfl

end Json

end SymbolTable
