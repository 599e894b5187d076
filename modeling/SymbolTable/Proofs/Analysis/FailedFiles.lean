import Mathlib.Data.List.Basic
import Mathlib.Data.List.Forall2
import SymbolTable.Analysis.Files
import SymbolTable.Proofs.Analysis.Shape

/-!
# Files that fail leave no trace but their report

A file that cannot be read or parsed is reported and left out. What is analyzed, and the revision it
is filed under, are those of the other files alone: `analyzeFiles_isolated`. Which files fail, what
is kept of the others and what the reports say is put in terms of the contents of the files and of
the parser. The revision of an application is not asked for by any walk, so that the analysis itself
is the plain one of the units.
-/

namespace SymbolTable

/-- The same application, filed under a revision. -/
def Application.withRevision (app : Application) (id : String) : Application :=
  { app with revisionId := some id }

/-! ## The revision of an application -/

namespace Analyzer

variable {a a' : Analyzer} {id : String}

/-- A walk is told nothing of the revision of the application, nor of what its scope was used for.
-/
theorem absorb_withRevision (hgrown : a.application.components.Grown)
    (h : a'.application = a.application.withRevision id) (phase : Phase) (u : CompilationUnit) :
    (a'.absorb phase u).1.application = (a.absorb phase u).1.application.withRevision id ∧
      (a'.absorb phase u).2 = (a.absorb phase u).2 := by
  have henriches : a.application.Enriches a'.application := by
    rw [h]
    exact ⟨rfl, rfl, Tree.Alike.refl _⟩
  have htree : (a'.scope.build a'.application phase u).1 =
      (a.scope.build a.application phase u).1 :=
    (henriches.corresponds hgrown).build_eq phase a.scope a'.scope u
  have happ : (a'.absorb phase u).1.application =
      (a.absorb phase u).1.application.withRevision id := by
    rw [absorb_application, absorb_application, htree, h]
    rfl
  refine ⟨happ, ?_⟩
  change [Progress.fileWalked phase u.sourceName ((a'.scope.build a'.application phase u).1.size - 1),
    .merged phase u.sourceName ((a'.absorb phase u).1.application.components.size - 1)] = _
  rw [htree, happ]
  rfl

theorem absorbAll_withRevision (hgrown : a.application.components.Grown)
    (h : a'.application = a.application.withRevision id) (phase : Phase)
    (units : List CompilationUnit) :
    (a'.absorbAll phase units).1.application =
        (a.absorbAll phase units).1.application.withRevision id ∧
      (a'.absorbAll phase units).2 = (a.absorbAll phase units).2 := by
  induction units generalizing a a' with
  | nil => exact ⟨h, rfl⟩
  | cons u rest ih =>
    obtain ⟨happ, hprogress⟩ := absorb_withRevision hgrown h phase u
    obtain ⟨hrest, hmore⟩ := ih (grown_absorb hgrown phase u) happ
    rw [absorbAll_cons, absorbAll_cons]
    refine ⟨hrest, ?_⟩
    change (a'.absorb phase u).2 ++ ((a'.absorb phase u).1.absorbAll phase rest).2 = _
    rw [hprogress, hmore]
    rfl

theorem run_withRevision (hgrown : a.application.components.Grown)
    (h : a'.application = a.application.withRevision id) (units : List CompilationUnit) :
    a'.run units = ((a.run units).1.withRevision id, (a.run units).2) := by
  obtain ⟨hdeclared, hfirst⟩ := absorbAll_withRevision hgrown h .declaration units
  have hmiddle : (a.runPass .declaration units).1.application.components.Grown :=
    grown_absorbAll hgrown .declaration units
  have happ : (a'.runPass .declaration units).1.application =
      (a.runPass .declaration units).1.application.withRevision id := hdeclared
  obtain ⟨hstructural, hsecond⟩ := absorbAll_withRevision hmiddle happ .structural units
  have hprogress : (a'.run units).2 = (a.run units).2 := by
    change (.passStart .declaration units.length :: (a'.absorbAll .declaration units).2) ++
      (.passStart .structural units.length ::
        ((a'.runPass .declaration units).1.absorbAll .structural units).2) = _
    rw [hfirst, hsecond]
    rfl
  exact Prod.ext hstructural hprogress

/-! ## Reports of a run -/

theorem ne_parseFailed_absorbAll (phase : Phase) (units : List CompilationUnit) :
    ∀ e ∈ (a.absorbAll phase units).2, ∀ path error, e ≠ .parseFailed path error := by
  induction units generalizing a with
  | nil => exact fun e he => absurd he List.not_mem_nil
  | cons u rest ih =>
    intro e he
    have hevents : e ∈ (a.absorb phase u).2 ++ ((a.absorb phase u).1.absorbAll phase rest).2 := he
    rcases List.mem_append.1 hevents with he | he
    · rcases List.mem_pair.1 he with rfl | rfl <;> exact fun _ _ => Progress.noConfusion
    · exact ih e he

/-- A run starts with its first pass and parses nothing. -/
theorem progress_run (a : Analyzer) (units : List CompilationUnit) :
    (a.run units).2.head? = some (.passStart .declaration units.length) ∧
      ∀ e ∈ (a.run units).2, ∀ path error, e ≠ .parseFailed path error := by
  refine ⟨rfl, fun e he => ?_⟩
  have hpasses : e ∈ (a.runPass .declaration units).2 ++
      ((a.runPass .declaration units).1.runPass .structural units).2 := he
  rcases List.mem_append.1 hpasses with he | he
  · rcases List.mem_cons.1 he with rfl | he
    · exact fun _ _ => Progress.noConfusion
    · exact ne_parseFailed_absorbAll .declaration units e he
  · rcases List.mem_cons.1 he with rfl | he
    · exact fun _ _ => Progress.noConfusion
    · exact ne_parseFailed_absorbAll .structural units e he

end Analyzer

/-! ## Files that fail and files that are kept -/

namespace Java

variable {source sourceName : String} {root : Node} {e : ParseError}

/-- A tolerant reading fails only for want of declarations. -/
theorem eq_nothingRecovered_of_readTree {source : List Char}
    (h : readTree .tolerant source root sourceName = .error e) : e = .nothingRecovered := by
  rw [readTree, if_neg (by simp)] at h
  dsimp only at h
  split at h
  · exact (Except.error.inj h).symm
  · cases h

theorem eq_nothingRecovered (h : parseWithFallback source sourceName = .error e) :
    e = .nothingRecovered := by
  rw [parseWithFallback] at h
  cases hstrict : parse .strict source sourceName with
  | ok u =>
    rw [hstrict] at h
    cases h
  | error reason =>
    rw [hstrict] at h
    cases htolerant : parse .tolerant source sourceName with
    | ok u =>
      rw [htolerant] at h
      cases h
    | error reason =>
      rw [htolerant] at h
      obtain rfl := Except.error.inj h
      exact eq_nothingRecovered_of_readTree htolerant

end Java

namespace LoadedFile

/-- The file was read, and the parser makes a unit of its text. -/
def parses (f : LoadedFile) : Bool :=
  match f.content with
  | .error _ => false
  | .ok text => (Java.parseWithFallback text f.path.text).isOk

/-- The file was read, and `p` is its text with what the parser makes of it. -/
structure Yields (f : LoadedFile) (p : ParsedSource) : Prop where
  content : f.content = .ok p.content
  parsed : Java.parseWithFallback p.content f.path.text = .ok (p.unit, p.strategy)

/-- The report on a file that was not read, or in whose text the parser finds no declaration. -/
inductive IsReportedBy (f : LoadedFile) : Progress → Prop
  | unreadable {e : ReadError} (h : f.content = .error e) :
    f.IsReportedBy (.parseFailed f.path.text
      ("Failed to read file: " ++ f.path.text ++ ": " ++ e.reason))
  | unparsable {text : String} {e : Java.ParseError} (h : f.content = .ok text)
      (hparse : Java.parseWithFallback text f.path.text = .error e) :
    f.IsReportedBy (.parseFailed f.path.text
      ("Failed to parse " ++ f.path.text ++ ": " ++
        ("no declarations recovered from " ++ f.path.text)))

/-- The file with the text that was read. -/
def source (f : LoadedFile) (p : ParsedSource) : SourceFile := ⟨f.path, p.content⟩

/-- A file either yields a text with its unit or is reported. -/
theorem parse_cases (f : LoadedFile) :
    (f.parses = true ∧ ∃ p, f.Yields p ∧ f.parse.outcome = .ok p) ∨
    (f.parses = false ∧ ∃ failure, f.parse.outcome = .error failure ∧
      f.IsReportedBy (.parseFailed f.path.text (failure.message f.path))) := by
  unfold parses LoadedFile.parse
  cases hcontent : f.content with
  | error e => exact .inr ⟨rfl, _, rfl, .unreadable hcontent⟩
  | ok text =>
    dsimp only
    cases hparse : Java.parseWithFallback text f.path.text with
    | ok parsed => exact .inl ⟨rfl, ⟨text, parsed.1, parsed.2⟩, ⟨hcontent, hparse⟩, rfl⟩
    | error e =>
      obtain rfl := Java.eq_nothingRecovered hparse
      exact .inr ⟨rfl, .unparsable .nothingRecovered, rfl, .unparsable hcontent hparse⟩

/-- What is kept of the files. -/
def kept (files : List LoadedFile) : List ParsedSource :=
  files.filterMap (·.parse.outcome.toOption)

def sources (files : List LoadedFile) : List SourceFile :=
  (files.map parse).filterMap ParsedFile.source?

def units (files : List LoadedFile) : List CompilationUnit :=
  (files.map parse).filterMap ParsedFile.unit?

def reports (files : List LoadedFile) : List Progress :=
  (files.map parse).filterMap ParsedFile.failure?

section Cons

variable {f : LoadedFile} {p : ParsedSource} {e : FileFailure} (files : List LoadedFile)

theorem kept_cons_of_ok (h : f.parse.outcome = .ok p) : kept (f :: files) = p :: kept files :=
  List.filterMap_cons_some (by rw [h]; rfl)

theorem kept_cons_of_error (h : f.parse.outcome = .error e) : kept (f :: files) = kept files :=
  List.filterMap_cons_none (by rw [h]; rfl)

theorem sources_cons_of_ok (h : f.parse.outcome = .ok p) :
    sources (f :: files) = f.source p :: sources files :=
  List.filterMap_cons_some (by rw [ParsedFile.source?, h]; rfl)

theorem sources_cons_of_error (h : f.parse.outcome = .error e) :
    sources (f :: files) = sources files :=
  List.filterMap_cons_none (by rw [ParsedFile.source?, h])

theorem reports_cons_of_ok (h : f.parse.outcome = .ok p) : reports (f :: files) = reports files :=
  List.filterMap_cons_none (by rw [ParsedFile.failure?, h])

theorem reports_cons_of_error (h : f.parse.outcome = .error e) :
    reports (f :: files) = .parseFailed f.path.text (e.message f.path) :: reports files :=
  List.filterMap_cons_some (by rw [ParsedFile.failure?, h]; rfl)

end Cons

variable (files : List LoadedFile)

theorem forall₂_yields : List.Forall₂ Yields (files.filter parses) (kept files) := by
  induction files with
  | nil => exact .nil
  | cons f files ih =>
    rcases f.parse_cases with ⟨hparses, p, hyields, houtcome⟩ | ⟨hparses, failure, houtcome, -⟩
    · rw [List.filter_cons_of_pos hparses, kept_cons_of_ok files houtcome]
      exact .cons hyields ih
    · rw [List.filter_cons_of_neg (by simp [hparses]), kept_cons_of_error files houtcome]
      exact ih

theorem forall₂_isReportedBy :
    List.Forall₂ IsReportedBy (files.filter fun f => !f.parses) (reports files) := by
  induction files with
  | nil => exact .nil
  | cons f files ih =>
    rcases f.parse_cases with ⟨hparses, p, -, houtcome⟩ | ⟨hparses, failure, houtcome, hreport⟩
    · rw [List.filter_cons_of_neg (by simp [hparses]), reports_cons_of_ok files houtcome]
      exact ih
    · rw [List.filter_cons_of_pos (by simp [hparses]), reports_cons_of_error files houtcome]
      exact .cons hreport ih

theorem sources_eq : sources files = List.zipWith source (files.filter parses) (kept files) := by
  induction files with
  | nil => rfl
  | cons f files ih =>
    rcases f.parse_cases with ⟨hparses, p, -, houtcome⟩ | ⟨hparses, failure, houtcome, -⟩
    · rw [List.filter_cons_of_pos hparses, kept_cons_of_ok files houtcome,
        sources_cons_of_ok files houtcome, List.zipWith_cons_cons, ih]
    · rw [List.filter_cons_of_neg (by simp [hparses]), kept_cons_of_error files houtcome,
        sources_cons_of_error files houtcome, ih]

theorem units_eq : units files = (kept files).map (·.unit) := by
  rw [units, kept, List.filterMap_map, List.map_filterMap]
  refine List.filterMap_congr fun f _ => ?_
  rw [Function.comp_apply, ParsedFile.unit?]
  cases f.parse.outcome <;> rfl

/-- Nothing is kept of files that fail. -/
theorem kept_filter_parses : kept (files.filter parses) = kept files := by
  rw [kept, kept, List.filterMap_filter]
  refine List.filterMap_congr fun f _ => ?_
  rcases f.parse_cases with ⟨hparses, -⟩ | ⟨hparses, failure, houtcome, -⟩
  · exact if_pos hparses
  · rw [houtcome, hparses]
    rfl

-- What is analyzed is a function of what is kept, so both sides of the isolation meet there.
theorem units_filter_parses : units (files.filter parses) = units files := by
  rw [units_eq, units_eq, kept_filter_parses]

theorem sources_filter_parses : sources (files.filter parses) = sources files := by
  rw [sources_eq, sources_eq, kept_filter_parses, List.filter_filter]
  simp only [Bool.and_self]

end LoadedFile

/-! ## Counting -/

/-- A kept file counts as parsed, and as retried if it took the tolerant parse. Any other counts as
an error. -/
theorem ParseMetrics.foldl_record (m : ParseMetrics) (files : List LoadedFile) :
    (files.map LoadedFile.parse).foldl record m =
      { filesParsed := m.filesParsed + (LoadedFile.kept files).length
        retried := m.retried + (LoadedFile.kept files).countP (·.strategy = .tolerant)
        parseErrors := m.parseErrors + (LoadedFile.reports files).length } := by
  induction files generalizing m with
  | nil => rfl
  | cons f files ih =>
    rw [List.map_cons, List.foldl_cons, ih, record]
    cases houtcome : f.parse.outcome with
    | error failure =>
      rw [LoadedFile.kept_cons_of_error files houtcome,
        LoadedFile.reports_cons_of_error files houtcome, List.length_cons]
      simp only [Nat.add_assoc, Nat.add_comm 1]
    | ok p =>
      rw [LoadedFile.kept_cons_of_ok files houtcome, LoadedFile.reports_cons_of_ok files houtcome,
        List.length_cons, List.countP_cons]
      cases hstrategy : p.strategy <;>
        simp [hstrategy, Nat.add_assoc, Nat.add_comm 1]

/-! ## The analysis of files -/

/-- An analysis of the units in `kept` alone, with `reports` ahead of it and both counted. -/
structure FileAnalysis.MadeOf (result : FileAnalysis) (naming : Naming) (libraries : List Library)
    (kept : List ParsedSource) (reports : List Progress) : Prop where
  application : result.application =
    (analyze naming libraries (kept.map (·.unit))).1.withRevision result.summary.revisionId
  progress : result.progress = reports ++ (analyze naming libraries (kept.map (·.unit))).2
  start : (analyze naming libraries (kept.map (·.unit))).2.head? =
    some (.passStart .declaration kept.length)
  later : ∀ e ∈ (analyze naming libraries (kept.map (·.unit))).2,
    ∀ path error, e ≠ .parseFailed path error
  parsed : result.summary.parser.filesParsed = kept.length
  retried : result.summary.parser.retried = kept.countP (·.strategy = .tolerant)
  retried_le : result.summary.parser.retried ≤ result.summary.parser.filesParsed
  errors : result.summary.parser.parseErrors = reports.length
  files : result.summary.files =
    result.summary.parser.filesParsed + result.summary.parser.parseErrors
  components : result.summary.components + 1 = result.application.components.size

section Files

variable (naming : Naming) (libraries : List Library) (files : List LoadedFile)

theorem analyzeFiles_eq :
    (analyzeFiles naming libraries files).application =
        (analyze naming libraries (LoadedFile.units files)).1.withRevision
          (Revision.id (LoadedFile.sources files)) ∧
      (analyzeFiles naming libraries files).progress =
        LoadedFile.reports files ++ (analyze naming libraries (LoadedFile.units files)).2 := by
  have hgrown : (Analyzer.withLibraries naming libraries).application.components.Grown := by
    rw [(Analyzer.withLibraries_application naming libraries).2]
    exact Tree.grown_empty
  have hset : ((Analyzer.withLibraries naming libraries).setRevision
      (Revision.id (LoadedFile.sources files))).application =
        (Analyzer.withLibraries naming libraries).application.withRevision
          (Revision.id (LoadedFile.sources files)) := rfl
  have hrun := Analyzer.run_withRevision hgrown hset (LoadedFile.units files)
  refine ⟨congrArg Prod.fst hrun, ?_⟩
  exact congrArg (LoadedFile.reports files ++ ·) (congrArg Prod.snd hrun)

theorem revisionId_analyzeFiles : (analyzeFiles naming libraries files).summary.revisionId =
    Revision.id (LoadedFile.sources files) := rfl

theorem parser_analyzeFiles : (analyzeFiles naming libraries files).summary.parser =
    { filesParsed := (LoadedFile.kept files).length
      retried := (LoadedFile.kept files).countP (·.strategy = .tolerant)
      parseErrors := (LoadedFile.reports files).length } := by
  have hfold := ParseMetrics.foldl_record {} files
  simp only [Nat.zero_add] at hfold
  exact hfold

theorem madeOf_analyzeFiles : (analyzeFiles naming libraries files).MadeOf naming libraries
    (LoadedFile.kept files) (LoadedFile.reports files) := by
  obtain ⟨happ, hprogress⟩ := analyzeFiles_eq naming libraries files
  rw [LoadedFile.units_eq] at happ hprogress
  obtain ⟨hstart, hlater⟩ := (Analyzer.withLibraries naming libraries).progress_run
    ((LoadedFile.kept files).map (·.unit))
  rw [List.length_map] at hstart
  have hparser := parser_analyzeFiles naming libraries files
  have hsize : 0 < (analyzeFiles naming libraries files).application.components.size := by
    rw [happ]
    exact (grown_analyze naming libraries _).root_lt
  have hfiles : (analyzeFiles naming libraries files).summary.files =
      (LoadedFile.kept files).length + (LoadedFile.reports files).length := by
    rw [← (LoadedFile.forall₂_yields files).length_eq,
      ← (LoadedFile.forall₂_isReportedBy files).length_eq,
      ← List.length_eq_length_filter_add LoadedFile.parses]
    exact List.length_map _
  exact {
    application := happ
    progress := hprogress
    start := hstart
    later := hlater
    parsed := by rw [hparser]
    retried := by rw [hparser]
    retried_le := by
      rw [hparser]
      exact List.countP_le_length
    errors := by rw [hparser]
    files := by rw [hparser, hfiles]
    components := Nat.sub_add_cancel hsize }

/-- Files that were not read or that the parser makes nothing of change neither the application nor
the revision. The application is that of the units of the other files, in their order, and the
revision that of their texts. Each file that fails is reported once with its reason, in order and
before the first pass, and the summary counts those files apart from the others. -/
theorem analyzeFiles_isolated :
    (analyzeFiles naming libraries files).application =
        (analyzeFiles naming libraries (files.filter LoadedFile.parses)).application ∧
      (analyzeFiles naming libraries files).summary.revisionId =
        (analyzeFiles naming libraries (files.filter LoadedFile.parses)).summary.revisionId ∧
      ∃ kept reports,
        List.Forall₂ LoadedFile.Yields (files.filter LoadedFile.parses) kept ∧
        List.Forall₂ LoadedFile.IsReportedBy (files.filter fun f => !f.parses) reports ∧
        (analyzeFiles naming libraries files).MadeOf naming libraries kept reports ∧
        (analyzeFiles naming libraries files).summary.revisionId =
          Revision.id (List.zipWith LoadedFile.source (files.filter LoadedFile.parses) kept) := by
  obtain ⟨happ, -⟩ := analyzeFiles_eq naming libraries files
  obtain ⟨happ', -⟩ := analyzeFiles_eq naming libraries (files.filter LoadedFile.parses)
  rw [LoadedFile.units_filter_parses, LoadedFile.sources_filter_parses] at happ'
  refine ⟨happ.trans happ'.symm, ?_, LoadedFile.kept files, LoadedFile.reports files,
    LoadedFile.forall₂_yields files, LoadedFile.forall₂_isReportedBy files,
    madeOf_analyzeFiles naming libraries files, ?_⟩
  · rw [revisionId_analyzeFiles, revisionId_analyzeFiles, LoadedFile.sources_filter_parses]
  · rw [revisionId_analyzeFiles, LoadedFile.sources_eq]

end Files

/-! ## Failures between successes -/

def intactFile : LoadedFile := ⟨⟨"A.java"⟩, .ok "class A { }"⟩

def missingFile : LoadedFile := ⟨⟨"B.java"⟩, .error .notFound⟩

def unbalancedFile : LoadedFile := ⟨⟨"C.java"⟩, .ok "class C { ) }"⟩

def garbledFile : LoadedFile := ⟨⟨"D.java"⟩, .ok "%%% ??? @@@"⟩

def packagedFile : LoadedFile := ⟨⟨"E.java"⟩, .ok "package p; class E { }"⟩

/-- The files that fail stand between the others, of which `unbalancedFile` takes the tolerant
parse. -/
def mixedFiles : List LoadedFile :=
  [intactFile, missingFile, unbalancedFile, garbledFile, packagedFile]

theorem analyzeFiles_isolated_mixedFiles :
    mixedFiles.filter LoadedFile.parses = [intactFile, unbalancedFile, packagedFile] ∧
    mixedFiles.filter (fun f => !f.parses) = [missingFile, garbledFile] ∧
    ((analyzeFiles {} [] mixedFiles).application =
        (analyzeFiles {} [] [intactFile, unbalancedFile, packagedFile]).application ∧
      (analyzeFiles {} [] mixedFiles).summary.revisionId =
        (analyzeFiles {} [] [intactFile, unbalancedFile, packagedFile]).summary.revisionId ∧
      ∃ kept reports,
        List.Forall₂ LoadedFile.Yields [intactFile, unbalancedFile, packagedFile] kept ∧
        List.Forall₂ LoadedFile.IsReportedBy [missingFile, garbledFile] reports ∧
        (analyzeFiles {} [] mixedFiles).MadeOf {} [] kept reports ∧
        (analyzeFiles {} [] mixedFiles).summary.revisionId =
          Revision.id (List.zipWith LoadedFile.source [intactFile, unbalancedFile, packagedFile]
            kept)) ∧
    (analyzeFiles {} [] mixedFiles).progress.take 3 =
      [.parseFailed "B.java" "Failed to read file: B.java: No such file or directory (os error 2)",
        .parseFailed "D.java" "Failed to parse D.java: no declarations recovered from D.java",
        .passStart .declaration 3] ∧
    (analyzeFiles {} [] mixedFiles).summary.parser =
      { filesParsed := 3, retried := 1, parseErrors := 2 } := by
  obtain ⟨hintact, hmissing, hunbalanced, hgarbled, hpackaged⟩ :
      intactFile.parses = true ∧ missingFile.parses = false ∧ unbalancedFile.parses = true ∧
        garbledFile.parses = false ∧ packagedFile.parses = true := by decide +kernel
  have hkept : mixedFiles.filter LoadedFile.parses = [intactFile, unbalancedFile, packagedFile] := by
    simp [mixedFiles, hintact, hmissing, hunbalanced, hgarbled, hpackaged]
  have hdropped : mixedFiles.filter (fun f => !f.parses) = [missingFile, garbledFile] := by
    simp [mixedFiles, hintact, hmissing, hunbalanced, hgarbled, hpackaged]
  have hisolated := analyzeFiles_isolated {} [] mixedFiles
  rw [hkept, hdropped] at hisolated
  exact ⟨hkept, hdropped, hisolated, by decide +kernel, by decide +kernel⟩

end SymbolTable
