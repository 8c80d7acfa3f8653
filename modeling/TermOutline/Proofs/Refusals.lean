import TermOutline.Proofs.Runs

/-! # Refused documents

A document is refused with what the first stage finds that finds anything at all, and a document in
which no stage finds anything has a tree. The reports are well formed: they are in order, of one
category, and every diagnostic marks a stretch of a line of the document.
-/
namespace TermOutline

/-- What is wrong with a document: everything found by the first stage that finds anything. -/
def Document.findings (document : Document) (settings : Settings) : List Finding :=
  let tokens := document.text.tokens
  let lexical := lexicalFindings tokens
  if lexical.isEmpty then
    match readLines settings tokens with
    | .error _ => []
    | .ok pairs =>
      let grouping := pairs.flatMap Prod.snd
      if grouping.isEmpty then
        treeFindings document.text (clampDepths settings.maxDepth 0 (pairs.map Prod.fst))
      else grouping
  else lexical

inductive FoundBy (document : Document) (settings : Settings) : List Finding → Prop where
  | scanning (found : lexicalFindings document.text.tokens ≠ []) :
      FoundBy document settings (lexicalFindings document.text.tokens)
  | grouping {pairs : List (Line × List Finding)} (faultless : Faultless document.text.tokens)
      (closed : Closed .initial document.text.tokens)
      (read : readLines settings document.text.tokens = .ok pairs)
      (found : pairs.flatMap Prod.snd ≠ []) :
      FoundBy document settings (pairs.flatMap Prod.snd)
  | nesting {lines : List Line} (faultless : Faultless document.text.tokens)
      (closed : Closed .initial document.text.tokens)
      (read : LinesRead settings document.text.tokens lines) :
      FoundBy document settings
        (treeFindings document.text (clampDepths settings.maxDepth 0 lines))

theorem foundBy_findings (document : Document) (settings : Settings) :
    FoundBy document settings (document.findings settings) := by
  rw [Document.findings]
  by_cases lexical : lexicalFindings document.text.tokens = []
  · obtain ⟨faultless, closed⟩ := (lexicalFindings_eq_nil_iff _).1 lexical
    obtain ⟨pairs, read, attempts⟩ := readLines_spec settings faultless closed
    simp only [lexical, List.isEmpty_nil, if_true, read]
    by_cases quiet : pairs.flatMap Prod.snd = []
    · simp only [quiet, List.isEmpty_nil, if_true]
      refine .nesting faultless closed (attempts_read attempts ?_)
      intro pair member
      exact List.flatMap_eq_nil_iff.1 quiet pair member
    · rw [if_neg (by simpa using quiet)]
      exact .grouping faultless closed read quiet
  · rw [if_neg (by simpa using lexical)]
    exact .scanning lexical

theorem parse_eq_accept (document : Document) (settings : Settings) :
    ∃ tree : Tree, document.parse settings =
      (document.accept (document.findings settings) tree).mapError Failure.rejected := by
  have stage := foundBy_findings document settings
  generalize document.findings settings = findings at stage
  cases stage with
  | scanning found =>
    obtain ⟨finding, rest, same⟩ := List.exists_cons_of_ne_nil found
    obtain ⟨report, refused⟩ := accept_cons document finding rest
    -- a refused document has no tree, so any will do
    refine ⟨⟨[]⟩, ?_⟩
    have tokenized : document.tokenize = .error report := by
      rw [Document.tokenize]
      simp only [same, refused]
    rw [parse_of_tokenize_error tokenized, same, refused]
    rfl
  | @grouping pairs faultless closed read found =>
    obtain ⟨finding, rest, same⟩ := List.exists_cons_of_ne_nil found
    obtain ⟨report, refused⟩ := accept_cons document finding rest
    refine ⟨⟨[]⟩, ?_⟩
    have grouped : document.group settings document.text.tokens = .error (.rejected report) := by
      rw [Document.group, read]
      simp only [same, refused]
      rfl
    rw [parse_of_group_error faultless closed grouped, same, refused]
    rfl
  | nesting faultless closed read =>
    obtain ⟨tree, _, parsed⟩ := parse_of_linesRead faultless closed read
    exact ⟨tree, parsed⟩

theorem parse_ok_iff_findings (document : Document) (settings : Settings) :
    (∃ tree, document.parse settings = .ok tree) ↔ document.findings settings = [] := by
  obtain ⟨tree, parsed⟩ := parse_eq_accept document settings
  rw [parsed]
  constructor
  · rintro ⟨result, accepted⟩
    cases found : document.accept (document.findings settings) tree with
    | ok last => exact (accept_eq_ok found).1
    | error report =>
      rw [found] at accepted
      cases accepted
  · intro quiet
    rw [quiet]
    exact ⟨tree, rfl⟩

theorem parse_refused {document : Document} {settings : Settings} {failure : Failure}
    (h : document.parse settings = .error failure) : ∃ report : Report,
      failure = .rejected report ∧ report.toList = sortByStart
        ((document.findings settings).map fun finding => finding.diagnostic document.file) := by
  obtain ⟨tree, parsed⟩ := parse_eq_accept document settings
  have listed := reported_accept document (document.findings settings) tree
  rw [h] at parsed
  cases accepted : document.accept (document.findings settings) tree with
  | ok result =>
    rw [accepted] at parsed
    cases parsed
  | error report =>
    rw [accepted] at parsed listed
    cases parsed
    exact ⟨report, rfl, listed⟩

/-- The category of everything that a document is refused for. -/
def Document.refusalCategory (document : Document) : Category :=
  match document.tokenize with
  | .error _ => .lexical
  | .ok _ => .structural

theorem findings_cover (document : Document) (settings : Settings) :
    ∀ finding ∈ document.findings settings,
      finding.fault.category = document.refusalCategory ∧
        Covers document.text.tokens finding.span := by
  have stage := foundBy_findings document settings
  have passed : Faultless document.text.tokens → Closed .initial document.text.tokens →
      document.refusalCategory = .structural := by
    intro faultless closed
    rw [Document.refusalCategory, (tokenize_eq_ok_iff document).2 ⟨faultless, closed⟩]
  generalize document.findings settings = findings at stage
  cases stage with
  | scanning found =>
    have refused : document.refusalCategory = .lexical := by
      obtain ⟨finding, rest, same⟩ := List.exists_cons_of_ne_nil found
      obtain ⟨report, refused⟩ := accept_cons document finding rest
      rw [Document.refusalCategory, Document.tokenize]
      simp only [same, refused]
    rw [refused]
    exact lexicalFindings_covers document.text
  | grouping faultless closed read found =>
    rw [passed faultless closed]
    exact readLines_covers faultless closed read
  | nesting faultless closed read =>
    rw [passed faultless closed]
    exact treeFindings_covers read 0

/-- A report as a refused document gets it. -/
structure Report.WellFormed (document : Document) (report : Report) : Prop where
  nonempty : report.toList ≠ []
  sorted : report.toList.Pairwise fun one other => one.span.start ≤ other.span.start
  lexical : ∀ refused, document.tokenize = .error refused →
    ∀ diagnostic ∈ report.toList, diagnostic.category = .lexical
  structural : ∀ tokens, document.tokenize = .ok tokens →
    ∀ diagnostic ∈ report.toList, diagnostic.category = .structural
  file : ∀ diagnostic ∈ report.toList, diagnostic.file = document.file
  unplaced : ∀ diagnostic ∈ report.toList, diagnostic.placement = none
  inside : ∀ diagnostic ∈ report.toList, diagnostic.span.start < diagnostic.span.stop ∧
    diagnostic.span.stop ≤ document.text.byteLength
  marks : ∀ diagnostic ∈ report.toList, diagnostic.span.Marks document.text

theorem Span.Marks.bounds {span : Span} {text : Source} (h : span.Marks text) :
    span.start < span.stop ∧ span.stop ≤ text.byteLength := by
  obtain ⟨before, inside, after, rfl, nonempty, _, start, stop⟩ := h
  have size := byteLength_pos nonempty
  rw [Source.byteLength_append] at stop
  rw [start, stop, Source.byteLength_append, Source.byteLength_append]
  omega

theorem parse_error_wellFormed {document : Document} {settings : Settings} {failure : Failure}
    (h : document.parse settings = .error failure) :
    ∃ report : Report, failure = .rejected report ∧ report.WellFormed document := by
  obtain ⟨report, same, listed⟩ := parse_refused h
  refine ⟨report, same, ?_⟩
  have from_finding : ∀ diagnostic ∈ report.toList, ∃ finding ∈ document.findings settings,
      diagnostic = finding.diagnostic document.file := by
    intro diagnostic member
    rw [listed, mem_sortByStart] at member
    obtain ⟨finding, found, rfl⟩ := List.mem_map.1 member
    exact ⟨finding, found, rfl⟩
  have category : ∀ diagnostic ∈ report.toList,
      diagnostic.category = document.refusalCategory := by
    intro diagnostic member
    obtain ⟨finding, found, rfl⟩ := from_finding diagnostic member
    exact (findings_cover document settings finding found).1
  have marks : ∀ diagnostic ∈ report.toList, diagnostic.span.Marks document.text := by
    intro diagnostic member
    obtain ⟨finding, found, rfl⟩ := from_finding diagnostic member
    exact (findings_cover document settings finding found).2.marks
  refine ⟨by simp [Report.toList], ?_, ?_, ?_, ?_, ?_, ?_, marks⟩
  · rw [listed]
    exact (sortByStart_ordered _).sorted
  · intro refused tokenized diagnostic member
    rw [category diagnostic member, Document.refusalCategory, tokenized]
  · intro tokens tokenized diagnostic member
    rw [category diagnostic member, Document.refusalCategory, tokenized]
  · intro diagnostic member
    obtain ⟨finding, _, rfl⟩ := from_finding diagnostic member
    rfl
  · intro diagnostic member
    obtain ⟨finding, _, rfl⟩ := from_finding diagnostic member
    rfl
  · intro diagnostic member
    exact (marks diagnostic member).bounds

/-- A line that is too deep is found before the value above it, and reported after it. -/
theorem parse_error_wellFormed_at : ∃ report : Report,
    Document.parse ⟨"f", ['1', ' ', 'a', '\n', ' ', ' ', ' ', ' ', 'b']⟩ .default =
        .error (.rejected report) ∧
      report.toList.map Diagnostic.code = ["value_children", "deep_indent"] ∧
      report.WellFormed ⟨"f", ['1', ' ', 'a', '\n', ' ', ' ', ' ', ' ', 'b']⟩ := by
  have refused : Document.parse ⟨"f", ['1', ' ', 'a', '\n', ' ', ' ', ' ', ' ', 'b']⟩ .default =
      .error (.rejected ⟨Finding.diagnostic ⟨.valueChildren ['1'], ⟨0, 1⟩⟩ "f",
        [Finding.diagnostic ⟨.deepIndent 2 1, ⟨4, 8⟩⟩ "f"]⟩) := by
    decide +kernel
  obtain ⟨report, same, formed⟩ := parse_error_wellFormed refused
  cases same
  exact ⟨_, refused, rfl, formed⟩

end TermOutline
