import TermOutline.Parse
import TermOutline.Proofs.Replay

/-! # The agreement between the stages

A line of a text without lexical faults always groups, grouped lines can always be written down as
events, and those events can always be replayed over the tokens of the text. So reading a document
ends with a tree or with a report.
-/
namespace TermOutline

theorem insertByStart_ne_nil (diagnostic : Diagnostic) (rest : List Diagnostic) :
    insertByStart diagnostic rest ≠ [] := by
  cases rest with
  | nil => simp [insertByStart]
  | cons head rest =>
    rw [insertByStart]
    split <;> simp

theorem accept_nil {α : Type} (document : Document) (result : α) :
    document.accept [] result = .ok result := rfl

theorem accept_cons (document : Document) (finding : Finding) (rest : List Finding) :
    ∃ report, ∀ {α : Type} (result : α),
      document.accept (finding :: rest) result = .error report := by
  cases hs : sortByStart
      ((finding :: rest).map fun finding => finding.diagnostic document.file) with
  | nil => exact absurd hs (insertByStart_ne_nil _ _)
  | cons first others =>
    refine ⟨⟨first, others⟩, ?_⟩
    intro α result
    rw [Document.accept, Report.ofFindings?, Collector.finish, hs]
    rfl

theorem accept_eq_ok {α : Type} {document : Document} {findings : List Finding} {result last : α}
    (h : document.accept findings result = .ok last) : findings = [] ∧ result = last := by
  cases findings with
  | nil => exact ⟨rfl, Except.ok.inj h⟩
  | cons finding rest =>
    obtain ⟨report, refused⟩ := accept_cons document finding rest
    rw [refused] at h
    cases h

theorem tokenize_eq_ok_iff (document : Document) :
    document.tokenize = .ok document.text.tokens ↔
      Faultless document.text.tokens ∧ Closed .initial document.text.tokens := by
  rw [← lexicalFindings_eq_nil_iff, Document.tokenize]
  constructor
  · intro h
    exact (accept_eq_ok h).1
  · intro h
    rw [h, accept_nil]

/-- The lines of a text that say something, with the spaces they start with. -/
def contentLines (tokens : List Token) : List (List Token) :=
  (splitLines tokens).filter fun line => !(content line).isEmpty

/-- A line read from its tokens without a fault. -/
structure Line.Reads (settings : Settings) (tokens : List Token) (line : Line) : Prop where
  nonempty : line.items ≠ []
  sound : itemsSound line.items
  made : itemTokens line.items = content tokens
  commas : lineStrayCommas line.items = []
  indent : line.indent = indentSpan tokens
  depth : line.indent.length = line.depth * settings.indentWidth
  span : ∃ first rest, trimTrivia tokens = first :: rest ∧ line.span = tokenSpan first rest

theorem trimTrivia_eq_nil {tokens : List Token} (h : content tokens = []) :
    trimTrivia tokens = [] := by
  have all : ∀ t ∈ tokens, t.isTrivia = true := by
    simpa [content] using h
  have none : tokens.dropWhile Token.isTrivia = [] := by
    rw [List.dropWhile_eq_nil_iff]
    exact all
  rw [trimTrivia, none]
  rfl

theorem indentFindings_eq_nil {settings : Settings} {indent : Span} :
    indentFindings indent settings.indentWidth = [] ↔
      indent.length = indent.length / settings.indentWidth * settings.indentWidth := by
  have division := Nat.div_add_mod' indent.length settings.indentWidth
  rw [indentFindings]
  constructor
  · intro h
    split at h
    · omega
    · cases h
  · intro h
    rw [if_pos (by omega)]

theorem ofTokens?_blank (settings : Settings) {tokens : List Token} (h : content tokens = []) :
    Line.ofTokens? settings tokens = .ok none := by
  rw [Line.ofTokens?, trimTrivia_eq_nil h]

theorem ofTokens?_content (settings : Settings) {tokens : List Token} (h : content tokens ≠ [])
    (unbroken : Unbroken (trimTrivia tokens)) :
    ∃ line findings, Line.ofTokens? settings tokens = .ok (some (line, findings)) ∧
      (findings = [] → line.Reads settings tokens) := by
  obtain ⟨grouping, hg⟩ := Grouping.ofTokens_of_unbroken unbroken
  cases ht : trimTrivia tokens with
  | nil =>
    rw [← content_trimTrivia, ht] at h
    exact absurd rfl h
  | cons first rest =>
    rw [ht] at hg unbroken
    refine ⟨_, _, by rw [Line.ofTokens?, ht]; simp only [hg]; rfl, ?_⟩
    intro none
    simp only [List.append_eq_nil_iff, List.map_eq_nil_iff] at none
    obtain ⟨⟨indents, quiet⟩, commas⟩ := none
    obtain ⟨sound, made⟩ := Grouping.ofTokens_conserves unbroken hg quiet
    rw [← ht, content_trimTrivia] at made
    have nonempty : grouping.items ≠ [] := by
      intro none
      rw [none] at made
      exact h made.symm
    exact ⟨nonempty, sound, made, commas, rfl, indentFindings_eq_nil.1 indents, first, rest, ht,
      rfl⟩

theorem ofTokens?_reads {settings : Settings} {tokens : List Token} {line : Line}
    (unbroken : Unbroken (trimTrivia tokens)) (h : line.Reads settings tokens) :
    Line.ofTokens? settings tokens = .ok (some (line, [])) := by
  obtain ⟨first, rest, ht, hs⟩ := h.span
  obtain ⟨offset, contiguous⟩ := unbroken.contiguous
  have made : content (trimTrivia tokens) = itemTokens line.items := by
    rw [content_trimTrivia, h.made]
  have grouped := Grouping.ofTokens_items h.sound made contiguous
  rw [ht] at grouped
  obtain ⟨depth, indent, span, items⟩ := line
  obtain rfl : indent = indentSpan tokens := h.indent
  obtain rfl : span = tokenSpan first rest := hs
  have level : (indentSpan tokens).length / settings.indentWidth = depth :=
    Nat.div_eq_of_eq_mul_left settings.indentWidth_pos h.depth
  have indents : indentFindings (indentSpan tokens) settings.indentWidth = [] := by
    rw [indentFindings_eq_nil, level]
    exact h.depth
  have commas : lineStrayCommas items = [] := h.commas
  rw [Line.ofTokens?, ht]
  simp only [grouped, bind, Except.bind, pure, Except.pure, indents, level, commas]
  rfl

/-- A line with what was found in it. There is nothing to find exactly when the line can be read,
and it can be read in one way. -/
structure Line.Attempt (settings : Settings) (tokens : List Token) (pair : Line × List Finding) :
    Prop where
  reads : pair.2 = [] → pair.1.Reads settings tokens
  unique : ∀ line : Line, line.Reads settings tokens → pair = (line, [])

theorem mapM_ofTokens? (settings : Settings) {lines : List (List Token)}
    (h : ∀ line ∈ lines, Unbroken (trimTrivia line)) :
    ∃ results, lines.mapM (Line.ofTokens? settings) = .ok results ∧
      List.Forall₂ (Line.Attempt settings) (lines.filter fun line => !(content line).isEmpty)
        (results.filterMap id) := by
  induction lines with
  | nil => exact ⟨[], rfl, .nil⟩
  | cons line rest ih =>
    have ⟨first, others⟩ := List.forall_mem_cons.1 h
    obtain ⟨results, hm, hr⟩ := ih others
    by_cases blank : content line = []
    · refine ⟨none :: results, ?_, ?_⟩
      · rw [List.mapM_cons, ofTokens?_blank settings blank, hm]
        rfl
      · simpa [blank] using hr
    · obtain ⟨parsed, findings, hp, reads⟩ := ofTokens?_content settings blank first
      refine ⟨some (parsed, findings) :: results, ?_, ?_⟩
      · rw [List.mapM_cons, hp, hm]
        rfl
      · rw [List.filter_cons_of_pos (by simpa using blank)]
        refine .cons ⟨reads, ?_⟩ hr
        intro other read
        rw [ofTokens?_reads first read] at hp
        cases hp
        rfl

theorem readLines_spec {text : Source} (settings : Settings) (faultless : Faultless text.tokens)
    (closed : Closed .initial text.tokens) :
    ∃ pairs, readLines settings text.tokens = .ok pairs ∧
      List.Forall₂ (Line.Attempt settings) (contentLines text.tokens) pairs := by
  obtain ⟨results, hm, hr⟩ := mapM_ofTokens? settings
    fun line hl => splitLines_unbroken faultless closed hl
  refine ⟨results.filterMap id, ?_, hr⟩
  rw [readLines, hm]
  rfl

/-- Lines read from all the tokens of a text that say something. -/
def LinesRead (settings : Settings) (tokens : List Token) (lines : List Line) : Prop :=
  List.Forall₂ (Line.Reads settings) (contentLines tokens) lines

theorem attempts_eq {settings : Settings} {tokens : List (List Token)} {lines : List Line}
    {pairs : List (Line × List Finding)} (reads : List.Forall₂ (Line.Reads settings) tokens lines)
    (attempts : List.Forall₂ (Line.Attempt settings) tokens pairs) :
    pairs = lines.map fun line => (line, []) := by
  induction reads generalizing pairs with
  | nil =>
    cases attempts
    rfl
  | cons read _ ih =>
    obtain _ | ⟨first, rest⟩ := attempts
    rw [ih rest, first.unique _ read, List.map_cons]

theorem attempts_read {settings : Settings} {tokens : List (List Token)}
    {pairs : List (Line × List Finding)}
    (attempts : List.Forall₂ (Line.Attempt settings) tokens pairs)
    (quiet : ∀ pair ∈ pairs, pair.2 = []) :
    List.Forall₂ (Line.Reads settings) tokens (pairs.map Prod.fst) := by
  induction attempts with
  | nil => exact .nil
  | cons first _ ih =>
    have ⟨one, others⟩ := List.forall_mem_cons.1 quiet
    exact .cons (first.reads one) (ih others)

/-- Grouping the tokens of a text without lexical faults gives the lines that can be read from them,
or a report when some line cannot be read. -/
theorem group_spec (document : Document) (settings : Settings)
    (faultless : Faultless document.text.tokens) (closed : Closed .initial document.text.tokens) :
    (∃ report, document.group settings document.text.tokens = .error (.rejected report) ∧
      ∀ lines, ¬LinesRead settings document.text.tokens lines) ∨
    ∃ lines, document.group settings document.text.tokens = .ok lines ∧
      LinesRead settings document.text.tokens lines := by
  obtain ⟨pairs, hr, attempts⟩ := readLines_spec settings faultless closed
  have grouped : document.group settings document.text.tokens =
      (document.accept (pairs.flatMap Prod.snd) (pairs.map Prod.fst)).mapError .rejected := by
    rw [Document.group, hr]
  cases hf : pairs.flatMap Prod.snd with
  | cons finding rest =>
    left
    obtain ⟨report, refused⟩ := accept_cons document finding rest
    refine ⟨report, by rw [grouped, hf, refused]; rfl, ?_⟩
    intro lines read
    have quiet : (lines.map fun line => (line, ([] : List Finding))).flatMap Prod.snd = [] := by
      simp
    rw [attempts_eq read attempts, quiet] at hf
    cases hf
  | nil =>
    right
    have quiet : ∀ pair ∈ pairs, pair.2 = [] := by
      intro pair member
      exact List.flatMap_eq_nil_iff.1 hf pair member
    exact ⟨pairs.map Prod.fst, by rw [grouped, hf]; rfl, attempts_read attempts quiet⟩

theorem linesRead_unique {settings : Settings} {text : Source} (faultless : Faultless text.tokens)
    (closed : Closed .initial text.tokens) {lines others : List Line}
    (h : LinesRead settings text.tokens lines) (h' : LinesRead settings text.tokens others) :
    lines = others := by
  obtain ⟨pairs, _, attempts⟩ := readLines_spec settings faultless closed
  have same := (attempts_eq h attempts).symm.trans (attempts_eq h' attempts)
  have back := congrArg (List.map Prod.fst) same
  simpa [Function.comp_def] using back

theorem content_flatten_contentLines (tokens : List Token) :
    content tokens = (contentLines tokens).flatMap content := by
  have skip : ∀ lines : List (List Token),
      (lines.filter fun line => !(content line).isEmpty).flatMap content =
        content lines.flatten := by
    intro lines
    induction lines with
    | nil => rfl
    | cons line rest ih =>
      rw [List.flatten_cons, content_append, ← ih]
      by_cases blank : content line = []
      · simp [blank]
      · rw [List.filter_cons_of_pos (by simpa using blank), List.flatMap_cons]
  rw [contentLines, skip, splitLines_flatten]

theorem content_eq_of_lines {tokens : List Token} {lines : List Line}
    (h : List.Forall₂ (fun each line => itemTokens line.items = content each)
      (contentLines tokens) lines) :
    content tokens = lines.flatMap fun line => itemTokens line.items := by
  rw [content_flatten_contentLines]
  generalize contentLines tokens = each at h
  induction h with
  | nil => rfl
  | cons made _ ih => rw [List.flatMap_cons, List.flatMap_cons, ih, made]

theorem linesRead_tokens {settings : Settings} {tokens : List Token} {lines : List Line}
    (h : LinesRead settings tokens lines) :
    content tokens = lines.flatMap fun line => itemTokens line.items :=
  content_eq_of_lines (List.Forall₂.imp (fun _ _ read => read.made) h)

theorem linesRead_kinded {settings : Settings} {tokens : List Token} {lines : List Line}
    (h : LinesRead settings tokens lines) : ∀ line ∈ lines, line.Kinded := by
  rw [LinesRead] at h
  generalize contentLines tokens = each at h
  induction h with
  | nil => simp
  | cons read _ ih =>
    exact List.forall_mem_cons.2 ⟨⟨read.nonempty, itemsKinded_of_sound read.sound⟩, ih⟩

/-- A tree of the nests of lines over the tokens that the lines were read from. -/
structure Tree.Holds (settings : Settings) (tokens : List Token) (lines : List Line) (tree : Tree) :
    Prop where
  padded : ∃ padded trail, tree.children = padded ++ trail.map Element.token ∧
    elementsPadded (nestLines (clampDepths settings.maxDepth 0 lines)) padded ∧ content trail = []
  tokens_eq : tree.tokens = tokens

/-- Lines made of all the tokens that say something give a tree, unless nesting finds a fault. -/
theorem build_of_kinded (document : Document) (settings : Settings) {tokens : List Token}
    {lines : List Line} (kinded : ∀ line ∈ lines, line.Kinded)
    (h : content tokens = lines.flatMap fun line => itemTokens line.items) :
    ∃ tree : Tree, tree.Holds settings tokens lines ∧ document.build settings tokens lines =
      (document.accept (treeFindings document.text (clampDepths settings.maxDepth 0 lines))
        tree).mapError Failure.rejected := by
  have made : content tokens =
      elementTokens (nestLines (clampDepths settings.maxDepth 0 lines)) := by
    rw [h, elementTokens_clamped]
  obtain ⟨padded, trail, hp, quiet, ht, replayed⟩ := Sink.replay_eq made
  refine ⟨⟨padded ++ trail.map Element.token⟩, ⟨⟨padded, trail, rfl, hp, quiet⟩, ?_⟩, ?_⟩
  · rw [Tree.tokens, elementTokens_append, elementTokens_map_token, ht]
  · rw [Document.build, Builder.build_eq settings.maxDepth kinded]
    cases hf : treeFindings document.text (clampDepths settings.maxDepth 0 lines) with
    | nil =>
      simp only [hf, accept_nil, replayed]
      rfl
    | cons finding rest =>
      obtain ⟨report, refused⟩ := accept_cons document finding rest
      simp only [hf, refused]
      rfl

theorem build_of_linesRead (document : Document) {settings : Settings} {tokens : List Token}
    {lines : List Line} (h : LinesRead settings tokens lines) :
    ∃ tree : Tree, tree.Holds settings tokens lines ∧ document.build settings tokens lines =
      (document.accept (treeFindings document.text (clampDepths settings.maxDepth 0 lines))
        tree).mapError Failure.rejected :=
  build_of_kinded document settings (linesRead_kinded h) (linesRead_tokens h)

theorem parse_of_linesRead {document : Document} {settings : Settings} {lines : List Line}
    (faultless : Faultless document.text.tokens) (closed : Closed .initial document.text.tokens)
    (h : LinesRead settings document.text.tokens lines) :
    ∃ tree : Tree, tree.Holds settings document.text.tokens lines ∧ document.parse settings =
      (document.accept (treeFindings document.text (clampDepths settings.maxDepth 0 lines))
        tree).mapError Failure.rejected := by
  obtain ⟨tree, holds, built⟩ := build_of_linesRead document h
  refine ⟨tree, holds, ?_⟩
  obtain ⟨_, _, none⟩ | ⟨others, grouped, read⟩ := group_spec document settings faultless closed
  · exact absurd h (none lines)
  · obtain rfl := linesRead_unique faultless closed read h
    have tokenized := (tokenize_eq_ok_iff document).2 ⟨faultless, closed⟩
    rw [← built, Document.parse, Document.lines, tokenized]
    simp only [Except.mapError, bind, Except.bind, Document.arrange, grouped]
    rfl

theorem tokenize_cases (document : Document) :
    (Faultless document.text.tokens ∧ Closed .initial document.text.tokens) ∨
      ∃ report, document.tokenize = .error report := by
  by_cases quiet : lexicalFindings document.text.tokens = []
  · exact Or.inl ((lexicalFindings_eq_nil_iff _).1 quiet)
  · right
    obtain ⟨finding, rest, hf⟩ := List.exists_cons_of_ne_nil quiet
    obtain ⟨report, refused⟩ := accept_cons document finding rest
    refine ⟨report, ?_⟩
    rw [Document.tokenize]
    simp only [hf, refused]

theorem parse_of_tokenize_error {document : Document} {settings : Settings} {report : Report}
    (h : document.tokenize = .error report) :
    document.parse settings = .error (.rejected report) := by
  rw [Document.parse, Document.lines, h]
  rfl

theorem parse_of_group_error {document : Document} {settings : Settings} {report : Report}
    (faultless : Faultless document.text.tokens) (closed : Closed .initial document.text.tokens)
    (h : document.group settings document.text.tokens = .error (.rejected report)) :
    document.parse settings = .error (.rejected report) := by
  rw [Document.parse, Document.lines, (tokenize_eq_ok_iff document).2 ⟨faultless, closed⟩]
  simp only [Except.mapError, bind, Except.bind, Document.arrange, h]

/-- A document with a tree has no lexical fault, lines that can be read, and no fault of nesting. -/
theorem parse_eq_ok {document : Document} {settings : Settings} {tree : Tree}
    (h : document.parse settings = .ok tree) :
    Faultless document.text.tokens ∧ Closed .initial document.text.tokens ∧ ∃ lines,
      LinesRead settings document.text.tokens lines ∧
      treeFindings document.text (clampDepths settings.maxDepth 0 lines) = [] ∧
      tree.Holds settings document.text.tokens lines := by
  rcases tokenize_cases document with ⟨faultless, closed⟩ | ⟨report, refused⟩
  · refine ⟨faultless, closed, ?_⟩
    rcases group_spec document settings faultless closed with
      ⟨report, refused, _⟩ | ⟨lines, _, read⟩
    · rw [parse_of_group_error faultless closed refused] at h
      cases h
    · obtain ⟨made, holds, parsed⟩ := parse_of_linesRead faultless closed read
      rw [h] at parsed
      cases accepted : document.accept (treeFindings document.text
          (clampDepths settings.maxDepth 0 lines)) made with
      | ok result =>
        obtain ⟨quiet, rfl⟩ := accept_eq_ok accepted
        rw [accepted] at parsed
        cases parsed
        exact ⟨lines, read, quiet, holds⟩
      | error report =>
        rw [accepted] at parsed
        cases parsed
  · rw [parse_of_tokenize_error refused] at h
    cases h

/-- Reading a document ends with a tree or a report: no stage is ever handed anything that breaks
the agreement between the stages. -/
theorem parse_keeps_agreement (document : Document) (settings : Settings) :
    (∃ tree, document.parse settings = .ok tree) ∨
      ∃ report, document.parse settings = .error (.rejected report) := by
  rcases tokenize_cases document with ⟨faultless, closed⟩ | ⟨report, refused⟩
  · rcases group_spec document settings faultless closed with
      ⟨report, refused, _⟩ | ⟨lines, _, read⟩
    · exact Or.inr ⟨report, parse_of_group_error faultless closed refused⟩
    · obtain ⟨tree, _, parsed⟩ := parse_of_linesRead faultless closed read
      rw [parsed]
      cases document.accept (treeFindings document.text
          (clampDepths settings.maxDepth 0 lines)) tree with
      | ok result => exact Or.inl ⟨result, rfl⟩
      | error report => exact Or.inr ⟨report, rfl⟩
  · exact Or.inr ⟨report, parse_of_tokenize_error refused⟩

end TermOutline
