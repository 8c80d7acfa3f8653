import TermOutline.Proofs.Meaning
import TermOutline.Proofs.Writing

/-! # Written documents

The block form of nests that can be written scans to one line of tokens for each nest, indented by
its level. Reading it again gives the same nests when no level is too deep, and otherwise a report
of the levels that are.
-/
namespace TermOutline

mutual

/-- The heads of a nest and of everything below it, each with its level. -/
def Nest.headRows (level : Nat) : Nest → List (Nat × Head)
  | .mk head children => (level, head) :: TermOutline.headRows (level + 1) children

def headRows (level : Nat) : List Nest → List (Nat × Head)
  | [] => []
  | nest :: rest => nest.headRows level ++ headRows level rest

end

mutual

theorem Nest.rows_eq : ∀ (nest : Nest) (level : Nat),
    nest.rows level = (nest.headRows level).map fun row => (row.1, row.2.render)
  | .mk head children, level => by
    rw [Nest.rows, Nest.headRows, List.map_cons, nestRows_eq children]

theorem nestRows_eq : ∀ (nests : List Nest) (level : Nat),
    nestRows level nests = (headRows level nests).map fun row => (row.1, row.2.render)
  | [], _ => rfl
  | nest :: rest, level => by
    rw [nestRows, headRows, List.map_append, Nest.rows_eq nest, nestRows_eq rest]

end

/-- The text of rows, each on a line of its own. -/
def rowsText (settings : Settings) (rows : List (Nat × Head)) : Source :=
  ['\n'].intercalate
    (rows.map fun row => blanks (row.1 * settings.indentWidth) ++ row.2.render)

theorem renderNests_eq (settings : Settings) (nests : List Nest) :
    renderNests settings nests = rowsText settings (headRows 0 nests) := by
  rw [renderNests, rowsText, nestRows_eq, List.map_map]
  rfl

theorem rowsText_cons (settings : Settings) (row next : Nat × Head) (rest : List (Nat × Head)) :
    rowsText settings (row :: next :: rest) =
      blanks (row.1 * settings.indentWidth) ++ row.2.render ++
        '\n' :: rowsText settings (next :: rest) := by
  simp [rowsText, List.intercalate_cons_cons]

theorem byteLength_blanks (count : Nat) : Source.byteLength (blanks count) = count := by
  induction count with
  | zero => rfl
  | succ count ih =>
    rw [blanks, List.replicate_succ, Source.byteLength, ← blanks, ih]
    exact Nat.add_comm 1 count

theorem codeRule_space {c : Char} {rest : Source} (h : (Mode.codeRule c rest).1 = .space) :
    c = ' ' := by
  unfold Mode.codeRule at h
  split at h
  · cases h
  split at h
  · rcases numberRule_kind rest with hk | hk <;> rw [hk] at h <;> cases h
  split at h
  · rfl
  all_goals try cases h
  · unfold Mode.returnRule at h
    split at h <;> cases h
  · cases rest with
    | nil => cases h
    | cons digit rest =>
      rw [Mode.signRule] at h
      split at h
      · rcases numberRule_kind rest with hk | hk <;> rw [hk] at h <;> cases h
      · cases h

theorem codeRule_blanks {back : Source} (count : Nat) (first : ∀ c ∈ back.head?, c ≠ ' ') :
    Mode.codeRule ' ' (blanks count ++ back) = (.space, (blanks count).length) := by
  have run : Mode.run (· == ' ') (blanks count ++ back) = (blanks count).length := by
    refine run_append ?_ ?_
    · intro c member
      rw [List.eq_of_mem_replicate member]
      rfl
    · intro c member
      simpa using first c member
  exact congrArg (Prod.mk TokenKind.space) run

theorem indentSpan_head {head : Head} (h : head.Writable) {scanner next : Scanner}
    (code : scanner.mode = .code) {offset : Nat} {back : Source} {token : Token}
    {more : List Token} (emits : Emits scanner offset head.render back (token :: more) next) :
    indentSpan (token :: more) = ⟨offset, offset⟩ := by
  obtain ⟨c, rest, first, notSpace⟩ := render_first h
  have cut := emits.cut
  rw [first, List.cons_append, Scanner.tokensFrom] at cut
  simp only [List.cons_append, List.cons.injEq] at cut
  obtain ⟨rfl, _⟩ := cut
  rw [indentSpan, if_neg]
  · rfl
  · intro space
    rw [code] at space
    exact notSpace (codeRule_space space)

theorem ReadsItem.ne_nil {tokens : List Token} {head : Head} {nests : List Nest}
    (h : ReadsItem tokens head nests) : tokens ≠ [] := by
  cases h <;> simp

/-- A line of block form scans to its indentation and the tokens of its head. -/
theorem line_written {head : Head} (h : head.Writable) (width offset : Nat) {back : Source}
    (hb : Stops back) :
    ∃ token more,
      Emits .initial offset (blanks width ++ head.render) back (token :: more) .initial ∧
      ReadsItem (content (token :: more)) head [] ∧
      indentSpan (token :: more) = ⟨offset, offset + width⟩ := by
  obtain ⟨tokens, emits, reads⟩ := head_written head h .initial rfl (offset + width) back hb
  obtain ⟨token, more, rfl⟩ : ∃ token more, tokens = token :: more := by
    refine List.exists_cons_of_ne_nil ?_
    rintro rfl
    exact reads.ne_nil rfl
  cases width with
  | zero => exact ⟨token, more, emits, reads, indentSpan_head h rfl emits⟩
  | succ count =>
    obtain ⟨c, rest, first, notSpace⟩ := render_first h
    have rule := @codeRule_blanks (head.render ++ back) count
      (by rw [first]; rintro c ⟨⟩; exact notSpace)
    have space : Emits .initial offset (blanks (count + 1)) (head.render ++ back)
        [⟨.space, blanks (count + 1), offset⟩] .initial :=
      @Emits.usual .initial offset ' ' (blanks count) _ .space rule rfl (by decide)
    rw [← byteLength_blanks (count + 1)] at emits
    refine ⟨_, _, space.append emits, reads, ?_⟩
    · rw [indentSpan, if_pos rfl, Token.span, byteLength_blanks]

/-- Where a row ends. -/
def rowStop (settings : Settings) (offset : Nat) (row : Nat × Head) : Nat :=
  offset + row.1 * settings.indentWidth + row.2.render.byteLength

/-- Lines of tokens that rows are written as, the first of them from `offset` on. -/
def RowLines (settings : Settings) : Nat → List (Nat × Head) → List (List Token) → Prop
  | _, [], lines => lines = []
  | offset, row :: rest, lines => ∃ line others, lines = line :: others ∧
      ReadsItem (content line) row.2 [] ∧
      indentSpan line = ⟨offset, offset + row.1 * settings.indentWidth⟩ ∧
      RowLines settings (rowStop settings offset row + 1) rest others

/-- What the scanner makes of written rows. -/
structure Scanned (settings : Settings) (rows : List (Nat × Head)) (offset : Nat)
    (lines : List (List Token)) : Prop where
  tokens : Scanner.initial.tokensFrom offset 0 (rowsText settings rows) = lines.flatten
  split : splitLines lines.flatten = lines
  faultless : Faultless lines.flatten
  closed : Closed .initial lines.flatten
  rows : RowLines settings offset rows lines

/-- The last row has no line break behind it. -/
theorem row_scanned (settings : Settings) {row : Nat × Head} (h : row.2.Writable) (offset : Nat) :
    ∃ lines, Scanned settings [row] offset lines := by
  obtain ⟨token, more, emits, reads, indent⟩ := line_written h (row.1 * settings.indentWidth) offset
    (show Stops [] by simp [Stops])
  have text : rowsText settings [row] =
      blanks (row.1 * settings.indentWidth) ++ row.2.render := by
    simp [rowsText]
  have cut := emits.cut
  rw [List.append_nil, ← text, Scanner.tokensFrom, List.append_nil] at cut
  have same : [token :: more].flatten = token :: more := by simp
  refine ⟨[token :: more], ?_, ?_, ?_, ?_, _, [], rfl, reads, indent, rfl⟩
  · rw [same, cut]
  · rw [same, splitLines_body emits.kinds (by simp)]
  · rw [same]
    exact emits.faultless
  · rw [same, ← List.append_nil (token :: more)]
    refine (closed_append emits.kinds).2 ?_
    rw [emits.steps]
    rfl

theorem Scanned.cons {settings : Settings} {row next : Nat × Head} {rest : List (Nat × Head)}
    {offset : Nat} {lines : List (List Token)} (h : row.2.Writable)
    (scanned : Scanned settings (next :: rest) (rowStop settings offset row + 1) lines) :
    ∃ line, Scanned settings (row :: next :: rest) offset (line :: lines) := by
  obtain ⟨token, more, emits, reads, indent⟩ := line_written h (row.1 * settings.indentWidth) offset
    (show Stops ('\n' :: rowsText settings (next :: rest)) by rintro c ⟨⟩; decide)
  let last : Token := ⟨.line, ['\n'], rowStop settings offset row⟩
  have stops : offset +
      Source.byteLength (blanks (row.1 * settings.indentWidth) ++ row.2.render) =
        rowStop settings offset row := by
    rw [Source.byteLength_append, byteLength_blanks, ← Nat.add_assoc, rowStop]
  have ends : Scanner.initial.tokensFrom (rowStop settings offset row) 0
      ('\n' :: rowsText settings (next :: rest)) = last :: lines.flatten := by
    rw [← scanned.tokens]
    rfl
  have same : ((token :: more ++ [last]) :: lines).flatten =
      token :: more ++ (last :: lines.flatten) := by
    simp
  refine ⟨token :: more ++ [last], ?_, ?_, ?_, ?_, _, lines, rfl, ?_, indent, scanned.rows⟩
  · rw [same, rowsText_cons, emits.cut, stops, ends]
  · rw [same, splitLines_append emits.kinds rfl, scanned.split]
  · rw [same]
    refine emits.faultless.append ⟨?_, ?_, ?_⟩
    · exact List.forall_mem_cons.2 ⟨rfl, scanned.faultless.kinds⟩
    · exact List.forall_mem_cons.2 ⟨by simp, scanned.faultless.codes⟩
    · exact List.forall_mem_cons.2 ⟨by simp, scanned.faultless.decimals⟩
  · rw [same]
    refine (closed_append emits.kinds).2 ?_
    rw [emits.steps]
    exact ⟨fun _ => rfl, scanned.closed⟩
  · rw [content_append, show content [last] = [] from rfl, List.append_nil]
    exact reads

theorem rows_scanned (settings : Settings) {rows : List (Nat × Head)}
    (h : ∀ row ∈ rows, row.2.Writable) (offset : Nat) :
    ∃ lines, Scanned settings rows offset lines := by
  induction rows generalizing offset with
  | nil => exact ⟨[], rfl, rfl, ⟨by simp, by simp, by simp⟩, rfl, rfl⟩
  | cons row rest ih =>
    obtain ⟨first, others⟩ := List.forall_mem_cons.1 h
    cases rest with
    | nil => exact row_scanned settings first offset
    | cons next rest =>
      obtain ⟨lines, scanned⟩ := ih others (rowStop settings offset row + 1)
      obtain ⟨line, scanned⟩ := scanned.cons first
      exact ⟨line :: lines, scanned⟩

/-- The row of a line that holds a head alone. -/
def bareRow (row : Nat × Head) : Row := ⟨row.1, row.2, []⟩

mutual

theorem Nest.headRows_writable : ∀ {nest : Nest}, nest.Writable → ∀ (level : Nat),
    ∀ row ∈ nest.headRows level, row.2.Writable
  | .mk _ _, ⟨own, _, children⟩, level => by
    rw [Nest.headRows]
    exact List.forall_mem_cons.2 ⟨own, headRows_writable children (level + 1)⟩

theorem headRows_writable : ∀ {nests : List Nest}, nestsWritable nests → ∀ (level : Nat),
    ∀ row ∈ headRows level nests, row.2.Writable
  | [], _, _ => by simp [headRows]
  | _ :: _, ⟨nest, rest⟩, level => by
    rw [headRows]
    intro row member
    rcases List.mem_append.1 member with member | member
    · exact Nest.headRows_writable nest level row member
    · exact headRows_writable rest level row member

end

mutual

theorem Nest.headRows_block : ∀ (nest : Nest) (level : Nat) {rows : List Row} {nests : List Nest},
    ReadsBlock level rows nests →
      ReadsBlock level ((nest.headRows level).map bareRow ++ rows) (nest :: nests)
  | .mk head children, level, rows, nests, h => by
    rw [Nest.headRows, List.map_cons]
    exact .cons (headRows_block children (level + 1)) h

theorem headRows_block : ∀ (nests : List Nest) (level : Nat),
    ReadsBlock level ((headRows level nests).map bareRow) nests
  | [], _ => .nil
  | nest :: rest, level => by
    rw [headRows, List.map_append]
    exact nest.headRows_block level (headRows_block rest level)

end

@[simp] theorem nestsWritable_append (front back : List Nest) :
    nestsWritable (front ++ back) ↔ nestsWritable front ∧ nestsWritable back := by
  induction front with
  | nil => simp [nestsWritable]
  | cons nest rest ih => simp [nestsWritable, ih, and_assoc]

theorem ReadsBlock.rows_eq_nil {depth : Nat} {rows : List Row} (h : ReadsBlock depth rows []) :
    rows = [] := by
  cases h
  rfl

/-- A relation that holds between a row and a later one that is not deeper holds all along a block,
if it holds where the rows go down a level. -/
theorem isChain_block {R : Row → Row → Prop} {depth : Nat} {row : Row} {inner outer : List Row}
    {children nests : List Nest} (same : row.depth = depth)
    (hi : ReadsBlock (depth + 1) inner children) (ho : ReadsBlock depth outer nests)
    (back : ∀ row next : Row, next.depth ≤ row.depth → R row next)
    (down : ∀ next ∈ inner.head?, R row next) (chain : inner.IsChain R) (chain' : outer.IsChain R) :
    (row :: (inner ++ outer)).IsChain R := by
  rw [List.isChain_cons, List.isChain_append]
  refine ⟨?_, chain, chain', ?_⟩
  · intro next member
    cases inner with
    | nil =>
      have level := ho.head_depth next member
      exact back row next (by omega)
    | cons first rest => exact down next member
  · intro last hl next hn
    have deeper := hi.depth_le last (List.mem_of_getLast? hl)
    have level := ho.head_depth next hn
    exact back last next (by omega)

/-- In a block a line is at most one level deeper than the line before it. -/
theorem ReadsBlock.steps {depth : Nat} {rows : List Row} {nests : List Nest}
    (h : ReadsBlock depth rows nests) :
    rows.IsChain fun row next => next.depth ≤ row.depth + 1 := by
  induction h with
  | nil => exact .nil
  | cons hi ho inner outer =>
    refine isChain_block rfl hi ho ?_ ?_ inner outer
    · intro row next shallow
      omega
    · intro next member
      exact Nat.le_of_eq (hi.head_depth next member)

/-- In a block of nests that can be written a value has no deeper line after it. -/
theorem ReadsBlock.values {depth : Nat} {rows : List Row} {nests : List Nest}
    (h : ReadsBlock depth rows nests) (writable : nestsWritable nests) :
    rows.IsChain fun row next => row.head.isValue = true → next.depth ≤ row.depth := by
  induction h with
  | nil => exact .nil
  | @cons depth head args children nests inner outer hi ho ihi iho =>
    obtain ⟨⟨_, value, own⟩, others⟩ := writable
    refine isChain_block rfl hi ho ?_ ?_ (ihi ?_) (iho others)
    · intro row next shallow _
      exact shallow
    · intro next member isValue
      have none := (List.append_eq_nil_iff.1 (value isValue)).2
      subst none
      rw [hi.rows_eq_nil] at member
      cases member
    · exact ((nestsWritable_append args children).1 own).2

/-- Whether the rows of nests that can be written fit depends on the deepest level alone. -/
theorem rowsFit_headRows {nests : List Nest} (h : nestsWritable nests) (maxDepth : Nat) :
    RowsFit maxDepth 0 ((headRows 0 nests).map bareRow) ↔
      ∀ row ∈ headRows 0 nests, row.1 ≤ maxDepth := by
  have block := headRows_block nests 0
  rw [rowsFit_zero_iff]
  constructor
  · rintro ⟨_, _, depths, _⟩ row member
    exact depths (bareRow row) (List.mem_map_of_mem member)
  · intro depths
    refine ⟨block.head_depth, block.steps, ?_, block.values h⟩
    intro row member
    obtain ⟨source, found, rfl⟩ := List.mem_map.1 member
    exact depths source found

theorem rowLines_reads {settings : Settings} {offset : Nat} {rows : List (Nat × Head)}
    {lines : List (List Token)} (h : RowLines settings offset rows lines) :
    List.Forall₂ (Row.Reads settings) lines (rows.map bareRow) := by
  induction rows generalizing offset lines with
  | nil =>
    rw [show lines = [] from h]
    exact .nil
  | cons row rest ih =>
    obtain ⟨line, others, rfl, reads, indent, tail⟩ := h
    refine .cons ⟨?_, .bare reads⟩ (ih tail)
    rw [← indentSpan_length, indent]
    exact Nat.add_sub_cancel_left ..

theorem rowLines_content {settings : Settings} {offset : Nat} {rows : List (Nat × Head)}
    {lines : List (List Token)} (h : RowLines settings offset rows lines) :
    ∀ line ∈ lines, content line ≠ [] := by
  induction rows generalizing offset lines with
  | nil =>
    rw [show lines = [] from h]
    simp
  | cons row rest ih =>
    obtain ⟨line, others, rfl, reads, _, tail⟩ := h
    exact List.forall_mem_cons.2 ⟨reads.ne_nil, ih tail⟩

theorem Scanned.contentLines {settings : Settings} {rows : List (Nat × Head)} {offset : Nat}
    {lines : List (List Token)} (h : Scanned settings rows offset lines) :
    contentLines lines.flatten = lines := by
  rw [TermOutline.contentLines, h.split, List.filter_eq_self]
  intro line member
  simpa using rowLines_content h.rows line member

/-- The finding on a line that is too deep for any place. -/
def deepFinding (maxDepth depth : Nat) (indent : Span) : List Finding :=
  if depth ≤ maxDepth then [] else [⟨.deepIndent depth maxDepth, indent⟩]

/-- Lines that are wrong in nothing but their levels, which go down by one level at a time: the
levels beyond the deepest are found, and nothing else. -/
theorem treeFindings_of_steps {source : Source} (maxDepth limit : Nat) {lines : List Line}
    {rows : List Row} (h : List.Forall₂ (Line.Says source) lines rows)
    (first : ∀ row ∈ rows.head?, row.depth ≤ limit)
    (steps : rows.IsChain fun row next => next.depth ≤ row.depth + 1)
    (values : rows.IsChain fun row next => row.head.isValue = true → next.depth ≤ row.depth) :
    treeFindings source (clampDepths maxDepth (min limit maxDepth) lines) =
      lines.flatMap fun line => deepFinding maxDepth line.depth line.indent := by
  induction h generalizing limit with
  | nil => rfl
  | @cons line row lines rows said others ih =>
    have fits : line.depth ≤ limit := by
      rw [said.depth]
      exact first row rfl
    have clamp : min line.depth (min limit maxDepth) = min line.depth maxDepth := by omega
    have next : min (min line.depth maxDepth + 1) maxDepth = min (line.depth + 1) maxDepth := by
      omega
    rw [List.isChain_cons] at steps values
    rw [clampDepths, treeFindings, List.flatMap_cons]
    dsimp only
    rw [clamp, next, ih (line.depth + 1) (by rw [said.depth]; exact steps.1) steps.2 values.2]
    have quiet : lineFindings source (startsDeeper (min line.depth maxDepth)
        (clampDepths maxDepth (min (line.depth + 1) maxDepth) lines)) line.items = [] := by
      rw [said.means.quiet]
      intro isValue
      cases others with
      | nil => rfl
      | cons later _ =>
        have level := values.1 _ rfl isValue
        rw [← later.depth, ← said.depth] at level
        rw [clampDepths, startsDeeper, decide_eq_false_iff_not]
        dsimp only
        omega
    rw [quiet, List.append_nil]
    have own : depthFindings ⟨line, min limit maxDepth, min line.depth maxDepth⟩ =
        deepFinding maxDepth line.depth line.indent := by
      rw [depthFindings, deepFinding]
      by_cases deep : line.depth ≤ maxDepth
      · rw [if_pos deep, if_pos (Nat.le_min.2 ⟨fits, deep⟩)]
      · have limited : min limit maxDepth = maxDepth := by omega
        rw [if_neg deep, limited, if_neg deep]
    rw [own]

/-- The findings on the rows of a block form that are too deep, the first row beginning at
`offset`. -/
def deepRows (settings : Settings) : Nat → List (Nat × Source) → List Finding
  | _, [] => []
  | offset, (level, text) :: rest =>
    let start := offset + level * settings.indentWidth
    deepFinding settings.maxDepth level ⟨offset, start⟩ ++
      deepRows settings (start + text.byteLength + 1) rest

theorem deepRows_of_lines {source : Source} {settings : Settings} {offset : Nat}
    {rows : List (Nat × Head)} {lines : List (List Token)} {parsed : List Line}
    (h : RowLines settings offset rows lines)
    (read : List.Forall₂ (Line.Reads settings) lines parsed)
    (said : List.Forall₂ (Line.Says source) parsed (rows.map bareRow)) :
    (parsed.flatMap fun line => deepFinding settings.maxDepth line.depth line.indent) =
      deepRows settings offset (rows.map fun row => (row.1, row.2.render)) := by
  induction rows generalizing offset lines parsed with
  | nil =>
    cases said
    rfl
  | cons row rest ih =>
    obtain ⟨line, others, rfl, _, indent, tail⟩ := h
    obtain _ | ⟨reads, read⟩ := read
    obtain _ | ⟨means, said⟩ := said
    rw [List.flatMap_cons, ih tail read said, means.depth, reads.indent, indent]
    rfl

theorem span_of_mem_deepFinding {maxDepth depth : Nat} {indent : Span} {finding : Finding}
    (h : finding ∈ deepFinding maxDepth depth indent) : finding.span = indent := by
  rw [deepFinding] at h
  split at h
  · cases h
  · rw [List.mem_singleton] at h
    rw [h]

theorem deepRows_starts {settings : Settings} {offset : Nat} {rows : List (Nat × Source)} :
    ∀ finding ∈ deepRows settings offset rows, offset ≤ finding.span.start := by
  induction rows generalizing offset with
  | nil => simp [deepRows]
  | cons row rest ih =>
    obtain ⟨level, text⟩ := row
    intro finding member
    rw [deepRows] at member
    rcases List.mem_append.1 member with member | member
    · rw [span_of_mem_deepFinding member]
    · have later := ih finding member
      omega

theorem deepRows_sorted (settings : Settings) (offset : Nat) (rows : List (Nat × Source)) :
    (deepRows settings offset rows).Pairwise fun finding next =>
      finding.span.start ≤ next.span.start := by
  induction rows generalizing offset with
  | nil => exact .nil
  | cons row rest ih =>
    obtain ⟨level, text⟩ := row
    rw [deepRows, List.pairwise_append]
    refine ⟨?_, ih _, ?_⟩
    · rw [deepFinding]
      split
      · exact .nil
      · exact List.pairwise_singleton _ _
    · intro finding member next later
      have bound := deepRows_starts next later
      rw [span_of_mem_deepFinding member]
      dsimp only at bound ⊢
      omega

theorem sortByStart_of_sorted {diagnostics : List Diagnostic}
    (h : diagnostics.Pairwise fun one next => one.span.start ≤ next.span.start) :
    sortByStart diagnostics = diagnostics := by
  induction h with
  | nil => rfl
  | @cons diagnostic rest first _ ih =>
    rw [sortByStart] at ih ⊢
    rw [List.foldr_cons, ih]
    cases rest with
    | nil => rfl
    | cons next others => rw [insertByStart, if_pos (first next List.mem_cons_self)]

theorem accept_error_of_sorted {α : Type} {document : Document} {findings : List Finding}
    {result : α} {report : Report}
    (sorted : findings.Pairwise fun finding next => finding.span.start ≤ next.span.start)
    (h : document.accept findings result = .error report) :
    report.toList = findings.map fun finding => finding.diagnostic document.file := by
  have order : sortByStart (findings.map fun finding => finding.diagnostic document.file) =
      findings.map fun finding => finding.diagnostic document.file :=
    sortByStart_of_sorted (List.pairwise_map.2 sorted)
  rw [Document.accept, Report.ofFindings?, Collector.finish, order] at h
  cases findings with
  | nil => cases h
  | cons finding rest =>
    cases h
    rfl

theorem treeFindings_headRows {source : Source} {settings : Settings} {nests : List Nest}
    (h : nestsWritable nests) {lines : List (List Token)} {parsed : List Line}
    (rows : RowLines settings 0 (headRows 0 nests) lines)
    (read : List.Forall₂ (Line.Reads settings) lines parsed)
    (said : List.Forall₂ (Line.Says source) parsed ((headRows 0 nests).map bareRow)) :
    treeFindings source (clampDepths settings.maxDepth 0 parsed) =
      deepRows settings 0 (nestRows 0 nests) := by
  have block := headRows_block nests 0
  have top : ∀ row ∈ ((headRows 0 nests).map bareRow).head?, row.depth ≤ 0 := by
    intro row member
    exact Nat.le_of_eq (block.head_depth row member)
  have steps := treeFindings_of_steps settings.maxDepth 0 said top block.steps (block.values h)
  rw [Nat.zero_min] at steps
  rw [steps, deepRows_of_lines rows read said, nestRows_eq]

theorem parse_renderNests {nests : List Nest} (h : nestsWritable nests) (file : String)
    (settings : Settings) :
    ((∀ row ∈ headRows 0 nests, row.1 ≤ settings.maxDepth) ∧ ∃ tree : Tree,
      tree.outline = nests ∧
        Document.parse ⟨file, renderNests settings nests⟩ settings = .ok tree) ∨
    ((¬∀ row ∈ headRows 0 nests, row.1 ≤ settings.maxDepth) ∧ ∃ report : Report,
      report.toList = (deepRows settings 0 (nestRows 0 nests)).map
        (fun finding => finding.diagnostic file) ∧
        Document.parse ⟨file, renderNests settings nests⟩ settings =
          .error (.rejected report)) := by
  obtain ⟨lines, scanned⟩ := rows_scanned settings (headRows_writable h 0) 0
  have tokens : Source.tokens (renderNests settings nests) = lines.flatten := by
    rw [renderNests_eq]
    exact scanned.tokens
  generalize hd : (⟨file, renderNests settings nests⟩ : Document) = document
  have text : document.text.tokens = lines.flatten := by
    rw [← hd]
    exact tokens
  obtain ⟨parsed, read, said⟩ := lines_of_rows (rowLines_reads scanned.rows)
    (rowLines_content scanned.rows) document.text
  have linesRead : LinesRead settings document.text.tokens parsed := by
    rw [LinesRead, text, scanned.contentLines]
    exact read
  obtain ⟨tree, holds, result⟩ := parse_of_linesRead (text ▸ scanned.faultless)
    (text ▸ scanned.closed) linesRead
  -- rendered rows go down one level at a time, so only the deepest level can be wrong
  by_cases shallow : ∀ row ∈ headRows 0 nests, row.1 ≤ settings.maxDepth
  · left
    have fit := (rowsFit_headRows h settings.maxDepth).2 shallow
    have outline := (holds.formed said fit).1.unique (headRows_block nests 0)
    rw [(treeFindings_eq_nil_iff said).2 fit, accept_nil] at result
    exact ⟨shallow, tree, outline, result⟩
  · right
    refine ⟨shallow, ?_⟩
    have found := treeFindings_headRows h scanned.rows read said
    have refused : treeFindings document.text (clampDepths settings.maxDepth 0 parsed) ≠ [] := by
      rw [Ne, treeFindings_eq_nil_iff said, rowsFit_headRows h]
      exact shallow
    obtain ⟨finding, rest, hf⟩ := List.exists_cons_of_ne_nil refused
    obtain ⟨report, error⟩ := accept_cons document finding rest
    have file_eq : document.file = file := by rw [← hd]
    rw [hf, error] at result
    refine ⟨report, ?_, result⟩
    rw [← found, hf, ← file_eq]
    refine accept_error_of_sorted ?_ (error tree)
    rw [← hf, found]
    exact deepRows_sorted settings 0 _

/-- A nest somewhere among nests, outside of slots, with how deep it lies. -/
inductive NestAt : List Nest → Nat → Nest → Prop where
  | top {nests : List Nest} {nest : Nest} (h : nest ∈ nests) : NestAt nests 0 nest
  | child {nests : List Nest} {parent nest : Nest} {depth : Nat} (h : parent ∈ nests)
      (hc : NestAt parent.children depth nest) : NestAt nests (depth + 1) nest

theorem mem_headRows {nests : List Nest} {nest : Nest} (h : nest ∈ nests) (level : Nat) :
    ∀ row ∈ nest.headRows level, row ∈ headRows level nests := by
  induction nests with
  | nil => cases h
  | cons first rest ih =>
    intro row member
    rw [headRows]
    rcases List.mem_cons.1 h with rfl | h
    · exact List.mem_append_left _ member
    · exact List.mem_append_right _ (ih h row member)

theorem NestAt.mem_headRows {nests : List Nest} {depth : Nat} {nest : Nest}
    (h : NestAt nests depth nest) (level : Nat) :
    (level + depth, nest.head) ∈ headRows level nests := by
  induction h generalizing level with
  | @top nests nest h =>
    refine TermOutline.mem_headRows h level _ ?_
    obtain ⟨head, children⟩ := nest
    exact List.mem_cons_self
  | @child nests parent nest depth h hc ih =>
    refine TermOutline.mem_headRows h level _ ?_
    have inner := ih (level + 1)
    rw [Nat.add_right_comm] at inner
    obtain ⟨head, children⟩ := parent
    exact List.mem_cons_of_mem _ inner

mutual

theorem Nest.headRows_at : ∀ (nest : Nest) (level : Nat), ∀ row ∈ nest.headRows level,
    row = (level, nest.head) ∨
      ∃ depth below, NestAt nest.children depth below ∧ row = (level + 1 + depth, below.head)
  | .mk head children, level, row, member => by
    rcases List.mem_cons.1 member with rfl | member
    · exact Or.inl rfl
    · exact Or.inr (headRows_at children (level + 1) row member)

theorem headRows_at : ∀ (nests : List Nest) (level : Nat), ∀ row ∈ headRows level nests,
    ∃ depth nest, NestAt nests depth nest ∧ row = (level + depth, nest.head)
  | [], _, _, member => by cases member
  | nest :: rest, level, row, member => by
    rcases List.mem_append.1 member with member | member
    · rcases nest.headRows_at level row member with rfl | ⟨depth, below, hb, rfl⟩
      · exact ⟨0, nest, .top List.mem_cons_self, rfl⟩
      · refine ⟨depth + 1, below, .child List.mem_cons_self hb, ?_⟩
        rw [Nat.add_right_comm, Nat.add_assoc]
    · obtain ⟨depth, below, hb, rfl⟩ := headRows_at rest level row member
      refine ⟨depth, below, ?_, rfl⟩
      cases hb with
      | top h => exact .top (List.mem_cons_of_mem _ h)
      | child h hc => exact .child (List.mem_cons_of_mem _ h) hc

end

theorem headRows_depth_iff (nests : List Nest) (maxDepth : Nat) :
    (∀ row ∈ headRows 0 nests, row.1 ≤ maxDepth) ↔
      ∀ depth nest, NestAt nests depth nest → depth ≤ maxDepth := by
  constructor
  · intro h depth nest placed
    have bound := h _ (placed.mem_headRows 0)
    omega
  · intro h row member
    obtain ⟨depth, nest, placed, rfl⟩ := headRows_at nests 0 row member
    have bound := h depth nest placed
    dsimp only
    omega

end TermOutline
