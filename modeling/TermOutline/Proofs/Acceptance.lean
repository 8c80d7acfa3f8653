import Mathlib.Data.List.Chain
import TermOutline.Proofs.Grammar
import TermOutline.Proofs.Stages

/-! # Which documents are accepted

A document has a tree exactly when its tokens have no lexical fault, every line of them is indented
by whole levels and can be derived from the grammar, and the levels of the lines fit together.
-/
namespace TermOutline

/-- What a line says: its level, its head, and the nests that come after the head on the line. -/
structure Row where
  depth : Nat
  head : Head
  nests : List Nest

/-- How many spaces a line starts with. -/
def leadingSpaces : List Token → Nat
  | [] => 0
  | token :: _ => if token.kind = .space then token.text.byteLength else 0

structure Row.Reads (settings : Settings) (tokens : List Token) (row : Row) : Prop where
  depth : leadingSpaces tokens = row.depth * settings.indentWidth
  derives : ReadsLine (content tokens) row.head row.nests

/-- The levels of lines that follow each other, of which the first may be as deep as `limit`. -/
structure RowsFit (maxDepth limit : Nat) (rows : List Row) : Prop where
  first : ∀ row ∈ rows.head?, row.depth ≤ limit
  steps : rows.IsChain fun row next => next.depth ≤ row.depth + 1
  values : rows.IsChain fun row next => row.head.isValue = true → next.depth ≤ row.depth
  depths : ∀ row ∈ rows.tail, row.depth ≤ maxDepth

/-- The grammar of documents. -/
structure Accepts (settings : Settings) (tokens : List Token) : Prop where
  faultless : Faultless tokens
  closed : Closed .initial tokens
  rows : ∃ rows, List.Forall₂ (Row.Reads settings) (contentLines tokens) rows ∧
    (∀ row ∈ rows.head?, row.depth = 0) ∧
    (rows.IsChain fun row next => next.depth ≤ row.depth + 1) ∧
    (∀ row ∈ rows, row.depth ≤ settings.maxDepth) ∧
    rows.IsChain fun row next => row.head.isValue = true → next.depth ≤ row.depth

/-- A line whose items say what a row said. -/
structure Line.Says (source : Source) (line : Line) (row : Row) : Prop where
  depth : line.depth = row.depth
  means : LineMeans source line.items row.head row.nests

theorem indentSpan_length (tokens : List Token) :
    (indentSpan tokens).length = leadingSpaces tokens := by
  cases tokens with
  | nil => rfl
  | cons token rest =>
    rw [indentSpan, leadingSpaces]
    by_cases space : token.kind = .space
    · rw [if_pos space, if_pos space]
      exact Nat.add_sub_cancel_left ..
    · rw [if_neg space, if_neg space]
      exact Nat.sub_self _

theorem rowsFit_cons {maxDepth limit : Nat} {row : Row} {rows : List Row} :
    RowsFit maxDepth limit (row :: rows) ↔ row.depth ≤ limit ∧
      (row.head.isValue = true → ∀ next ∈ rows.head?, next.depth ≤ row.depth) ∧
      RowsFit maxDepth (min (row.depth + 1) maxDepth) rows := by
  cases rows with
  | nil =>
    constructor
    · intro h
      exact ⟨h.first row rfl, by simp, by simp, .nil, .nil, by simp⟩
    · rintro ⟨first, _, _⟩
      exact ⟨by simpa using first, .singleton _, .singleton _, by simp⟩
  | cons next rest =>
    constructor
    · intro h
      have ⟨step, steps⟩ := List.isChain_cons_cons.1 h.steps
      have ⟨value, values⟩ := List.isChain_cons_cons.1 h.values
      have ⟨depth, depths⟩ := List.forall_mem_cons.1 h.depths
      refine ⟨h.first row rfl, by simpa using value, ?_, steps, values, depths⟩
      rintro other ⟨⟩
      exact Nat.le_min.2 ⟨step, depth⟩
    · rintro ⟨first, value, h⟩
      have ⟨step, depth⟩ := Nat.le_min.1 (h.first next rfl)
      refine ⟨by simpa using first, .cons_cons step h.steps, .cons_cons ?_ h.values,
        List.forall_mem_cons.2 ⟨depth, h.depths⟩⟩
      intro isValue
      exact value isValue next rfl

theorem depthFindings_eq_nil {clamped : ClampedLine} :
    depthFindings clamped = [] ↔ clamped.line.depth ≤ clamped.limit := by
  rw [depthFindings]
  by_cases fits : clamped.line.depth ≤ clamped.limit
  · simp [fits]
  · simp [fits]

theorem startsDeeper_eq_false_iff {source : Source} {maxDepth limit : Nat} {lines : List Line}
    {rows : List Row} (h : List.Forall₂ (Line.Says source) lines rows)
    (first : ∀ row ∈ rows.head?, row.depth ≤ limit) (depth : Nat) :
    startsDeeper depth (clampDepths maxDepth limit lines) = false ↔
      ∀ next ∈ rows.head?, next.depth ≤ depth := by
  cases h with
  | nil => simp [clampDepths, startsDeeper]
  | cons said _ =>
    have fits := first _ rfl
    simp only [clampDepths, startsDeeper, said.depth, Nat.min_eq_left fits]
    simp

theorem treeFindings_eq_nil_iff {source : Source} {maxDepth limit : Nat} {lines : List Line}
    {rows : List Row} (h : List.Forall₂ (Line.Says source) lines rows) :
    treeFindings source (clampDepths maxDepth limit lines) = [] ↔ RowsFit maxDepth limit rows := by
  induction h generalizing limit with
  | nil => exact ⟨fun _ => ⟨by simp, .nil, .nil, by simp⟩, fun _ => rfl⟩
  | @cons line row lines rows said others ih =>
    rw [rowsFit_cons, clampDepths, treeFindings, List.append_eq_nil_iff, List.append_eq_nil_iff,
      depthFindings_eq_nil, said.means.quiet, said.depth]
    dsimp only
    rw [ih, and_assoc]
    refine and_congr_right ?_
    intro fits
    rw [Nat.min_eq_left fits]
    refine and_congr_left ?_
    intro rest
    rw [startsDeeper_eq_false_iff others rest.first]

theorem Line.Reads.row {source : Source} {settings : Settings} {tokens : List Token} {line : Line}
    {followed : Bool} (h : line.Reads settings tokens)
    (quiet : lineFindings source followed line.items = []) :
    ∃ row : Row, row.Reads settings tokens ∧ line.Says source row := by
  obtain ⟨head, nests, reads, means⟩ := line_reads h.nonempty h.sound h.commas quiet
  refine ⟨⟨line.depth, head, nests⟩, ⟨?_, ?_⟩, rfl, means⟩
  · rw [← indentSpan_length, ← h.indent, h.depth]
  · rw [← h.made]
    exact reads

theorem Row.Reads.line {settings : Settings} {tokens : List Token} {row : Row}
    (h : row.Reads settings tokens) (ne : content tokens ≠ []) (source : Source) :
    ∃ line : Line, line.Reads settings tokens ∧ line.Says source row := by
  obtain ⟨items, nonempty, made, means⟩ := h.derives.items source
  cases trimmed : trimTrivia tokens with
  | nil =>
    rw [← content_trimTrivia, trimmed] at ne
    exact absurd rfl ne
  | cons first rest =>
    refine ⟨⟨row.depth, indentSpan tokens, tokenSpan first rest, items⟩,
      ⟨nonempty, means.sound, made, means.commas, rfl, ?_, first, rest, trimmed, rfl⟩, rfl, means⟩
    rw [indentSpan_length, h.depth]

theorem treeFindings_quiet {source : Source} {lines : List ClampedLine}
    (h : treeFindings source lines = []) :
    ∀ clamped ∈ lines, ∃ followed, lineFindings source followed clamped.line.items = [] := by
  induction lines with
  | nil => simp
  | cons clamped rest ih =>
    simp only [treeFindings, List.append_eq_nil_iff] at h
    exact List.forall_mem_cons.2 ⟨⟨_, h.1.2⟩, ih h.2⟩

theorem rows_of_lines {source : Source} {settings : Settings} {tokens : List (List Token)}
    {lines : List Line} (h : List.Forall₂ (Line.Reads settings) tokens lines)
    (quiet : ∀ line ∈ lines, ∃ followed, lineFindings source followed line.items = []) :
    ∃ rows, List.Forall₂ (Row.Reads settings) tokens rows ∧
      List.Forall₂ (Line.Says source) lines rows := by
  induction h with
  | nil => exact ⟨[], .nil, .nil⟩
  | cons read _ ih =>
    have ⟨⟨followed, first⟩, others⟩ := List.forall_mem_cons.1 quiet
    obtain ⟨row, reads, said⟩ := read.row first
    obtain ⟨rows, hr, hs⟩ := ih others
    exact ⟨row :: rows, .cons reads hr, .cons said hs⟩

theorem lines_of_rows {settings : Settings} {tokens : List (List Token)} {rows : List Row}
    (h : List.Forall₂ (Row.Reads settings) tokens rows) (ne : ∀ line ∈ tokens, content line ≠ [])
    (source : Source) :
    ∃ lines, List.Forall₂ (Line.Reads settings) tokens lines ∧
      List.Forall₂ (Line.Says source) lines rows := by
  induction h with
  | nil => exact ⟨[], .nil, .nil⟩
  | cons read _ ih =>
    have ⟨first, others⟩ := List.forall_mem_cons.1 ne
    obtain ⟨line, reads, said⟩ := read.line first source
    obtain ⟨lines, hr, hs⟩ := ih others
    exact ⟨line :: lines, .cons reads hr, .cons said hs⟩

theorem mem_contentLines {tokens line : List Token} (h : line ∈ contentLines tokens) :
    content line ≠ [] := by
  simpa using (List.mem_filter.1 h).2

theorem rowsFit_zero_iff {maxDepth : Nat} {rows : List Row} :
    RowsFit maxDepth 0 rows ↔ (∀ row ∈ rows.head?, row.depth = 0) ∧
      (rows.IsChain fun row next => next.depth ≤ row.depth + 1) ∧
      (∀ row ∈ rows, row.depth ≤ maxDepth) ∧
      rows.IsChain fun row next => row.head.isValue = true → next.depth ≤ row.depth := by
  constructor
  · intro h
    refine ⟨fun row hr => Nat.le_zero.1 (h.first row hr), h.steps, ?_, h.values⟩
    intro row member
    cases rows with
    | nil => cases member
    | cons first rest =>
      rcases List.mem_cons.1 member with rfl | later
      · have := h.first row rfl
        omega
      · exact h.depths row later
  · rintro ⟨first, steps, depths, values⟩
    refine ⟨fun row hr => Nat.le_of_eq (first row hr), steps, values, ?_⟩
    intro row member
    exact depths row (List.mem_of_mem_tail member)

theorem parse_rows {document : Document} {settings : Settings} {tree : Tree}
    (h : document.parse settings = .ok tree) : ∃ lines rows,
      List.Forall₂ (Row.Reads settings) (contentLines document.text.tokens) rows ∧
      List.Forall₂ (Line.Says document.text) lines rows ∧ RowsFit settings.maxDepth 0 rows ∧
      tree.Holds settings document.text.tokens lines := by
  obtain ⟨_, _, lines, read, quiet, holds⟩ := parse_eq_ok h
  have each : ∀ line ∈ lines, ∃ followed, lineFindings document.text followed line.items = [] := by
    intro line member
    rw [← clampDepths_lines settings.maxDepth 0 lines] at member
    obtain ⟨clamped, found, rfl⟩ := List.mem_map.1 member
    exact treeFindings_quiet quiet clamped found
  obtain ⟨rows, reads, said⟩ := rows_of_lines read each
  exact ⟨lines, rows, reads, said, (treeFindings_eq_nil_iff said).1 quiet, holds⟩

/-- A document has a tree exactly when the grammar of documents accepts its tokens. -/
theorem parse_ok_iff_accepts (document : Document) (settings : Settings) :
    (∃ tree, document.parse settings = .ok tree) ↔ Accepts settings document.text.tokens := by
  constructor
  · rintro ⟨tree, h⟩
    obtain ⟨lines, rows, reads, _, fit, _⟩ := parse_rows h
    obtain ⟨faultless, closed, _⟩ := parse_eq_ok h
    exact ⟨faultless, closed, rows, reads, rowsFit_zero_iff.1 fit⟩
  · rintro ⟨faultless, closed, rows, reads, fit⟩
    obtain ⟨lines, read, said⟩ := lines_of_rows reads (fun _ => mem_contentLines) document.text
    obtain ⟨tree, _, parsed⟩ := parse_of_linesRead faultless closed read
    have quiet := (treeFindings_eq_nil_iff said).2 (rowsFit_zero_iff.2 fit)
    rw [quiet, accept_nil] at parsed
    exact ⟨tree, parsed⟩

end TermOutline
