import TermOutline.Proofs.MovedTrees
import TermOutline.Proofs.Refusals
import TermOutline.Proofs.Respelling

/-! # Moved documents

A text whose tokens are those of another, moved without a change to what they say, is accepted
whenever the other is, and means the same. Whatever is found in the other is found in it, in the
same order, at the place it has been moved to.
-/
namespace TermOutline

/-- Two texts with the same tokens at different places. Only line breaks may be written otherwise,
and a stretch within a line keeps its length and says the same. -/
structure Relocation.Carries (move : Relocation) (text other : Source) : Prop where
  tokens : other.tokens = text.tokens.map move.token
  words : ∀ token ∈ text.tokens, token.kind ≠ .line → (move.token token).text = token.text
  lengths : ∀ span : Span, span.Marks text → (move.span span).length = span.length
  texts : ∀ span : Span, span.Marks text → sourceText other (move.span span) = sourceText text span

/-- Runs of tokens that say the same in another text, where they have been moved. -/
def Relocation.KeepsText (move : Relocation) (text other : Source) (tokens : List Token) : Prop :=
  ∀ first rest, first :: rest <:+: tokens →
    sourceText other (move.span (tokenSpan first rest)) = sourceText text (tokenSpan first rest)

section Nesting

variable {move : Relocation} {text other : Source}

theorem Relocation.KeepsText.part {tokens more : List Token} (h : move.KeepsText text other more)
    (sub : tokens <:+: more) : move.KeepsText text other tokens :=
  fun first rest run => h first rest (run.trans sub)

@[simp] theorem item_isValue_relocate (item : Item) :
    (item.relocate move).isValue = item.isValue := by
  cases item with
  | token t => simp [Item.relocate, Item.isValue]
  | call => rfl
  | text => rfl

@[simp] theorem item_span_relocate (item : Item) :
    (item.relocate move).span = move.span item.span := by
  cases item <;> simp [Item.relocate, Item.span, move.span_cover]

theorem continuesChain_relocate (items : List Item) :
    continuesChain (items.map (Item.relocate move)) = continuesChain items := by
  cases items <;> simp [continuesChain]

theorem sourceText_item {item : Item} (h : move.KeepsText text other item.tokens) :
    sourceText other (move.span item.span) = sourceText text item.span := by
  obtain ⟨first, rest, tokens, span⟩ := item.span_eq
  rw [span]
  exact h first rest (tokens ▸ List.infix_rfl)

theorem valueFinding_relocate {item : Item} (h : move.KeepsText text other item.tokens) :
    valueFinding other (item.relocate move) = move.finding (valueFinding text item) := by
  rw [valueFinding, item_span_relocate, sourceText_item h]
  rfl

theorem map_finding_ite (condition : Prop) [Decidable condition] (finding : Finding) :
    (if condition then [finding] else []).map move.finding =
      if condition then [move.finding finding] else [] := by
  split <;> rfl

theorem emptyFinding_relocate (fault : Fault) (opening closing : Token) :
    move.finding ⟨fault, opening.span.cover closing.span⟩ =
      ⟨fault, (move.token opening).span.cover (move.token closing).span⟩ := by
  simp [Relocation.finding, move.span_cover]

mutual

theorem item_findings_relocate : ∀ (item : Item), move.KeepsText text other item.tokens →
    (item.relocate move).findings other = (item.findings text).map move.finding
  | .token _, _ => rfl
  | .call head opening items closing, h => by
    have inner := items_findings_relocate items
      (h.part ⟨[head, opening], [closing], by simp [Item.tokens]⟩)
    rw [Item.relocate, relocateItems_eq_map, Item.findings, Item.findings, inner,
      List.map_append, map_finding_ite, emptyFinding_relocate, List.isEmpty_map]
  | .text opening pieces closing, h => by
    have inner := pieces_findings_relocate pieces
      (h.part ⟨[opening], [closing], by simp [Item.tokens]⟩)
    rw [Item.relocate, relocatePieces_eq_map, Item.findings, Item.findings, inner]

theorem piece_findings_relocate : ∀ (piece : Piece), move.KeepsText text other piece.tokens →
    (piece.relocate move).findings other = (piece.findings text).map move.finding
  | .cut _, _ => rfl
  | .slot opening items closing, h => by
    have inner := items_findings_relocate items
      (h.part ⟨[opening], [closing], by simp [Piece.tokens]⟩)
    rw [Piece.relocate, relocateItems_eq_map, Piece.findings, Piece.findings, inner,
      List.map_append, map_finding_ite, emptyFinding_relocate, List.isEmpty_map]

theorem pieces_findings_relocate : ∀ (pieces : List Piece),
    move.KeepsText text other (pieceTokens pieces) →
    pieceFindings other (pieces.map (Piece.relocate move)) =
      (pieceFindings text pieces).map move.finding
  | [], _ => rfl
  | piece :: rest, h => by
    rw [List.map_cons, pieceFindings, pieceFindings, List.map_append,
      piece_findings_relocate piece (h.part (List.prefix_append _ _).isInfix),
      pieces_findings_relocate rest (h.part (List.suffix_append _ _).isInfix)]

theorem items_findings_relocate : ∀ (items : List Item),
    move.KeepsText text other (itemTokens items) →
    itemFindings other (items.map (Item.relocate move)) =
      (itemFindings text items).map move.finding
  | [], _ => rfl
  | item :: rest, h => by
    have own := h.part (List.prefix_append item.tokens (itemTokens rest)).isInfix
    rw [List.map_cons, itemFindings, itemFindings, List.map_append, List.map_append,
      map_finding_ite, item_findings_relocate item own, item_isValue_relocate,
      continuesChain_relocate, valueFinding_relocate own,
      items_findings_relocate rest (h.part (List.suffix_append _ _).isInfix)]

end

theorem headCommaFindings_relocate {head : Item} (h : move.KeepsText text other head.tokens)
    (rest : List Item) :
    headCommaFindings other (head.relocate move) (rest.map (Item.relocate move)) =
      (headCommaFindings text head rest).map move.finding := by
  cases rest with
  | nil => rfl
  | cons next others =>
    rw [List.map_cons, headCommaFindings, headCommaFindings, comma?_relocate]
    cases next.comma? with
    | none => rfl
    | some comma =>
      rw [Option.map_some]
      simp [Relocation.finding, sourceText_item h]

theorem lineFindings_relocate (followed : Bool) {items : List Item}
    (h : move.KeepsText text other (itemTokens items)) :
    lineFindings other followed (items.map (Item.relocate move)) =
      (lineFindings text followed items).map move.finding := by
  cases items with
  | nil => rfl
  | cons head rest =>
    have own := h.part (List.prefix_append head.tokens (itemTokens rest)).isInfix
    have others := h.part (List.suffix_append head.tokens (itemTokens rest)).isInfix
    have commas : ((rest.map (Item.relocate move)).any fun item => !item.isComma) =
        rest.any fun item => !item.isComma := by
      simp [List.any_map, Function.comp_def]
    rw [List.map_cons, lineFindings, lineFindings, List.map_append, List.map_append,
      List.map_append, map_finding_ite, item_findings_relocate head own,
      headCommaFindings_relocate own, item_isValue_relocate, commas, valueFinding_relocate own,
      items_findings_relocate rest others]

theorem startsDeeper_relocate (depth : Nat) (lines : List ClampedLine) :
    startsDeeper depth (lines.map (ClampedLine.relocate move)) = startsDeeper depth lines := by
  cases lines <;> rfl

theorem depthFindings_relocate (clamped : ClampedLine) :
    depthFindings (clamped.relocate move) = (depthFindings clamped).map move.finding := by
  by_cases fits : clamped.line.depth ≤ clamped.limit
  · rw [depthFindings_eq_nil.2 fits]
    exact depthFindings_eq_nil.2 fits
  · rw [depthFindings, depthFindings, if_neg fits]
    exact if_neg fits

theorem treeFindings_relocate {lines : List ClampedLine}
    (h : ∀ clamped ∈ lines, move.KeepsText text other (itemTokens clamped.line.items)) :
    treeFindings other (lines.map (ClampedLine.relocate move)) =
      (treeFindings text lines).map move.finding := by
  induction lines with
  | nil => rfl
  | cons clamped rest ih =>
    obtain ⟨first, others⟩ := List.forall_mem_cons.1 h
    have own := @lineFindings_relocate move text other (startsDeeper clamped.depth rest) _ first
    rw [List.map_cons, treeFindings, treeFindings, List.map_append, List.map_append, ih others,
      depthFindings_relocate, startsDeeper_relocate]
    exact congrArg (_ ++ · ++ _) own

end Nesting

/-- A token at its new place. A line break may be written otherwise there. -/
def Relocation.place (move : Relocation) (token : Token) : Token :=
  if token.kind = .line then move.token token else { token with start := move.offset token.start }

theorem place_of_ne_line (move : Relocation) {token : Token} (h : token.kind ≠ .line) :
    move.place token = { token with start := move.offset token.start } := if_neg h

theorem kind_place (move : Relocation) (token : Token) : (move.place token).kind = token.kind := by
  rw [Relocation.place]
  split
  · exact move.kind_token token
  · rfl

theorem fault?_place (move : Relocation) (token : Token) :
    (move.place token).fault? = token.fault? := by
  by_cases ending : token.kind = .line
  · simp only [Token.fault?, kind_place, ending]
  · rw [place_of_ne_line move ending]
    rfl

def Relocation.diagnostic (move : Relocation) (diagnostic : Diagnostic) : Diagnostic :=
  { diagnostic with span := move.span diagnostic.span }

section Carried

variable {move : Relocation} {text other : Source} (h : move.Carries text other)

include h

theorem Relocation.Carries.span_eq {span : Span} (marks : span.Marks text) :
    move.span span = ⟨move.offset span.start, move.offset span.start + span.length⟩ := by
  have length := h.lengths span marks
  have order := move.monotone (Nat.le_of_lt marks.bounds.1)
  rw [Span.length, Relocation.span] at length
  rw [Relocation.span, Span.mk.injEq]
  dsimp only at length
  omega

theorem Relocation.Carries.map_token : text.tokens.map move.token = text.tokens.map move.place := by
  apply List.map_congr_left
  intro token member
  by_cases ending : token.kind = .line
  · exact (if_pos ending).symm
  · rw [place_of_ne_line move ending, Token.mk.injEq]
    exact ⟨move.kind_token token, h.words token member ending, move.start_token token⟩

theorem tokenFindings_carried :
    tokenFindings other.tokens = (tokenFindings text.tokens).map move.finding := by
  have joined := foldr_joinUnknown_map (kind_place move) (by
    intro token next unknown unknown'
    rw [place_of_ne_line move (by simp [unknown]), place_of_ne_line move (by simp [unknown]),
      place_of_ne_line move (by simp [unknown'])]) text.tokens
  rw [tokenFindings, h.tokens, h.map_token, joined, List.filterMap_map, tokenFindings,
    List.map_filterMap]
  apply List.filterMap_congr
  intro token member
  cases fault : token.fault? with
  | none => simp [Token.finding?, fault?_place, fault]
  | some found =>
    have ending := (fault?_lexical fault).2
    have marks : token.span.Marks text := by
      refine (lexicalFindings_covers text ⟨found, token.span⟩ ?_).2.marks
      refine List.mem_append_left _ (List.mem_filterMap.2 ⟨token, member, ?_⟩)
      rw [Token.finding?, fault]
      rfl
    have span : (move.place token).span = move.span token.span := by
      rw [h.span_eq marks, place_of_ne_line move ending]
      simp [Token.span, Span.length]
    simp [Token.finding?, fault?_place, fault, span, Relocation.finding]

theorem lexicalFindings_carried :
    lexicalFindings other.tokens = (lexicalFindings text.tokens).map move.finding := by
  rw [lexicalFindings_eq, lexicalFindings_eq, tokenFindings_carried h, List.map_append,
    openFindings, openFindings, h.tokens, unclosedTexts_relocate]
  simp [Relocation.finding, Function.comp_def]

theorem readLines_carried (settings : Settings) :
    readLines settings other.tokens = (readLines settings text.tokens).map
      (List.map (Prod.map (Line.relocate move) (List.map move.finding))) := by
  rw [h.tokens]
  apply readLines_relocate
  intro line member
  have empty : ∀ offset, (move.span (.emptyAt offset)).length = (Span.emptyAt offset).length := by
    intro offset
    simp [Relocation.span, Span.emptyAt, Span.length]
  cases line with
  | nil => exact empty 0
  | cons token rest =>
    rw [indentSpan]
    split
    · next space =>
      refine h.lengths _ (covers_of_mem ?_ (by simp [space])).marks
      exact (splitLines_part member).subset List.mem_cons_self
    · exact empty token.start

theorem treeFindings_carried {settings : Settings} {lines : List Line}
    (read : LinesRead settings text.tokens lines) :
    treeFindings other (clampDepths settings.maxDepth 0 (lines.map (Line.relocate move))) =
      (treeFindings text (clampDepths settings.maxDepth 0 lines)).map move.finding := by
  rw [clampDepths_relocate]
  apply treeFindings_relocate
  intro clamped member first rest run
  have among : clamped.line ∈ lines := by
    rw [← clampDepths_lines settings.maxDepth 0 lines]
    exact List.mem_map_of_mem member
  obtain ⟨line, place, reads⟩ := forall₂_mem_right read among
  rw [reads.made] at run
  exact h.texts _ (covers_of_content run (List.mem_of_mem_filter place)).marks

/-- What is found in a moved document is what is found in the document, moved. -/
theorem findings_carried (file : String) (settings : Settings) :
    Document.findings ⟨file, other⟩ settings =
      (Document.findings ⟨file, text⟩ settings).map move.finding := by
  rw [Document.findings, Document.findings]
  dsimp only
  rw [lexicalFindings_carried h, readLines_carried h, List.isEmpty_map]
  by_cases passed : lexicalFindings text.tokens = []
  · obtain ⟨faultless, closed⟩ := (lexicalFindings_eq_nil_iff text).1 passed
    obtain ⟨pairs, read, attempts⟩ := readLines_spec settings faultless closed
    have lines : (pairs.map (Prod.map (Line.relocate move) (List.map move.finding))).map Prod.fst =
        (pairs.map Prod.fst).map (Line.relocate move) := by
      simp
    have found : (pairs.map (Prod.map (Line.relocate move) (List.map move.finding))).flatMap
        Prod.snd = (pairs.flatMap Prod.snd).map move.finding := by
      simp [List.flatMap_map, List.map_flatMap]
    simp only [passed, read, Except.map, List.isEmpty_nil, if_true, lines, found, List.isEmpty_map]
    by_cases quiet : pairs.flatMap Prod.snd = []
    · simp only [quiet, List.isEmpty_nil, if_true]
      exact treeFindings_carried h (attempts_read attempts (List.flatMap_eq_nil_iff.1 quiet))
    · rw [if_neg (by simpa using quiet), if_neg (by simpa using quiet)]
  · rw [if_neg (by simpa using passed), if_neg (by simpa using passed)]

theorem parse_carried_iff (file : String) (settings : Settings) :
    (∃ moved, Document.parse ⟨file, other⟩ settings = .ok moved) ↔
      ∃ tree, Document.parse ⟨file, text⟩ settings = .ok tree := by
  rw [parse_ok_iff_findings, parse_ok_iff_findings, findings_carried h, List.map_eq_nil_iff]

theorem outline_carried {file : String} {settings : Settings} {tree moved : Tree}
    (parsed : Document.parse ⟨file, text⟩ settings = .ok tree)
    (parsed' : Document.parse ⟨file, other⟩ settings = .ok moved) :
    moved.outline = tree.outline := by
  obtain ⟨faultless, closed, _⟩ := parse_eq_ok parsed'
  have lines : List.Forall₂ LineAlike (contentLines text.tokens) (contentLines other.tokens) := by
    rw [h.tokens, contentLines_relocate, List.forall₂_map_right_iff, List.forall₂_same]
    intro line member
    refine lineAlike_relocate move ?_
    intro token inside
    exact h.words token ((splitLines_part (List.mem_of_mem_filter member)).subset inside)
  obtain ⟨again, same, outline⟩ := parse_alike parsed faultless closed lines
  rw [parsed'] at same
  cases same
  exact outline

theorem report_carried (strict : StrictMono move.offset) {file : String} {settings : Settings}
    {failure failure' : Failure} (refused : Document.parse ⟨file, text⟩ settings = .error failure)
    (refused' : Document.parse ⟨file, other⟩ settings = .error failure') :
    ∃ report report' : Report, failure = .rejected report ∧ failure' = .rejected report' ∧
      report'.toList = report.toList.map move.diagnostic ∧
      ∀ diagnostic ∈ report.toList,
        diagnostic.placement = none ∧ diagnostic.span.Marks text := by
  obtain ⟨report, same, listed⟩ := parse_refused refused
  obtain ⟨report', same', listed'⟩ := parse_refused refused'
  refine ⟨report, report', same, same', ?_, ?_⟩
  · have order : ∀ one other : Diagnostic, (move.diagnostic one).span.start ≤
        (move.diagnostic other).span.start ↔ one.span.start ≤ other.span.start :=
      fun _ _ => strict.le_iff_le
    rw [listed', listed, findings_carried h, ← sortByStart_map order, List.map_map, List.map_map]
    rfl
  · intro diagnostic member
    rw [listed, mem_sortByStart] at member
    obtain ⟨finding, found, rfl⟩ := List.mem_map.1 member
    exact ⟨rfl, (findings_cover ⟨file, text⟩ settings finding found).2.marks⟩

end Carried

end TermOutline
