import Mathlib.Data.List.Flatten
import TermOutline.Proofs.Refusals

/-! # How often something is found

A reader sees a finding by its code and its span. What scanning or nesting finds is charged to
tokens: each finding starts where some token starts, and no token is charged twice for the same
code. Tokens start at different places, so the findings of these stages differ in their codes or
their spans.
-/
namespace TermOutline

/-- What tells a finding from others. -/
def Finding.mark (finding : Finding) : String × Span := (finding.fault.code, finding.span)

/-- No more findings have the mark than tokens start where it does. -/
def Counted (findings : List Finding) (tokens : List Token) (mark : String × Span) : Prop :=
  (findings.map Finding.mark).count mark ≤ (tokens.map Token.start).count mark.2.start

/-- Findings and where they start. -/
def findingStarts (findings : List Finding) : List Nat :=
  findings.map fun finding => finding.span.start

theorem findingStarts_append (front back : List Finding) :
    findingStarts (front ++ back) = findingStarts front ++ findingStarts back := List.map_append

theorem count_mark_le (findings : List Finding) (mark : String × Span) :
    (findings.map Finding.mark).count mark ≤ (findingStarts findings).count mark.2.start := by
  have same : findingStarts findings =
      (findings.map Finding.mark).map fun mark => mark.2.start := by
    rw [List.map_map]
    rfl
  rw [same]
  exact @List.count_le_count_map _ _ _ _ _ _ _ (fun mark => mark.2.start) mark

theorem Counted.append {front back : List Finding} {tokens more : List Token}
    {mark : String × Span} (hf : Counted front tokens mark) (hb : Counted back more mark) :
    Counted (front ++ back) (tokens ++ more) mark := by
  rw [Counted, List.map_append, List.map_append, List.count_append, List.count_append]
  exact Nat.add_le_add hf hb

theorem Counted.mono {findings : List Finding} {tokens more : List Token} {mark : String × Span}
    (h : Counted findings tokens mark) (part : tokens.Sublist more) :
    Counted findings more mark :=
  Nat.le_trans h ((part.map Token.start).count_le _)

theorem contiguous_starts {offset : Nat} {tokens : List Token} (h : Contiguous offset tokens) :
    (tokens.map Token.start).Nodup ∧ ∀ start ∈ tokens.map Token.start, offset ≤ start := by
  induction tokens generalizing offset with
  | nil => simp
  | cons token rest ih =>
    obtain ⟨start, text, contiguous⟩ := h
    obtain ⟨distinct, later⟩ := ih contiguous
    have size := byteLength_pos text
    have stop : token.span.stop = offset + token.text.byteLength := by
      rw [Token.span, start]
    rw [List.map_cons, List.nodup_cons]
    refine ⟨⟨?_, distinct⟩, List.forall_mem_cons.2 ⟨Nat.le_of_eq start.symm, ?_⟩⟩
    · intro member
      have behind := later _ member
      omega
    · intro other member
      have behind := later other member
      omega

theorem tokens_starts (text : Source) : (text.tokens.map Token.start).Nodup :=
  (contiguous_starts (scans_contiguous (scans_tokens text))).1

theorem Counted.once {text : Source} {findings : List Finding} {mark : String × Span}
    (h : Counted findings text.tokens mark) : (findings.map Finding.mark).count mark ≤ 1 :=
  Nat.le_trans h (List.nodup_iff_count.1 (tokens_starts text) _)

/-! ## Scanning -/

theorem joinUnknown_starts (token : Token) (tokens : List Token) :
    ((joinUnknown token tokens).map Token.start).Sublist
      (token.start :: tokens.map Token.start) := by
  cases tokens with
  | nil => exact .refl _
  | cons next rest =>
    rw [joinUnknown]
    by_cases both : token.kind = .unknown ∧ next.kind = .unknown
    · rw [if_pos both]
      exact .cons_cons _ (.cons _ (.refl _))
    · rw [if_neg both]
      exact .refl _

theorem joined_starts (tokens : List Token) :
    ((tokens.foldr joinUnknown []).map Token.start).Sublist (tokens.map Token.start) := by
  induction tokens with
  | nil => exact .refl _
  | cons token rest ih =>
    rw [List.foldr_cons, List.map_cons]
    exact (joinUnknown_starts token _).trans (ih.cons_cons _)

theorem finding?_starts (tokens : List Token) :
    (findingStarts (tokens.filterMap Token.finding?)).Sublist (tokens.map Token.start) := by
  induction tokens with
  | nil => exact .refl _
  | cons token rest ih =>
    rw [List.map_cons, List.filterMap_cons]
    cases hf : token.finding? with
    | none => exact ih.cons _
    | some finding =>
      obtain ⟨fault, _, rfl⟩ := Option.map_eq_some_iff.1 hf
      exact ih.cons_cons _

theorem codeFault?_code {text : Source} {fault : Fault} (h : codeFault? text = some fault) :
    fault.code ≠ Fault.openText.code := by
  rw [codeFault?] at h
  split at h
  · cases h
    decide
  · split at h
    · cases h
      simp [Fault.code]
    · split at h
      · cases h
        simp [Fault.code]
      · obtain ⟨digit, _, rfl⟩ := Option.map_eq_some_iff.1 h
        simp [Fault.code]

theorem fault?_code {token : Token} {fault : Fault} (h : token.fault? = some fault) :
    fault.code ≠ Fault.openText.code := by
  cases hk : token.kind <;> simp only [Token.fault?, hk] at h <;> try cases h
  case tab | textBrace | unknown => simp [Fault.code]
  case badEscape =>
    obtain ⟨escaped, _, rfl⟩ := Option.map_eq_some_iff.1 h
    simp [Fault.code]
  case code => exact codeFault?_code h
  case decimal =>
    split at h
    · cases h
      simp [Fault.code]
    · cases h

/-- The spans a scanner remembers, in the order in which they were read. -/
def Scanner.spans (scanner : Scanner) : List Span :=
  scanner.abandoned ++ scanner.openings.reverse.filterMap fun opening =>
    match opening with
    | .text span => some span
    | .slot => none

theorem Scanner.outermost_sublist (scanner : Scanner) :
    (scanner.abandoned ++ scanner.outermost).Sublist scanner.spans := by
  rw [spans, outermost]
  refine List.Sublist.append_left ?_ _
  rw [← List.head?_reverse]
  cases scanner.openings.reverse with
  | nil => exact .refl _
  | cons opening rest =>
    cases opening with
    | text span => exact List.Sublist.cons_cons _ (List.nil_sublist _)
    | slot => exact List.nil_sublist _

/-- A scanner remembers nothing but what it reads. -/
theorem Scanner.step_spans (scanner : Scanner) (token : Token) :
    (scanner.step token).spans.Sublist (scanner.spans ++ [token.span]) := by
  have kept : scanner.spans.Sublist (scanner.spans ++ [token.span]) := List.sublist_append_left _ _
  cases hk : token.kind <;> simp only [Scanner.step, hk] <;> try exact kept
  case line =>
    refine List.Sublist.trans ?_ (scanner.outermost_sublist.trans kept)
    simp [spans, abandon]
  case textOpen => simp [spans]
  case slotOpen =>
    refine List.Sublist.trans ?_ kept
    simp [spans]
  case textClose =>
    refine List.Sublist.trans ?_ kept
    exact List.Sublist.append_left ((List.tail_sublist _).reverse.filterMap _) _
  case slotClose =>
    split
    · next outer ho =>
      refine List.Sublist.trans ?_ kept
      rw [spans, spans, ho]
      exact List.Sublist.append_left ((List.sublist_cons_self _ _).reverse.filterMap _) _
    · exact kept

theorem foldl_step_spans (scanner : Scanner) (tokens : List Token) :
    (tokens.foldl Scanner.step scanner).spans.Sublist (scanner.spans ++ tokens.map Token.span) := by
  induction tokens generalizing scanner with
  | nil => simp
  | cons token rest ih =>
    have tail := ih (scanner.step token)
    refine tail.trans ?_
    rw [List.map_cons, ← List.singleton_append, ← List.append_assoc]
    exact (scanner.step_spans token).append_right _

theorem unclosedTexts_starts (tokens : List Token) :
    ((unclosedTexts tokens).map Span.start).Sublist (tokens.map Token.start) := by
  have spans : (unclosedTexts tokens).Sublist (tokens.map Token.span) :=
    (Scanner.outermost_sublist _).trans (foldl_step_spans .initial tokens)
  have starts := spans.map Span.start
  rwa [List.map_map] at starts

theorem lexicalFindings_counted (tokens : List Token) (mark : String × Span) :
    Counted (lexicalFindings tokens) tokens mark := by
  rw [Counted, lexicalFindings, List.map_append, List.count_append]
  generalize hs : (tokens.foldr joinUnknown []).filterMap Token.finding? = single
  generalize ho : (unclosedTexts tokens).map (fun span => (⟨.openText, span⟩ : Finding)) = left
  have first : (findingStarts single).Sublist (tokens.map Token.start) := by
    rw [← hs]
    exact (finding?_starts _).trans (joined_starts tokens)
  have second : (findingStarts left).Sublist (tokens.map Token.start) := by
    rw [← ho, findingStarts, List.map_map]
    exact unclosedTexts_starts tokens
  -- The two halves have no code in common.
  by_cases code : mark.1 = Fault.openText.code
  · have none : (single.map Finding.mark).count mark = 0 := by
      refine List.count_eq_zero.2 ?_
      rintro member
      obtain ⟨finding, found, rfl⟩ := List.mem_map.1 member
      rw [← hs] at found
      obtain ⟨token, _, reported⟩ := List.mem_filterMap.1 found
      obtain ⟨fault, faulty, rfl⟩ := Option.map_eq_some_iff.1 reported
      exact fault?_code faulty code
    rw [none, Nat.zero_add]
    exact Nat.le_trans (count_mark_le left mark) (second.count_le _)
  · have none : (left.map Finding.mark).count mark = 0 := by
      refine List.count_eq_zero.2 ?_
      rintro member
      obtain ⟨finding, found, rfl⟩ := List.mem_map.1 member
      rw [← ho] at found
      obtain ⟨span, _, rfl⟩ := List.mem_map.1 found
      exact code rfl
    rw [none, Nat.add_zero]
    exact Nat.le_trans (count_mark_le single mark) (first.count_le _)

/-! ## Nesting -/

/-- The start of an item in which a value is found. -/
def Item.valueStart (item : Item) : List Nat := if item.isValue then [item.span.start] else []

theorem count_min_le (one other start : Nat) :
    [min one other].count start ≤ [one].count start + [other].count start := by
  rcases Nat.le_total one other with le | le
  · rw [Nat.min_eq_left le]
    exact Nat.le_add_right _ _
  · rw [Nat.min_eq_right le]
    exact Nat.le_add_left _ _

/-- Brackets that hold nothing are charged to the bracket that comes first. -/
theorem count_empty_le (items : List Item) (fault : Fault) (opening closing : Token) (start : Nat) :
    (findingStarts (if items.isEmpty then [⟨fault, opening.span.cover closing.span⟩] else [])).count
        start ≤ [opening.start].count start + [closing.start].count start := by
  by_cases none : items.isEmpty = true
  · rw [if_pos none]
    exact count_min_le opening.start closing.start start
  · rw [if_neg none]
    exact Nat.zero_le _

theorem count_enclosed (opening closing : Token) (inner : List Token) (start : Nat) :
    ((opening :: (inner ++ [closing])).map Token.start).count start =
      [opening.start].count start + (inner.map Token.start).count start +
        [closing.start].count start := by
  rw [← List.singleton_append, List.map_append, List.map_append, List.count_append,
    List.count_append, Nat.add_assoc]
  rfl

theorem valueFinding_starts (source : Source) (item : Item) (has : Bool) (start : Nat) :
    (findingStarts (if item.isValue && has then [valueFinding source item] else [])).count start ≤
      item.valueStart.count start := by
  rw [Item.valueStart]
  cases item.isValue with
  | false => exact Nat.zero_le _
  | true =>
    cases has with
    | false => exact Nat.zero_le _
    | true => exact Nat.le_refl _

mutual

theorem item_starts (source : Source) : ∀ (item : Item) (start : Nat),
    (findingStarts (item.findings source)).count start + item.valueStart.count start ≤
      (item.tokens.map Token.start).count start
  | .token token, start => by
    rw [Item.findings, Item.tokens, Item.valueStart]
    by_cases value : (Item.token token).isValue = true
    · rw [if_pos value]
      exact Nat.le_of_eq (Nat.zero_add _)
    · rw [if_neg value]
      exact Nat.zero_le _
  | .call head opening items closing, start => by
    have empty := count_empty_le items .emptyCall opening closing start
    have inner := items_starts source items start
    have whole := count_enclosed opening closing (itemTokens items) start
    have tail := (List.sublist_cons_self head.start
      ((opening :: (itemTokens items ++ [closing])).map Token.start)).count_le start
    have none : (Item.call head opening items closing).valueStart.count start = 0 := rfl
    rw [Item.findings, findingStarts_append, List.count_append, none, Item.tokens, List.map_cons]
    omega
  | .text opening pieces closing, start => by
    have inner := pieces_starts source pieces start
    have whole := count_enclosed opening closing (pieceTokens pieces) start
    have value := count_min_le opening.start closing.start start
    have here : (Item.text opening pieces closing).valueStart = [min opening.start closing.start] :=
      rfl
    rw [Item.findings, Item.tokens, here]
    omega

theorem pieces_starts (source : Source) : ∀ (pieces : List Piece) (start : Nat),
    (findingStarts (pieceFindings source pieces)).count start ≤
      ((pieceTokens pieces).map Token.start).count start
  | [], _ => Nat.le_refl _
  | .cut token :: rest, start => by
    have tail := pieces_starts source rest start
    rw [pieceFindings, pieceTokens, List.map_append, List.count_append]
    exact Nat.le_trans tail (Nat.le_add_left _ _)
  | .slot opening items closing :: rest, start => by
    have empty := count_empty_le items .emptySlot opening closing start
    have inner := items_starts source items start
    have whole := count_enclosed opening closing (itemTokens items) start
    have tail := pieces_starts source rest start
    rw [pieceFindings, Piece.findings, findingStarts_append, findingStarts_append,
      List.count_append, List.count_append, pieceTokens, Piece.tokens, List.map_append,
      List.count_append]
    omega

theorem items_starts (source : Source) : ∀ (items : List Item) (start : Nat),
    (findingStarts (itemFindings source items)).count start ≤
      ((itemTokens items).map Token.start).count start
  | [], _ => Nat.le_refl _
  | item :: rest, start => by
    have first := item_starts source item start
    have value := valueFinding_starts source item (continuesChain rest) start
    have tail := items_starts source rest start
    rw [itemFindings, findingStarts_append, findingStarts_append, List.count_append,
      List.count_append, itemTokens, List.map_append, List.count_append]
    omega

end

/-- A comma after the head is charged to the comma, in which nothing else is found. -/
theorem headComma_starts (source : Source) (head : Item) (rest : List Item) (start : Nat) :
    (findingStarts (headCommaFindings source head rest)).count start +
        (findingStarts (itemFindings source rest)).count start ≤
      ((itemTokens rest).map Token.start).count start := by
  cases rest with
  | nil => exact Nat.le_refl _
  | cons next others =>
    rw [headCommaFindings]
    cases hc : next.comma? with
    | none =>
      have all := items_starts source (next :: others) start
      simpa [findingStarts] using all
    | some comma =>
      obtain ⟨rfl, kind⟩ := comma?_eq_some hc
      have tail := items_starts source others start
      have plain : (Item.token comma).isValue = false := by
        simp [Item.isValue, kind, TokenKind.isValue]
      rw [itemFindings, Item.findings, plain, itemTokens, Item.tokens, List.map_append,
        List.count_append]
      exact Nat.add_le_add_left tail _

theorem lineFindings_starts (source : Source) (followed : Bool) (items : List Item) (start : Nat) :
    (findingStarts (lineFindings source followed items)).count start ≤
      ((itemTokens items).map Token.start).count start := by
  cases items with
  | nil => exact Nat.le_refl _
  | cons head rest =>
    have first := item_starts source head start
    have value := valueFinding_starts source head
      (followed || rest.any fun item => !item.isComma) start
    have others := headComma_starts source head rest start
    rw [lineFindings, findingStarts_append, findingStarts_append, findingStarts_append,
      List.count_append, List.count_append, List.count_append, itemTokens, List.map_append,
      List.count_append]
    omega

theorem indentSpan_space {tokens : List Token} (h : (indentSpan tokens).length ≠ 0) :
    ∃ space rest, tokens = space :: rest ∧ space.isTrivia = true ∧
      indentSpan tokens = space.span := by
  cases tokens with
  | nil => exact absurd rfl h
  | cons token rest =>
    rw [indentSpan] at h ⊢
    by_cases space : token.kind = .space
    · refine ⟨token, rest, rfl, ?_, if_pos space⟩
      rw [Token.isTrivia, space]
      rfl
    · rw [if_neg space] at h
      exact absurd (Nat.sub_self _) h

theorem content_starts (tokens : List Token) (start : Nat) :
    ((content tokens).map Token.start).count start ≤ (tokens.map Token.start).count start :=
  (List.filter_sublist.map Token.start).count_le start

theorem depthFindings_starts {settings : Settings} {tokens : List Token} {line : Line}
    (h : line.Reads settings tokens) (limit depth start : Nat) :
    (findingStarts (depthFindings ⟨line, limit, depth⟩)).count start +
        ((content tokens).map Token.start).count start ≤ (tokens.map Token.start).count start := by
  rw [depthFindings]
  by_cases fits : line.depth ≤ limit
  · rw [if_pos fits]
    exact Nat.le_trans (Nat.le_of_eq (Nat.zero_add _)) (content_starts tokens start)
  · have indented : (indentSpan tokens).length ≠ 0 := by
      rw [← h.indent, h.depth]
      have deep : 0 < line.depth := by omega
      exact Nat.ne_of_gt (Nat.mul_pos deep settings.indentWidth_pos)
    obtain ⟨space, rest, rfl, trivia, place⟩ := indentSpan_space indented
    rw [if_neg fits, content_trivia trivia, h.indent, place]
    change _ ≤ ([space.start] ++ rest.map Token.start).count start
    rw [List.count_append]
    exact Nat.add_le_add_left (content_starts rest start) _

theorem treeFindings_starts {settings : Settings} {bodies : List (List Token)} {lines : List Line}
    (h : List.Forall₂ (Line.Reads settings) bodies lines) (source : Source) (limit start : Nat) :
    (findingStarts (treeFindings source (clampDepths settings.maxDepth limit lines))).count start ≤
      (bodies.flatten.map Token.start).count start := by
  induction h generalizing limit with
  | nil => exact Nat.le_refl _
  | @cons body line bodies lines read _ ih =>
    rw [clampDepths, treeFindings, findingStarts_append, findingStarts_append, List.count_append,
      List.count_append, List.flatten_cons, List.map_append, List.count_append]
    dsimp only
    have deep := depthFindings_starts read limit (min line.depth limit) start
    have own := lineFindings_starts source (startsDeeper (min line.depth limit)
      (clampDepths settings.maxDepth (min (min line.depth limit + 1) settings.maxDepth) lines))
      line.items start
    have tail := ih (min (min line.depth limit + 1) settings.maxDepth)
    rw [read.made] at own
    omega

theorem contentLines_sublist (tokens : List Token) :
    (contentLines tokens).flatten.Sublist tokens := by
  have lines : (contentLines tokens).Sublist (splitLines tokens) := List.filter_sublist
  have part := lines.flatten
  rw [splitLines_flatten] at part
  exact part

theorem treeFindings_counted {settings : Settings} {tokens : List Token} {lines : List Line}
    (h : LinesRead settings tokens lines) (source : Source) (mark : String × Span) :
    Counted (treeFindings source (clampDepths settings.maxDepth 0 lines)) tokens mark := by
  have charged : Counted (treeFindings source (clampDepths settings.maxDepth 0 lines))
      (contentLines tokens).flatten mark :=
    Nat.le_trans (count_mark_le _ mark) (treeFindings_starts h source 0 mark.2.start)
  exact charged.mono (contentLines_sublist tokens)

end TermOutline
