import TermOutline.Proofs.Locality

/-! # Findings mark runs of tokens

Whatever a stage finds wrong stands at a run of tokens of one line: at a single token, at unknown
characters side by side, or at everything from one bracket to another. So it stands at a stretch of
the text that is not empty, begins and ends between characters, and holds no line feed.
-/
namespace TermOutline

/-- A stretch of a text, from one place between characters to another, that holds no line feed. -/
def Span.Marks (span : Span) (text : Source) : Prop :=
  ∃ before inside after : Source, text = before ++ inside ++ after ∧ inside ≠ [] ∧
    '\n' ∉ inside ∧ span.start = before.byteLength ∧ span.stop = (before ++ inside).byteLength

/-- The stretch of a run of tokens that no line break is among. -/
def Covers (tokens : List Token) (span : Span) : Prop :=
  ∃ first rest, first :: rest <:+: tokens ∧ (∀ token ∈ first :: rest, token.kind ≠ .line) ∧
    span = tokenSpan first rest

theorem tokenSpan_nil (token : Token) : tokenSpan token [] = token.span := by
  simp [tokenSpan, Span.cover]

theorem tokenSpan_concat (first : Token) (front : List Token) (last : Token) :
    tokenSpan first (front ++ [last]) = first.span.cover last.span := by
  have final : (first :: (front ++ [last])).getLast (List.cons_ne_nil _ _) = last := by
    simp
  rw [tokenSpan, final]

theorem Covers.mono {tokens more : List Token} {span : Span} (h : Covers tokens span)
    (part : tokens <:+: more) : Covers more span := by
  obtain ⟨first, rest, run, kinds, same⟩ := h
  exact ⟨first, rest, run.trans part, kinds, same⟩

theorem covers_of_mem {tokens : List Token} {token : Token} (h : token ∈ tokens)
    (kind : token.kind ≠ .line) : Covers tokens token.span := by
  obtain ⟨front, back, rfl⟩ := List.append_of_mem h
  exact ⟨token, [], ⟨front, back, by simp⟩, by simpa using kind, (tokenSpan_nil token).symm⟩

theorem contiguous_tokenSpan {offset : Nat} {first : Token} {rest : List Token}
    (h : Contiguous offset (first :: rest)) :
    tokenSpan first rest =
      ⟨offset, offset + Source.byteLength ((first :: rest).flatMap Token.text)⟩ := by
  have start : first.start = offset := h.1
  rcases List.eq_nil_or_concat rest with rfl | ⟨front, last, rfl⟩
  · rw [tokenSpan_nil, Token.span, start]
    simp
  · rw [List.concat_eq_append] at h ⊢
    rw [← List.cons_append] at h ⊢
    have stop := contiguous_stop h
    have place := (contiguous_append_iff.1 h).2.1
    rw [tokenSpan_concat, Span.cover, Span.mk.injEq]
    simp only [Token.span, List.flatMap_append, List.flatMap_cons, Source.byteLength_append] at *
    omega

theorem Covers.marks {text : Source} {span : Span} (h : Covers text.tokens span) :
    span.Marks text := by
  obtain ⟨first, rest, ⟨front, back, split⟩, kinds, rfl⟩ := h
  have scanned := scans_tokens text
  have whole := scans_text scanned
  have contiguous := scans_contiguous scanned
  rw [← split, List.append_assoc, contiguous_append_iff, contiguous_append_iff, Nat.zero_add]
    at contiguous
  have run := contiguous.2.1
  refine ⟨front.flatMap Token.text, (first :: rest).flatMap Token.text, back.flatMap Token.text,
    ?_, ?_, ?_, ?_⟩
  · rw [← whole, ← split, List.flatMap_append, List.flatMap_append]
  · rw [List.flatMap_cons]
    exact List.append_ne_nil_of_left_ne_nil run.2.1 _
  · intro feed
    obtain ⟨token, member, inside⟩ := List.mem_flatMap.1 feed
    have found : token ∈ text.tokens := by
      rw [← split]
      exact List.mem_append_left _ (List.mem_append_right _ member)
    exact kinds token member ((scans_endsLine scanned token found).of_mem inside)
  · rw [contiguous_tokenSpan run, Source.byteLength_append]
    exact ⟨rfl, rfl⟩

theorem Joined.covers {offset : Nat} {runs : List (List Token)} {run : List Token} {token : Token}
    (h : Joined run token) (contiguous : Contiguous offset runs.flatten) (member : run ∈ runs)
    (kind : token.kind ≠ .line) : Covers runs.flatten token.span := by
  obtain ⟨front, back, rfl⟩ := List.append_of_mem member
  obtain ⟨first, rest, rfl, start⟩ := h.start
  rw [List.flatten_append, List.flatten_cons] at contiguous ⊢
  have part := (contiguous_append_iff.1 (contiguous_append_iff.1 contiguous).2).1
  refine ⟨first, rest, ⟨front.flatten, back.flatten, by simp⟩, ?_, ?_⟩
  · intro other inside
    rw [h.kinds other inside]
    exact kind
  · rw [contiguous_tokenSpan part, Token.span, h.text, start, part.1]

theorem codeFault?_lexical {text : Source} {fault : Fault} (h : codeFault? text = some fault) :
    fault.category = .lexical := by
  rw [codeFault?] at h
  split at h
  · cases h
    rfl
  · split at h
    · cases h
      rfl
    · split at h
      · cases h
        rfl
      · obtain ⟨digit, _, rfl⟩ := Option.map_eq_some_iff.1 h
        rfl

theorem fault?_lexical {token : Token} {fault : Fault} (h : token.fault? = some fault) :
    fault.category = .lexical ∧ token.kind ≠ .line := by
  cases hk : token.kind <;> simp only [Token.fault?, hk] at h <;> try cases h
  case tab | textBrace | unknown => exact ⟨rfl, by simp⟩
  case badEscape =>
    obtain ⟨escaped, _, rfl⟩ := Option.map_eq_some_iff.1 h
    exact ⟨rfl, by simp⟩
  case code => exact ⟨codeFault?_lexical h, by simp⟩
  case decimal =>
    split at h
    · cases h
      exact ⟨rfl, by simp⟩
    · cases h

theorem lexicalFindings_covers (text : Source) :
    ∀ finding ∈ lexicalFindings text.tokens,
      finding.fault.category = .lexical ∧ Covers text.tokens finding.span := by
  refine List.forall_mem_append.2 ⟨?_, ?_⟩
  · intro finding member
    obtain ⟨token, joined, found⟩ := List.mem_filterMap.1 member
    obtain ⟨fault, faulty, rfl⟩ := Option.map_eq_some_iff.1 found
    obtain ⟨lexical, kind⟩ := fault?_lexical faulty
    obtain ⟨runs, whole, all⟩ := foldr_joinUnknown_runs text.tokens
    obtain ⟨run, inside, stands⟩ := forall₂_mem_right all joined
    have contiguous := scans_contiguous (scans_tokens text)
    rw [← whole] at contiguous ⊢
    exact ⟨lexical, stands.covers contiguous inside kind⟩
  · intro finding member
    obtain ⟨span, inside, rfl⟩ := List.mem_map.1 member
    obtain ⟨token, opening, rfl⟩ := unclosedTexts_atTokens span inside
    obtain ⟨found, opens⟩ := List.mem_filter.1 opening
    refine ⟨rfl, covers_of_mem found ?_⟩
    rw [of_decide_eq_true opens]
    simp

theorem readLines_covers {text : Source} {settings : Settings} (faultless : Faultless text.tokens)
    (closed : Closed .initial text.tokens) {pairs : List (Line × List Finding)}
    (h : readLines settings text.tokens = .ok pairs) :
    ∀ finding ∈ pairs.flatMap Prod.snd,
      finding.fault.category = .structural ∧ Covers text.tokens finding.span := by
  intro finding member
  have found : finding.At (text.tokens.filter fun token => token.kind ≠ .line) := by
    refine readLines_at ?_ ?_ h finding member
    · intro line inside token core
      have kind := ((splitLines_unbroken faultless closed inside).kinds token core).2
      refine List.mem_filter.2 ⟨?_, by simpa using kind⟩
      rw [← splitLines_flatten text.tokens]
      exact List.mem_flatten_of_mem inside (mem_of_mem_trimTrivia core)
    · intro token inside space
      exact List.mem_filter.2 ⟨inside, by simp [space]⟩
  obtain ⟨structural, token, inside, same⟩ := found
  obtain ⟨inside, kind⟩ := List.mem_filter.1 inside
  rw [same]
  exact ⟨structural, covers_of_mem inside (by simpa using kind)⟩

/-- A finding of nesting at a run of the tokens. -/
def Finding.Spans (tokens : List Token) (finding : Finding) : Prop :=
  finding.fault.category = .structural ∧
    ∃ first rest, first :: rest <:+: tokens ∧ finding.span = tokenSpan first rest

theorem Finding.Spans.mono {tokens more : List Token} {finding : Finding} (h : finding.Spans tokens)
    (part : tokens <:+: more) : finding.Spans more := by
  obtain ⟨structural, first, rest, run, same⟩ := h
  exact ⟨structural, first, rest, run.trans part, same⟩

theorem Item.span_eq (item : Item) :
    ∃ first rest, item.tokens = first :: rest ∧ item.span = tokenSpan first rest := by
  cases item with
  | token t => exact ⟨t, [], rfl, (tokenSpan_nil t).symm⟩
  | call head opening items closing =>
    refine ⟨head, opening :: itemTokens items ++ [closing], by simp [Item.tokens], ?_⟩
    rw [tokenSpan_concat, Item.span]
  | text opening pieces closing =>
    refine ⟨opening, pieceTokens pieces ++ [closing], by simp [Item.tokens], ?_⟩
    rw [tokenSpan_concat, Item.span]

theorem valueFinding_spans (source : Source) (item : Item) :
    (valueFinding source item).Spans item.tokens := by
  obtain ⟨first, rest, tokens, span⟩ := item.span_eq
  exact ⟨rfl, first, rest, tokens ▸ List.infix_rfl, span⟩

theorem emptyFinding_spans {fault : Fault} (h : fault.category = .structural)
    {opening closing : Token} {items : List Item} :
    ∀ finding ∈
        (if items.isEmpty then [(⟨fault, opening.span.cover closing.span⟩ : Finding)] else []),
      finding.Spans (opening :: (itemTokens items ++ [closing])) := by
  intro finding member
  split at member
  · rw [List.mem_singleton.1 member]
    refine ⟨h, opening, itemTokens items ++ [closing], List.infix_rfl, ?_⟩
    rw [tokenSpan_concat]
  · cases member

mutual

theorem item_findings_spans (source : Source) : ∀ (item : Item),
    ∀ finding ∈ item.findings source, finding.Spans item.tokens
  | .token _ => by simp [Item.findings]
  | .call head opening items closing => by
    have inner : opening :: (itemTokens items ++ [closing]) <:+:
        (Item.call head opening items closing).tokens := ⟨[head], [], by simp [Item.tokens]⟩
    refine List.forall_mem_append.2 ⟨?_, ?_⟩
    · intro finding member
      exact (emptyFinding_spans rfl finding member).mono inner
    · intro finding member
      refine (items_findings_spans source items finding member).mono (List.IsInfix.trans ?_ inner)
      exact ⟨[opening], [closing], by simp⟩
  | .text opening pieces closing => by
    intro finding member
    refine (pieces_findings_spans source pieces finding member).mono ?_
    exact ⟨[opening], [closing], by simp [Item.tokens]⟩

theorem piece_findings_spans (source : Source) : ∀ (piece : Piece),
    ∀ finding ∈ piece.findings source, finding.Spans piece.tokens
  | .cut _ => by simp [Piece.findings]
  | .slot opening items closing => by
    refine List.forall_mem_append.2 ⟨emptyFinding_spans rfl, ?_⟩
    intro finding member
    refine (items_findings_spans source items finding member).mono ?_
    exact ⟨[opening], [closing], by simp [Piece.tokens]⟩

theorem pieces_findings_spans (source : Source) : ∀ (pieces : List Piece),
    ∀ finding ∈ pieceFindings source pieces, finding.Spans (pieceTokens pieces)
  | [] => by simp [pieceFindings]
  | piece :: rest => by
    refine List.forall_mem_append.2 ⟨?_, ?_⟩
    · intro finding member
      exact (piece_findings_spans source piece finding member).mono
        (List.prefix_append _ _).isInfix
    · intro finding member
      exact (pieces_findings_spans source rest finding member).mono
        (List.suffix_append _ _).isInfix

theorem items_findings_spans (source : Source) : ∀ (items : List Item),
    ∀ finding ∈ itemFindings source items, finding.Spans (itemTokens items)
  | [] => by simp [itemFindings]
  | item :: rest => by
    have first : item.tokens <:+: itemTokens (item :: rest) := (List.prefix_append _ _).isInfix
    have others : itemTokens rest <:+: itemTokens (item :: rest) := (List.suffix_append _ _).isInfix
    refine List.forall_mem_append.2 ⟨List.forall_mem_append.2 ⟨?_, ?_⟩, ?_⟩
    · intro finding member
      exact (item_findings_spans source item finding member).mono first
    · intro finding member
      split at member
      · rw [List.mem_singleton.1 member]
        exact (valueFinding_spans source item).mono first
      · cases member
    · intro finding member
      exact (items_findings_spans source rest finding member).mono others

end

theorem headCommaFindings_spans (source : Source) (head : Item) (rest : List Item) :
    ∀ finding ∈ headCommaFindings source head rest, finding.Spans (itemTokens rest) := by
  cases rest with
  | nil => simp [headCommaFindings]
  | cons next others =>
    intro finding member
    rw [headCommaFindings] at member
    cases hc : next.comma? with
    | none =>
      rw [hc] at member
      cases member
    | some comma =>
      rw [hc] at member
      rw [List.mem_singleton.1 member]
      obtain ⟨rfl, _⟩ := comma?_eq_some hc
      refine ⟨rfl, comma, [], ?_, (tokenSpan_nil comma).symm⟩
      exact (List.prefix_append [comma] (itemTokens others)).isInfix

theorem lineFindings_spans (source : Source) (followed : Bool) (items : List Item) :
    ∀ finding ∈ lineFindings source followed items, finding.Spans (itemTokens items) := by
  cases items with
  | nil => simp [lineFindings]
  | cons head rest =>
    have first : head.tokens <:+: itemTokens (head :: rest) := (List.prefix_append _ _).isInfix
    have others : itemTokens rest <:+: itemTokens (head :: rest) := (List.suffix_append _ _).isInfix
    refine List.forall_mem_append.2 ⟨List.forall_mem_append.2 ⟨List.forall_mem_append.2
      ⟨?_, ?_⟩, ?_⟩, ?_⟩
    · intro finding member
      exact (item_findings_spans source head finding member).mono first
    · intro finding member
      exact (headCommaFindings_spans source head rest finding member).mono others
    · intro finding member
      split at member
      · rw [List.mem_singleton.1 member]
        exact (valueFinding_spans source head).mono first
      · cases member
    · intro finding member
      exact (items_findings_spans source rest finding member).mono others

/-- Among all tokens, a run of those that say something has the spaces between them as well, and it
ends with the same token. -/
theorem run_of_content {tokens : List Token} {first : Token} {rest : List Token}
    (h : first :: rest <:+: content tokens) : ∃ more, first :: more <:+: tokens ∧
      tokenSpan first more = tokenSpan first rest ∧
      ∃ front last, first :: more = front ++ [last] ∧ last.isTrivia = false := by
  have significant : ∀ token ∈ first :: rest, token.isTrivia = false := by
    intro token member
    simpa using (List.mem_filter.1 (h.subset member)).2
  obtain ⟨before, after, split⟩ := h
  rw [List.append_assoc] at split
  obtain ⟨left, tail, rfl, _, ht⟩ := content_append_split split.symm
  obtain ⟨run, right, rfl, hr, _⟩ := content_append_split ht
  obtain ⟨lead, more, rfl, _, hm⟩ := content_cons hr
  rcases List.eq_nil_or_concat rest with rfl | ⟨middle, last, rfl⟩
  · exact ⟨[], ⟨left ++ lead, more ++ right, by simp⟩, rfl, [], first, rfl,
      significant first List.mem_cons_self⟩
  · rw [List.concat_eq_append] at hm significant ⊢
    obtain ⟨inner, outer, rfl, _, ho⟩ := content_append_split hm
    obtain ⟨spaces, trail, rfl, _, _⟩ := content_cons ho
    refine ⟨inner ++ spaces ++ [last], ⟨left ++ lead, trail ++ right, by simp⟩, ?_,
      first :: (inner ++ spaces), last, rfl, significant last (by simp)⟩
    rw [tokenSpan_concat, tokenSpan_concat]

theorem isChain_front {front : List Token} {last : Token}
    (h : (front ++ [last]).IsChain fun token _ => token.kind ≠ .line) :
    ∀ token ∈ front, token.kind ≠ .line := by
  induction front with
  | nil => simp
  | cons token rest ih =>
    rw [List.cons_append, List.isChain_cons] at h
    refine List.forall_mem_cons.2 ⟨?_, ih h.2⟩
    obtain ⟨next, more, same⟩ := List.exists_cons_of_ne_nil (List.concat_ne_nil last rest)
    exact h.1 next (by rw [same]; rfl)

/-- A run of the tokens of a line that say something, with what stands between them. -/
theorem covers_of_content {tokens line : List Token} {first : Token} {rest : List Token}
    (h : first :: rest <:+: content line) (member : line ∈ splitLines tokens) :
    Covers tokens (tokenSpan first rest) := by
  obtain ⟨more, part, span, front, last, split, significant⟩ := run_of_content h
  refine ⟨first, more, part.trans (splitLines_part member), ?_, span.symm⟩
  have chain := isChain_part (splitLines_last member) part
  rw [split] at chain ⊢
  refine List.forall_mem_append.2 ⟨isChain_front chain, ?_⟩
  intro token only
  rw [List.mem_singleton.1 only]
  intro line
  rw [isTrivia_of_line line] at significant
  cases significant

theorem Finding.Spans.covers {tokens line : List Token} {finding : Finding}
    (h : finding.Spans (content line)) (member : line ∈ splitLines tokens) :
    Covers tokens finding.span := by
  obtain ⟨_, first, rest, run, same⟩ := h
  rw [same]
  exact covers_of_content run member

theorem depthFindings_covers {settings : Settings} {tokens line : List Token}
    {clamped : ClampedLine} (h : clamped.line.Reads settings line)
    (member : line ∈ splitLines tokens) :
    ∀ finding ∈ depthFindings clamped,
      finding.fault.category = .structural ∧ Covers tokens finding.span := by
  intro finding found
  rw [depthFindings] at found
  split at found
  · cases found
  · next deep =>
    rw [List.mem_singleton.1 found]
    refine ⟨rfl, ?_⟩
    have wide : 0 < clamped.line.indent.length := by
      rw [h.depth]
      exact Nat.mul_pos (by omega) settings.indentWidth_pos
    rw [h.indent] at wide ⊢
    cases line with
    | nil => cases wide
    | cons token rest =>
      rw [indentSpan] at wide ⊢
      split at wide
      · next space =>
        rw [if_pos space]
        refine covers_of_mem ((splitLines_part member).subset List.mem_cons_self) ?_
        rw [space]
        simp
      · simp [Span.emptyAt, Span.length] at wide

theorem mem_treeFindings {source : Source} {lines : List ClampedLine} {finding : Finding}
    (h : finding ∈ treeFindings source lines) : ∃ clamped ∈ lines, finding ∈ depthFindings clamped ∨
      ∃ followed, finding ∈ lineFindings source followed clamped.line.items := by
  induction lines with
  | nil => cases h
  | cons clamped rest ih =>
    rw [treeFindings, List.mem_append, List.mem_append] at h
    rcases h with (deep | own) | later
    · exact ⟨clamped, List.mem_cons_self, Or.inl deep⟩
    · exact ⟨clamped, List.mem_cons_self, Or.inr ⟨_, own⟩⟩
    · obtain ⟨other, inside, found⟩ := ih later
      exact ⟨other, List.mem_cons_of_mem _ inside, found⟩

theorem treeFindings_covers {source : Source} {settings : Settings} {tokens : List Token}
    {lines : List Line} (h : LinesRead settings tokens lines) (limit : Nat) :
    ∀ finding ∈ treeFindings source (clampDepths settings.maxDepth limit lines),
      finding.fault.category = .structural ∧ Covers tokens finding.span := by
  intro finding member
  obtain ⟨clamped, inside, found⟩ := mem_treeFindings member
  have among : clamped.line ∈ lines := by
    rw [← clampDepths_lines settings.maxDepth limit lines]
    exact List.mem_map_of_mem inside
  obtain ⟨line, place, reads⟩ := forall₂_mem_right h among
  have cut := List.mem_of_mem_filter place
  rcases found with deep | ⟨followed, own⟩
  · exact depthFindings_covers reads cut finding deep
  · have spans := lineFindings_spans source followed _ finding own
    rw [reads.made] at spans
    exact ⟨spans.1, spans.covers cut⟩

end TermOutline
