import TermOutline.Proofs.Tightness

/-! # Where nodes reach

The lines under a line are those right after it that start with more spaces. A tree has one nest for
every line that says something, and it reaches from the head of the line to the end of the last line
under it.
-/
namespace TermOutline

/-! ## Elements and what they become -/

theorem Under.mono {elements others : List Element} {element : Element} (h : Under elements element)
    (part : elements ⊆ others) : Under others element := by
  cases h with
  | here member => exact .here (part member)
  | inside member under => exact .inside (part member) under

theorem under_append {front back : List Element} {element : Element}
    (h : Under (front ++ back) element) : Under front element ∨ Under back element := by
  cases h with
  | here member => exact (List.mem_append.1 member).imp .here .here
  | inside member under =>
    exact (List.mem_append.1 member).imp (fun among => .inside among under)
      fun among => .inside among under

theorem padded_of_mem {elements padded : List Element} (h : elementsPadded elements padded)
    {element : Element} (member : element ∈ elements) : ∃ other ∈ padded, element.Padded other := by
  induction elements generalizing padded with
  | nil => cases member
  | cons first rest ih =>
    obtain ⟨trivia, other, others, rfl, _, own, later⟩ := h
    rcases List.mem_cons.1 member with rfl | behind
    · exact ⟨other, List.mem_append_right _ List.mem_cons_self, own⟩
    · obtain ⟨found, among, same⟩ := ih later behind
      exact ⟨found, List.mem_append_right _ (List.mem_cons_of_mem _ among), same⟩

theorem Under.padded {elements padded : List Element} {element : Element}
    (h : Under elements element) (put : elementsPadded elements padded) :
    ∃ other, Under padded other ∧ element.Padded other := by
  induction h generalizing padded with
  | here member =>
    obtain ⟨other, among, same⟩ := padded_of_mem put member
    exact ⟨other, .here among, same⟩
  | inside member _ ih =>
    obtain ⟨_, among, inner, rfl, _, within⟩ := padded_of_mem put member
    obtain ⟨other, under, same⟩ := ih within
    exact ⟨other, .inside among under, same⟩

mutual

theorem Element.Padded.content_eq : ∀ {element padded : Element}, element.Padded padded →
    content padded.tokens = content element.tokens
  | .token token, padded, h => by rw [show padded = .token token from h]
  | .node kind children, _, h => by
    obtain ⟨inner, rfl, _, put⟩ := h
    rw [tokens_node, tokens_node, padded_content put]

theorem padded_content : ∀ {elements padded : List Element}, elementsPadded elements padded →
    content (elementTokens padded) = content (elementTokens elements)
  | [], padded, h => by rw [show padded = [] from h]
  | element :: rest, _, h => by
    obtain ⟨trivia, first, others, rfl, quiet, own, later⟩ := h
    rw [elementTokens_append, elementTokens_map_token, elementTokens_cons, elementTokens_cons,
      content_append, content_append, content_append, quiet, own.content_eq, padded_content later,
      List.nil_append]

end

theorem Element.Edges.content {element : Element} {first last : Token}
    (h : element.Edges first last) (early : first.isTrivia = false) (late : last.isTrivia = false) :
    (content element.tokens).head? = some first ∧
      (content element.tokens).getLast? = some last := by
  constructor
  · obtain ⟨rest, split⟩ := List.head?_eq_some_iff.1 h.1
    rw [split, content_significant early, List.head?_cons]
  · obtain ⟨front, split⟩ := List.getLast?_eq_some_iff.1 h.2
    rw [split, content_append, content_significant late]
    exact List.getLast?_concat

/-! ## The nest of a line -/

/-- The nest of a line before the lines that come after it, without trivia. -/
def lineNest (clamped : ClampedLine) (rest : List ClampedLine) : Element :=
  .node .nest (lineElements clamped.line.items ++
    ((rest.foldr nestLine []).takeWhile fun entry => decide (clamped.depth < entry.1)).map Prod.snd)

theorem nestLines_cons (clamped : ClampedLine) (rest : List ClampedLine) :
    nestLines (clamped :: rest) = lineNest clamped rest ::
      ((rest.foldr nestLine []).dropWhile fun entry => decide (clamped.depth < entry.1)).map
        Prod.snd := rfl

theorem under_nestLines (front : List ClampedLine) (clamped : ClampedLine)
    (rest : List ClampedLine) :
    Under (nestLines (front ++ clamped :: rest)) (lineNest clamped rest) := by
  induction front with
  | nil =>
    rw [List.nil_append, nestLines_cons]
    exact .here List.mem_cons_self
  | cons first front ih =>
    -- the nests of the later lines are those under the first line and those beside it
    rw [nestLines, ← @List.takeWhile_append_dropWhile _
      (fun entry => decide (first.depth < entry.1)) ((front ++ clamped :: rest).foldr nestLine []),
      List.map_append] at ih
    rw [List.cons_append, nestLines_cons]
    rcases under_append ih with below | beside
    · exact .inside List.mem_cons_self (below.mono (List.subset_append_right _ _))
    · exact beside.mono (List.subset_cons_self _ _)

theorem takeWhile_append_takeWhile {α : Type} {p q : α → Bool} (h : ∀ a, p a = true → q a = true)
    (list : List α) : list.takeWhile p ++ (list.dropWhile p).takeWhile q = list.takeWhile q := by
  induction list with
  | nil => rfl
  | cons a rest ih =>
    by_cases holds : p a = true
    · rw [List.takeWhile_cons_of_pos holds, List.dropWhile_cons_of_pos holds,
        List.takeWhile_cons_of_pos (h a holds), List.cons_append, ih]
    · rw [List.takeWhile_cons_of_neg holds, List.dropWhile_cons_of_neg holds, List.nil_append]

/-- The nests deeper than a level hold the lines up to the first that is not deeper. -/
theorem elementTokens_deeper (depth : Nat) (lines : List ClampedLine) :
    elementTokens (((lines.foldr nestLine []).takeWhile fun entry => decide (depth < entry.1)).map
        Prod.snd) =
      (lines.takeWhile fun clamped => decide (depth < clamped.depth)).flatMap fun clamped =>
        itemTokens clamped.line.items := by
  induction lines with
  | nil => rfl
  | cons clamped rest ih =>
    rw [List.foldr_cons, nestLine]
    by_cases deeper : depth < clamped.depth
    · have implies : ∀ entry : Nat × Element, decide (clamped.depth < entry.1) = true →
          decide (depth < entry.1) = true := by
        intro entry more
        have := of_decide_eq_true more
        exact decide_eq_true (by omega)
      rw [List.takeWhile_cons_of_pos (by simpa using deeper),
        List.takeWhile_cons_of_pos (by simpa using deeper), List.flatMap_cons, ← ih,
        ← takeWhile_append_takeWhile implies (rest.foldr nestLine []), List.map_cons,
        elementTokens_cons, tokens_node, elementTokens_append, elementTokens_line, List.map_append,
        elementTokens_append, List.append_assoc]
    · rw [List.takeWhile_cons_of_neg (by simpa using deeper),
        List.takeWhile_cons_of_neg (by simpa using deeper)]
      rfl

theorem lineNest_tokens (clamped : ClampedLine) (rest : List ClampedLine) :
    (lineNest clamped rest).tokens = itemTokens clamped.line.items ++
      (rest.takeWhile fun next => decide (clamped.depth < next.depth)).flatMap fun next =>
        itemTokens next.line.items := by
  rw [lineNest, tokens_node, elementTokens_append, elementTokens_line, elementTokens_deeper]

/-- A line whose level is that of the spaces it starts with. -/
structure ClampedLine.Reads (settings : Settings) (tokens : List Token) (clamped : ClampedLine) :
    Prop where
  line : clamped.line.Reads settings tokens
  spaces : leadingSpaces tokens = clamped.depth * settings.indentWidth

theorem clampDepths_reads {settings : Settings} {bodies : List (List Token)} {lines : List Line}
    (h : List.Forall₂ (Line.Reads settings) bodies lines) {source : Source} {limit : Nat}
    (quiet : treeFindings source (clampDepths settings.maxDepth limit lines) = []) :
    List.Forall₂ (ClampedLine.Reads settings) bodies
      (clampDepths settings.maxDepth limit lines) := by
  induction h generalizing limit with
  | nil => exact .nil
  | cons read _ ih =>
    rw [clampDepths, treeFindings, List.append_eq_nil_iff, List.append_eq_nil_iff,
      depthFindings_eq_nil] at quiet
    refine .cons ⟨read, ?_⟩ (ih quiet.2)
    rw [← indentSpan_length, ← read.indent, read.depth]
    exact congrArg (· * settings.indentWidth) (Nat.min_eq_left quiet.1.1).symm

theorem clamped_plain {settings : Settings} {bodies : List (List Token)} {lines : List ClampedLine}
    (h : List.Forall₂ (ClampedLine.Reads settings) bodies lines) :
    ∀ clamped ∈ lines, clamped.line.Plain := by
  induction h with
  | nil => exact List.forall_mem_nil _
  | cons read _ ih => exact List.forall_mem_cons.2 ⟨read.line.plain, ih⟩

/-- The lines right after a line that start with more spaces. -/
def linesUnder (body : List Token) (after : List (List Token)) : List (List Token) :=
  after.takeWhile fun line => decide (leadingSpaces body < leadingSpaces line)

theorem linesUnder_content {settings : Settings} {body : List Token} {clamped : ClampedLine}
    (own : clamped.Reads settings body) {after : List (List Token)} {lines : List ClampedLine}
    (h : List.Forall₂ (ClampedLine.Reads settings) after lines) :
    (lines.takeWhile fun next => decide (clamped.depth < next.depth)).flatMap
        (fun next => itemTokens next.line.items) = (linesUnder body after).flatMap content := by
  rw [linesUnder]
  induction h with
  | nil => rfl
  | @cons line next _ _ read _ ih =>
    have same : clamped.depth < next.depth ↔ leadingSpaces body < leadingSpaces line := by
      rw [own.spaces, read.spaces, Nat.mul_lt_mul_right settings.indentWidth_pos]
    by_cases deeper : clamped.depth < next.depth
    · rw [List.takeWhile_cons_of_pos (by simpa using deeper),
        List.takeWhile_cons_of_pos (by simpa using same.1 deeper), List.flatMap_cons,
        List.flatMap_cons, ih, read.line.made]
    · rw [List.takeWhile_cons_of_neg (by simpa using deeper),
        List.takeWhile_cons_of_neg (by simpa using deeper ∘ same.2)]
      rfl

/-! ## Trees -/

/-- A node that reaches from one token to another, neither of which is trivia. -/
structure Element.Reaches (element : Element) (first last : Token) : Prop where
  first? : element.first? = some first
  last? : element.last? = some last
  span : element.span = ⟨first.start, last.span.stop⟩
  early : first.isTrivia = false
  late : last.isTrivia = false

theorem Element.Edges.span {element : Element} {first last : Token} (h : element.Edges first last)
    {offset : Nat} {tokens : List Token} (contiguous : Contiguous offset tokens)
    (part : element.tokens <:+: tokens) : element.span = ⟨first.start, last.span.stop⟩ := by
  obtain ⟨before, behind, rfl⟩ := part
  have own := (contiguous_append_iff.1 (contiguous_append_iff.1 contiguous).1).2
  obtain ⟨rest, begins⟩ := List.head?_eq_some_iff.1 h.1
  obtain ⟨front, ends⟩ := List.getLast?_eq_some_iff.1 h.2
  have final : (first :: rest).getLast (List.cons_ne_nil _ _) = last := by
    simp only [← begins, ends, List.getLast_concat]
  have whole : element.span = tokenSpan first rest := by
    rw [Element.span, elementSpan, firstToken?_eq, lastToken?_eq, elementTokens_cons,
      elementTokens_nil, List.append_nil, h.1, h.2, tokenSpan, final]
  have stop := contiguous_stop (ends ▸ own)
  rw [begins] at own
  rw [whole, contiguous_tokenSpan own, own.1, stop, ← ends, ← begins]

theorem Element.Reaches.edges {element : Element} {first last : Token}
    (h : element.Reaches first last) : element.Edges first last :=
  ⟨element.first?_eq.symm.trans h.first?, element.last?_eq.symm.trans h.last?⟩

/-- A text and a slot reach from a bracket to the one that closes it. -/
theorem Element.Tight.matches {kind : NodeKind} {children : List Element}
    (h : (Element.node kind children).Tight) {first last : Token}
    (edges : (Element.node kind children).Edges first last) {tokens : List Token}
    (part : (Element.node kind children).tokens <:+: tokens) {opens closes : TokenKind}
    (brackets : kind.brackets = some (opens, closes)) :
    first.kind = opens ∧ last.kind = closes ∧ Brackets.texts.Matches tokens first last := by
  cases h with
  | nest => cases brackets
  | @group _ opening closing inner pair inside =>
    obtain ⟨begins, ends⟩ := group_edges kind opening closing inner
    obtain rfl := Option.some.inj (begins.symm.trans edges.1)
    obtain rfl := Option.some.inj (ends.symm.trans edges.2)
    have member := NodeKind.brackets_pair pair
    rw [brackets] at pair
    cases pair
    obtain ⟨front, back, split⟩ := part
    refine ⟨rfl, rfl, front, elementTokens inner, back, ?_, member, ?_⟩
    · rw [← split, group_tokens]
      simp
    · exact balanced_elements fun element among => (inside element among).balanced

theorem Element.Tight.head?_first? {nest : Element} (h : nest.Tight) (isNest : nest.isNest = true)
    {first : Token} (begins : nest.tokens.head? = some first) :
    ∃ head, nest.head? = some head ∧ head.first? = some first := by
  cases h with
  | token => cases isNest
  | @nest head rest isHead own =>
    refine ⟨head, List.find?_cons_of_pos isHead, ?_⟩
    obtain ⟨token, _, ⟨early, _⟩, _⟩ := own.edges (isTrivia_of_isHead isHead)
    rw [tokens_node, elementTokens_cons, List.head?_append, early] at begins
    rw [Element.first?_eq, early]
    exact begins
  | @group kind _ _ _ brackets =>
    cases kind with
    | nest => cases brackets
    | text | slot => cases isNest

theorem content_flatMap_content (bodies : List (List Token)) :
    content (bodies.flatMap content) = bodies.flatMap content := by
  refine List.filter_eq_self.2 ?_
  intro token member
  obtain ⟨body, _, within⟩ := List.mem_flatMap.1 member
  exact (List.mem_filter.1 within).2

section Holding

variable {settings : Settings} {text : Source} {lines : List Line} {tree : Tree}
  (h : tree.Holds settings text.tokens lines)
  (reads : List.Forall₂ (ClampedLine.Reads settings) (contentLines text.tokens)
    (clampDepths settings.maxDepth 0 lines))

include h

theorem Tree.Holds.infix_of_under {element : Element} (under : Under tree.children element) :
    element.tokens <:+: text.tokens := by
  rw [← h.tokens_eq]
  exact under_infix under

theorem Tree.Holds.nodup : (elementTokens tree.children).Nodup := by
  rw [← Tree.tokens, h.tokens_eq]
  exact (tokens_starts text).of_map

include reads

theorem Tree.Holds.tight : ∀ element ∈ tree.children, element.Tight := by
  obtain ⟨padded, trail, split, put, quiet⟩ := h.padded
  have entries := nestLine_tight (clamped_plain reads)
  rw [split]
  refine List.forall_mem_append.2 ⟨tight_padded put ?_, tight_gap quiet⟩
  intro own among other same
  obtain ⟨entry, found, rfl⟩ := List.mem_map.1 among
  exact (entries entry found).1.padded same

theorem Tree.Holds.node_tight {kind : NodeKind} {children : List Element}
    (under : Under tree.children (.node kind children)) : (Element.node kind children).Tight :=
  tight_of_under under (fun _ _ member => h.tight reads _ member) rfl

theorem Tree.Holds.node_reaches {kind : NodeKind} {children : List Element}
    (under : Under tree.children (.node kind children)) :
    ∃ first last, (Element.node kind children).Reaches first last := by
  obtain ⟨first, last, edges, early, late⟩ := (h.node_tight reads under).edges rfl
  refine ⟨first, last, ?_, ?_, ?_, early, late⟩
  · rw [Element.first?_eq, edges.1]
  · rw [Element.last?_eq, edges.2]
  · exact edges.span (scans_contiguous (scans_tokens text)) (h.infix_of_under under)

/-- The nest of a line holds what the line says and what the lines under it say. -/
theorem Tree.Holds.nest_of_line {front after : List (List Token)} {body : List Token}
    (split : contentLines text.tokens = front ++ body :: after) :
    ∃ children, Under tree.children (.node .nest children) ∧
      content (elementTokens children) = (body :: linesUnder body after).flatMap content := by
  obtain ⟨padded, trail, whole, put, _⟩ := h.padded
  rw [split] at reads
  obtain ⟨before, back, clamped, _, second⟩ := forall₂_split reads
  obtain _ | @⟨_, line, _, rest, own, later⟩ := second
  rw [clamped] at put
  obtain ⟨nest, under, same⟩ := (under_nestLines before line rest).padded put
  have said := same.content_eq
  obtain ⟨children, rfl, _⟩ := same
  refine ⟨children, ?_, ?_⟩
  · rw [whole]
    exact under.mono (List.subset_append_left _ _)
  · rw [← tokens_node .nest, said, lineNest_tokens, linesUnder_content own later, own.line.made,
      ← List.flatMap_cons, content_flatMap_content]

end Holding

/-- No node of a tree begins or ends with trivia. A text and a slot reach from a bracket to the one
that closes it. Every line that says something has one nest, which reaches from the head of the line
to the end of the last line under it. -/
theorem parse_tight {document : Document} {settings : Settings} {tree : Tree}
    (h : document.parse settings = .ok tree) :
    (∀ kind children, Under tree.children (.node kind children) →
      ∃ first last, (Element.node kind children).Reaches first last ∧
        ∀ opens closes, kind.brackets = some (opens, closes) →
          first.kind = opens ∧ last.kind = closes ∧
            Brackets.texts.Matches document.text.tokens first last) ∧
    ∀ front body after, contentLines document.text.tokens = front ++ body :: after →
      ∃ first last nest, (content body).head? = some first ∧
        ((body :: linesUnder body after).flatMap content).getLast? = some last ∧
        Under tree.children nest ∧ nest.isNest = true ∧ nest.Reaches first last ∧
        (∃ head, nest.head? = some head ∧ head.first? = some first) ∧
        ∀ other, Under tree.children other → other.isNest = true → other.first? = some first →
          other = nest := by
  obtain ⟨_, _, lines, read, quiet, holds⟩ := parse_eq_ok h
  have reads := clampDepths_reads read quiet
  constructor
  · intro kind children under
    obtain ⟨first, last, reaches⟩ := holds.node_reaches reads under
    refine ⟨first, last, reaches, ?_⟩
    intro opens closes brackets
    have tight := holds.node_tight reads under
    exact tight.matches reaches.edges (holds.infix_of_under under) brackets
  · intro front body after split
    obtain ⟨children, under, said⟩ := holds.nest_of_line reads split
    obtain ⟨first, last, reaches⟩ := holds.node_reaches reads under
    obtain ⟨begins, ends⟩ := reaches.edges.content reaches.early reaches.late
    rw [tokens_node, said] at begins ends
    have own : content body ≠ [] := by
      apply mem_contentLines
      rw [split]
      exact List.mem_append_right _ List.mem_cons_self
    rw [List.flatMap_cons, List.head?_append_of_ne_nil _ own] at begins
    refine ⟨first, last, .node .nest children, begins, ends, under, rfl, reaches, ?_, ?_⟩
    · exact (holds.node_tight reads under).head?_first? rfl reaches.edges.1
    · intro other among isNest starts
      apply nest_unique (holds.tight reads) holds.nodup among under isNest rfl
      rw [← Element.first?_eq, starts, reaches.edges.1]

theorem parse_tight_at : ∃ tree nest,
    Document.parse
      ⟨"", ['a', ' ', '\n', '\n', ' ', ' ', '<', '{', 'c', ' ', '}', '>', ' ', '\n', 'd']⟩
      .default = .ok tree ∧ Under tree.children nest ∧ nest.isNest = true ∧
      nest.Reaches ⟨.term, ['a'], 0⟩ ⟨.textClose, ['>'], 11⟩ ∧
      Brackets.texts.Matches tree.tokens ⟨.slotOpen, ['{'], 7⟩ ⟨.slotClose, ['}'], 10⟩ := by
  have parsed : Document.parse
      ⟨"", ['a', ' ', '\n', '\n', ' ', ' ', '<', '{', 'c', ' ', '}', '>', ' ', '\n', 'd']⟩
      .default = .ok ⟨[.node .nest [.token ⟨.term, ['a'], 0⟩, .token ⟨.space, [' '], 1⟩,
          .token ⟨.line, ['\n'], 2⟩, .token ⟨.line, ['\n'], 3⟩, .token ⟨.space, [' ', ' '], 4⟩,
          .node .nest [.node .text [.token ⟨.textOpen, ['<'], 6⟩,
            .node .slot [.token ⟨.slotOpen, ['{'], 7⟩, .node .nest [.token ⟨.term, ['c'], 8⟩],
              .token ⟨.space, [' '], 9⟩, .token ⟨.slotClose, ['}'], 10⟩],
            .token ⟨.textClose, ['>'], 11⟩]]],
        .token ⟨.space, [' '], 12⟩, .token ⟨.line, ['\n'], 13⟩,
        .node .nest [.token ⟨.term, ['d'], 14⟩]]⟩ := by
    decide +kernel
  obtain ⟨nodes, lines⟩ := parse_tight parsed
  obtain ⟨_, _, nest, begins, ends, under, isNest, reaches, _⟩ := lines [] _ _ rfl
  obtain rfl := Option.some.inj begins
  obtain rfl := Option.some.inj ends
  obtain ⟨_, _, slot, brackets⟩ := nodes .slot _ (.inside List.mem_cons_self
    (.inside (List.mem_cons_of_mem _ (List.mem_cons_of_mem _ (List.mem_cons_of_mem _
      (List.mem_cons_of_mem _ (List.mem_cons_of_mem _ List.mem_cons_self)))))
      (.inside List.mem_cons_self (.here (List.mem_cons_of_mem _ List.mem_cons_self)))))
  obtain rfl := Option.some.inj slot.first?
  obtain rfl := Option.some.inj slot.last?
  exact ⟨_, nest, parsed, under, isNest, reaches, (brackets _ _ rfl).2.2⟩

end TermOutline
