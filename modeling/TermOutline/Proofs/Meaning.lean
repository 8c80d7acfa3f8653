import TermOutline.Proofs.Acceptance

/-! # What a document means

The nests of lines are read by their levels: a line's nest holds the nests on the line, then the
nests of the lines one level deeper that come before the next line of its own level. The tree of a
document stands for exactly the nests that its lines are read as.
-/
namespace TermOutline

/-- Rows of which the outermost are `depth` levels deep, with the nests they are read as. -/
inductive ReadsBlock : Nat → List Row → List Nest → Prop where
  | nil {depth : Nat} : ReadsBlock depth [] []
  | cons {depth : Nat} {head : Head} {args children nests : List Nest} {inner outer : List Row}
      (hi : ReadsBlock (depth + 1) inner children) (ho : ReadsBlock depth outer nests) :
      ReadsBlock depth (⟨depth, head, args⟩ :: (inner ++ outer)) (⟨head, args ++ children⟩ :: nests)

theorem ReadsBlock.depth_le {depth : Nat} {rows : List Row} {nests : List Nest}
    (h : ReadsBlock depth rows nests) : ∀ row ∈ rows, depth ≤ row.depth := by
  induction h with
  | nil => simp
  | cons _ _ inner outer =>
    intro row member
    rcases List.mem_cons.1 member with rfl | member
    · exact Nat.le_refl _
    · rcases List.mem_append.1 member with member | member
      · exact Nat.le_of_succ_le (inner row member)
      · exact outer row member

theorem ReadsBlock.head_depth {depth : Nat} {rows : List Row} {nests : List Nest}
    (h : ReadsBlock depth rows nests) : ∀ row ∈ rows.head?, row.depth = depth := by
  cases h with
  | nil => simp
  | cons =>
    rintro row ⟨⟩
    rfl

theorem append_deeper_inj {depth : Nat} {inner inner' outer outer' : List Row}
    (same : inner ++ outer = inner' ++ outer') (hi : ∀ row ∈ inner, depth + 1 ≤ row.depth)
    (hi' : ∀ row ∈ inner', depth + 1 ≤ row.depth) (ho : ∀ row ∈ outer.head?, row.depth = depth)
    (ho' : ∀ row ∈ outer'.head?, row.depth = depth) : inner = inner' ∧ outer = outer' := by
  induction inner generalizing inner' with
  | nil =>
    cases inner' with
    | nil => exact ⟨rfl, same⟩
    | cons row rest =>
      rw [List.nil_append] at same
      have deeper := hi' row List.mem_cons_self
      have level := ho row (by rw [same]; rfl)
      omega
  | cons row rest ih =>
    cases inner' with
    | nil =>
      rw [List.nil_append] at same
      have deeper := hi row List.mem_cons_self
      have level := ho' row (by rw [← same]; rfl)
      omega
    | cons row' rest' =>
      rw [List.cons_append, List.cons_append, List.cons.injEq] at same
      have ⟨_, others⟩ := List.forall_mem_cons.1 hi
      have ⟨_, others'⟩ := List.forall_mem_cons.1 hi'
      obtain ⟨rfl, rfl⟩ := ih same.2 others others'
      exact ⟨by rw [same.1], rfl⟩

theorem ReadsBlock.unique {depth : Nat} {rows : List Row} {nests others : List Nest}
    (h : ReadsBlock depth rows nests) (h' : ReadsBlock depth rows others) : nests = others := by
  induction h generalizing others with
  | nil =>
    cases h'
    rfl
  | @cons depth head args children nests inner outer hi ho ihi iho =>
    generalize hr : (⟨depth, head, args⟩ :: (inner ++ outer) : List Row) = rows at h'
    cases h' with
    | nil => cases hr
    | cons hi' ho' =>
      rw [List.cons.injEq, Row.mk.injEq] at hr
      obtain ⟨⟨_, rfl, rfl⟩, same⟩ := hr
      obtain ⟨rfl, rfl⟩ := append_deeper_inj same hi.depth_le hi'.depth_le ho.head_depth
        ho'.head_depth
      rw [ihi hi', iho ho']

/-- Rows with the nests that nesting makes of them, each with its level. A nest that comes later is
not deeper. -/
inductive Blocks : List Row → List (Nat × Element) → Prop where
  | nil : Blocks [] []
  | cons {row : Row} {inner outer : List Row} {children : List Nest} {element : Element}
      {entries : List (Nat × Element)} (hi : ReadsBlock (row.depth + 1) inner children)
      (reads : element.reading? = some (.nest ⟨row.head, row.nests ++ children⟩))
      (formed : element.Formed)
      (later : ∀ entry ∈ entries.head?, entry.1 ≤ row.depth) (ho : Blocks outer entries) :
      Blocks (row :: (inner ++ outer)) ((row.depth, element) :: entries)

theorem Blocks.split {level : Nat} {rows : List Row} {entries : List (Nat × Element)}
    (h : Blocks rows entries) (first : ∀ entry ∈ entries.head?, entry.1 ≤ level) :
    ∃ inner outer nests, rows = inner ++ outer ∧ ReadsBlock level inner nests ∧
      readings ((entries.takeWhile fun entry => decide (level ≤ entry.1)).map Prod.snd) =
        nests.map Reading.nest ∧
      elementsFormed ((entries.takeWhile fun entry => decide (level ≤ entry.1)).map Prod.snd) ∧
      Blocks outer (entries.dropWhile fun entry => decide (level ≤ entry.1)) := by
  induction h with
  | nil => exact ⟨[], [], [], rfl, .nil, rfl, trivial, .nil⟩
  | @cons row inner outer children element entries hi reads formed later ho ih =>
    have bound : row.depth ≤ level := first _ rfl
    by_cases here : level ≤ row.depth
    · obtain rfl : row.depth = level := Nat.le_antisymm bound here
      obtain ⟨front, back, nests, rfl, hf, hr, all, hb⟩ := ih later
      refine ⟨row :: (inner ++ front), back, ⟨row.head, row.nests ++ children⟩ :: nests, ?_,
        .cons hi hf, ?_, ?_, ?_⟩
      · simp
      · simp [readings, reads, hr]
      · simpa [elementsFormed, formed] using all
      · simpa using hb
    · refine ⟨[], row :: (inner ++ outer), [], rfl, .nil, ?_, ?_, ?_⟩
      · simp [here, readings]
      · simp [here, elementsFormed]
      · simpa [here] using Blocks.cons hi reads formed later ho

theorem Blocks.head_depth {rows : List Row} {entries : List (Nat × Element)}
    (h : Blocks rows entries) : entries.head?.map Prod.fst = rows.head?.map Row.depth := by
  cases h <;> rfl

theorem reading?_nest {children : List Element} {head : Head} {nests : List Nest}
    (h : readings children = .head head :: nests.map Reading.nest) :
    (Element.node .nest children).reading? = some (.nest ⟨head, nests⟩) := by
  rw [Element.reading?, h, ofNode?_nest]

theorem LineMeans.formed_nest {source : Source} {items : List Item} {head : Head}
    {nests : List Nest} (h : LineMeans source items head nests) {children : List Element}
    (formed : elementsFormed children) (none : head.isValue = true → children = []) :
    (Element.node .nest (lineElements items ++ children)).Formed := by
  obtain ⟨first, rest, split, isHead, value, alone⟩ := h.first
  refine TermOutline.formed_nest ⟨first, rest ++ children, ?_, isHead, ?_⟩
    ((elementsFormed_append _ _).2 ⟨h.formed, formed⟩)
  · rw [split, List.cons_append]
  · intro isValue
    rw [value] at isValue
    rw [alone isValue, none isValue]
    simp

/-- Nesting the lines of rows that fit reads the rows by their levels. -/
theorem blocks_of_lines {source : Source} {maxDepth limit : Nat} {lines : List Line}
    {rows : List Row} (h : List.Forall₂ (Line.Says source) lines rows)
    (fit : RowsFit maxDepth limit rows) :
    Blocks rows ((clampDepths maxDepth limit lines).foldr nestLine []) := by
  induction h generalizing limit with
  | nil => exact .nil
  | @cons line row lines rows said others ih =>
    obtain ⟨first, values, fit⟩ := rowsFit_cons.1 fit
    have depth : min line.depth limit = row.depth := by
      rw [said.depth]
      exact Nat.min_eq_left first
    rw [clampDepths, List.foldr_cons, nestLine]
    dsimp only
    rw [depth]
    have blocks := ih fit
    generalize (clampDepths maxDepth (min (row.depth + 1) maxDepth) lines).foldr nestLine [] = after
      at blocks
    have starts : ∀ entry ∈ after.head?, ∃ next ∈ rows.head?, next.depth = entry.1 := by
      intro entry member
      have same := blocks.head_depth
      rw [member] at same
      exact Option.map_eq_some_iff.1 same.symm
    have level : ∀ entry ∈ after.head?, entry.1 ≤ row.depth + 1 := by
      intro entry member
      obtain ⟨next, hn, hd⟩ := starts entry member
      have bound := fit.first next hn
      omega
    obtain ⟨inner, outer, children, rfl, hi, hr, hf, ho⟩ := blocks.split level
    refine .cons hi (reading?_nest ?_) (said.means.formed_nest hf ?_) ?_ ho
    · rw [readings_append, said.means.reads]
      change _ ++ readings ((after.takeWhile fun entry => decide (row.depth + 1 ≤ entry.1)).map
        Prod.snd) = _
      rw [hr]
      simp
    · intro isValue
      cases after with
      | nil => rfl
      | cons entry rest =>
        obtain ⟨next, hn, hd⟩ := starts entry rfl
        have bound := values isValue next hn
        have shallow : ¬row.depth < entry.1 := by omega
        simp [shallow]
    · intro entry member
      have stops := List.head?_dropWhile_not (fun entry : Nat × Element =>
        decide (row.depth < entry.1)) after
      rw [member] at stops
      simpa using stops

theorem readings_nestLines {source : Source} {maxDepth : Nat} {lines : List Line} {rows : List Row}
    (h : List.Forall₂ (Line.Says source) lines rows) (fit : RowsFit maxDepth 0 rows) :
    ∃ nests, ReadsBlock 0 rows nests ∧
      readings (nestLines (clampDepths maxDepth 0 lines)) = nests.map Reading.nest ∧
      elementsFormed (nestLines (clampDepths maxDepth 0 lines)) := by
  have blocks := blocks_of_lines h fit
  have top : ∀ entry ∈ ((clampDepths maxDepth 0 lines).foldr nestLine []).head?, entry.1 ≤ 0 := by
    intro entry member
    have same := blocks.head_depth
    rw [member] at same
    obtain ⟨row, hr, hd⟩ := Option.map_eq_some_iff.1 same.symm
    have bound := fit.first row hr
    omega
  obtain ⟨inner, outer, nests, rfl, hi, hr, hf, ho⟩ := blocks.split top
  have all : ∀ entries : List (Nat × Element),
      (entries.takeWhile fun entry => decide (0 ≤ entry.1)) = entries ∧
        (entries.dropWhile fun entry => decide (0 ≤ entry.1)) = [] := by
    intro entries
    simp
  rw [(all _).1] at hr hf
  rw [(all _).2] at ho
  cases ho
  rw [List.append_nil]
  exact ⟨nests, hi, hr, hf⟩

theorem Element.Padded.same {element padded : Element} (h : element.Padded padded) :
    padded.isNest = element.isNest ∧ padded.isHead = element.isHead ∧
      padded.isValue = element.isValue := by
  cases element with
  | token t =>
    rw [show padded = .token t from h]
    exact ⟨rfl, rfl, rfl⟩
  | node kind children =>
    obtain ⟨inner, rfl, _, _⟩ := h
    cases kind <;> exact ⟨rfl, rfl, rfl⟩

theorem any_isNest_padded {elements padded : List Element} (h : elementsPadded elements padded) :
    padded.any Element.isNest = elements.any Element.isNest := by
  induction elements generalizing padded with
  | nil => rw [show padded = [] from h]
  | cons element rest ih =>
    obtain ⟨trivia, first, others, rfl, _, hf, ho⟩ := h
    have none : (trivia.map Element.token).any Element.isNest = false := by
      simp [Element.isNest]
    rw [List.any_append, none, List.any_cons, List.any_cons, hf.same.1, ih ho, Bool.false_or]

theorem headFirst_padded {children inner : List Element} (h : elementsPadded children inner)
    (bare : ∀ first ∈ inner.head?, first.isTrivia = false) (first : HeadFirst children) :
    HeadFirst inner := by
  obtain ⟨head, rest, rfl, isHead, none⟩ := first
  obtain ⟨trivia, padded, others, rfl, quiet, hp, ho⟩ := h
  obtain rfl := trivia_eq_nil quiet bare
  obtain ⟨_, sameHead, sameValue⟩ := hp.same
  refine ⟨padded, others, rfl, sameHead.trans isHead, ?_⟩
  intro isValue
  have quiet : rest.any Element.isNest = false :=
    List.any_eq_false.2 (by simpa using none (sameValue.symm.trans isValue))
  rw [← any_isNest_padded ho] at quiet
  simpa using List.any_eq_false.1 quiet

theorem elementsFormed_tokens (tokens : List Token) :
    elementsFormed (tokens.map Element.token) := by
  induction tokens with
  | nil => trivial
  | cons token rest ih => exact ⟨trivial, ih⟩

mutual

theorem Element.Padded.formed : ∀ {element padded : Element}, element.Padded padded →
    element.Formed → padded.Formed
  | .token t, padded, h, _ => by
    rw [show padded = .token t from h]
    trivial
  | .node kind children, padded, h, formed => by
    obtain ⟨inner, rfl, bare, h⟩ := h
    obtain ⟨nest, slot, formed⟩ := formed
    refine ⟨fun hk => headFirst_padded h bare (nest hk), fun hk => ?_, formed_padded h formed⟩
    rw [← List.any_eq_true, any_isNest_padded h, List.any_eq_true]
    exact slot hk

theorem formed_padded : ∀ {elements padded : List Element}, elementsPadded elements padded →
    elementsFormed elements → elementsFormed padded
  | [], padded, h, _ => by
    rw [show padded = [] from h]
    trivial
  | element :: rest, padded, h, formed => by
    obtain ⟨trivia, first, others, rfl, quiet, hf, ho⟩ := h
    rw [elementsFormed_append]
    exact ⟨elementsFormed_tokens trivia, hf.formed formed.1, formed_padded ho formed.2⟩

end

/-- The elements of a tree: those given and all that lie under them. -/
inductive Under : List Element → Element → Prop where
  | here {elements : List Element} {element : Element} (h : element ∈ elements) :
      Under elements element
  | inside {elements children : List Element} {kind : NodeKind} {element : Element}
      (h : .node kind children ∈ elements) (hu : Under children element) : Under elements element

theorem formed_of_mem {elements : List Element} {element : Element} (h : elementsFormed elements)
    (member : element ∈ elements) : element.Formed := by
  induction elements with
  | nil => cases member
  | cons first rest ih =>
    rcases List.mem_cons.1 member with rfl | member
    · exact h.1
    · exact ih h.2 member

theorem formed_of_under {elements : List Element} {element : Element} (h : elementsFormed elements)
    (under : Under elements element) : element.Formed := by
  induction under with
  | here member => exact formed_of_mem h member
  | inside member _ ih => exact ih (formed_of_mem h member).2.2

theorem reading?_head {element : Element} (h : element.isHead = true) :
    ∃ head, element.reading? = some (.head head) ∧ head.isValue = element.isValue ∧
      element.isNest = false := by
  cases element with
  | token t =>
    cases hk : t.kind <;> simp [Element.isHead, hk, TokenKind.isValue] at h <;>
      simp [Element.reading?, Reading.ofToken?, WordKind.ofToken?, hk, Head.isValue,
        Element.isValue, TokenKind.isValue, Element.isNest]
  | node kind children =>
    cases kind with
    | text => exact ⟨_, rfl, rfl, rfl⟩
    | nest => cases h
    | slot => cases h

theorem HeadFirst.reading? {children : List Element} (h : HeadFirst children) :
    ∃ head, (Element.node .nest children).reading? =
      some (.nest ⟨head, (readings children).filterMap Reading.nest?⟩) := by
  obtain ⟨first, rest, rfl, isHead, _⟩ := h
  obtain ⟨head, reads, _⟩ := reading?_head isHead
  refine ⟨head, ?_⟩
  rw [Element.reading?, Reading.ofNode?, readings, reads]
  rfl

theorem nests_reading {elements : List Element} (h : elementsFormed elements) :
    (elements.filter Element.isNest).map Element.nest? =
      ((readings elements).filterMap Reading.nest?).map some := by
  induction elements with
  | nil => rfl
  | cons element rest ih =>
    have tail := ih h.2
    rw [readings, List.filterMap_append, List.map_append, ← tail]
    cases element with
    | token t =>
      have none : (Reading.ofToken? t).toList.filterMap Reading.nest? = [] := by
        rw [Reading.ofToken?]
        split
        · rfl
        · split <;> rfl
      rw [Element.reading?, none, List.filter_cons_of_neg (by simp [Element.isNest])]
      rfl
    | node kind children =>
      cases kind with
      | nest =>
        obtain ⟨head, reads⟩ := (h.1.1 rfl).reading?
        rw [List.filter_cons_of_pos rfl, List.map_cons, Element.nest?, reads]
        rfl
      | text => rfl
      | slot => rfl

theorem Tree.Holds.formed {source : Source} {settings : Settings} {tokens : List Token}
    {lines : List Line} {rows : List Row} {tree : Tree} (h : tree.Holds settings tokens lines)
    (said : List.Forall₂ (Line.Says source) lines rows) (fit : RowsFit settings.maxDepth 0 rows) :
    ReadsBlock 0 rows tree.outline ∧ elementsFormed tree.children := by
  obtain ⟨padded, trail, split, hp, quiet⟩ := h.padded
  obtain ⟨nests, block, reads, formed⟩ := readings_nestLines said fit
  have same : tree.outline = nests := by
    rw [Tree.outline, split, readings_append, readings_trivia quiet, List.append_nil,
      readings_padded hp, reads, filterMap_nest?]
  rw [same, split, elementsFormed_append]
  exact ⟨block, formed_padded hp formed, elementsFormed_tokens trail⟩

/-- How a nest of a tree is seen from its elements. -/
structure Element.Shows (element : Element) (nest : Nest) : Prop where
  nest?_eq : element.nest? = some nest
  head : ∃ first rest, element.children = first :: rest ∧ element.head? = some first ∧
    first.reading? = some (.head nest.head)
  nests : element.nests.map Element.nest? = nest.children.map some
  value : nest.head.isValue = true → element.nests = []

theorem Element.Formed.shows {element : Element} (h : element.Formed)
    (isNest : element.isNest = true) : ∃ nest, element.Shows nest := by
  obtain ⟨children, rfl⟩ : ∃ children, element = .node .nest children := by
    match element with
    | .node .nest children => exact ⟨children, rfl⟩
  obtain ⟨first, rest, rfl, isHead, none⟩ := h.1 rfl
  obtain ⟨head, reads, value, notNest⟩ := reading?_head isHead
  refine ⟨⟨head, (readings (first :: rest)).filterMap Reading.nest?⟩, ?_,
    ⟨first, rest, rfl, ?_, reads⟩, nests_reading h.2.2, ?_⟩
  · rw [Element.nest?, Element.reading?, Reading.ofNode?, readings, reads]
    rfl
  · exact List.find?_cons_of_pos isHead
  · intro isValue
    have others := none (value.symm.trans isValue)
    change (first :: rest).filter Element.isNest = []
    rw [List.filter_eq_nil_iff]
    intro other member
    rcases List.mem_cons.1 member with rfl | member
    · simp [notNest]
    · simp [others other member]

/-- What the tokens of a text mean: its lines are read one by one, then by their levels. -/
def Means (settings : Settings) (tokens : List Token) (nests : List Nest) : Prop :=
  ∃ rows, List.Forall₂ (Row.Reads settings) (contentLines tokens) rows ∧ ReadsBlock 0 rows nests

theorem Line.Says.unique {source : Source} {line : Line} {row row' : Row}
    (h : line.Says source row) (h' : line.Says source row') : row = row' := by
  have same := h.means.reads.symm.trans h'.means.reads
  rw [List.cons.injEq, Reading.head.injEq] at same
  have back := congrArg (List.filterMap Reading.nest?) same.2
  rw [filterMap_nest?, filterMap_nest?] at back
  have depth := h.depth.symm.trans h'.depth
  cases row
  cases row'
  rw [Row.mk.injEq]
  exact ⟨depth, same.1, back⟩

theorem rows_unique {settings : Settings} {text : Source} (faultless : Faultless text.tokens)
    (closed : Closed .initial text.tokens) {rows rows' : List Row}
    (h : List.Forall₂ (Row.Reads settings) (contentLines text.tokens) rows)
    (h' : List.Forall₂ (Row.Reads settings) (contentLines text.tokens) rows') : rows = rows' := by
  obtain ⟨lines, read, said⟩ := lines_of_rows h (fun _ => mem_contentLines) text
  obtain ⟨lines', read', said'⟩ := lines_of_rows h' (fun _ => mem_contentLines) text
  obtain rfl := linesRead_unique faultless closed read read'
  exact List.right_unique_forall₂' (fun _ _ _ one other => one.unique other) said said'

/-- The tree of a document stands for what the grammar reads the document as, and nothing else does.
In the tree every nest begins with its head, the nests directly under it are its children, a value
has none, and no slot is empty. -/
theorem parse_means {document : Document} {settings : Settings} {tree : Tree}
    (h : document.parse settings = .ok tree) :
    Means settings document.text.tokens tree.outline ∧
    (∀ nests, Means settings document.text.tokens nests → nests = tree.outline) ∧
    tree.nests.map Element.nest? = tree.outline.map some ∧
    (∀ element, Under tree.children element → element.isNest = true →
      ∃ nest, element.Shows nest) ∧
    ∀ children, Under tree.children (.node .slot children) →
      (Element.node .slot children).nests ≠ [] := by
  obtain ⟨lines, rows, reads, said, fit, holds⟩ := parse_rows h
  obtain ⟨faultless, closed, _⟩ := parse_eq_ok h
  obtain ⟨block, formed⟩ := holds.formed said fit
  refine ⟨⟨rows, reads, block⟩, ?_, nests_reading formed, ?_, ?_⟩
  · rintro nests ⟨others, reads', block'⟩
    obtain rfl := rows_unique faultless closed reads reads'
    exact block'.unique block
  · intro element under isNest
    exact (formed_of_under formed under).shows isNest
  · intro children under
    obtain ⟨element, member, isNest⟩ := (formed_of_under formed under).2.1 rfl
    exact List.ne_nil_of_mem (List.mem_filter.2 ⟨member, isNest⟩)

/-- A call and a deeper line are children alike. -/
theorem parse_means_at :
    Means ⟨2, 8, by decide⟩ (Source.tokens ['a', '(', 'b', ')', '\n', ' ', ' ', '1'])
      [⟨.word .term ['a'], [⟨.word .term ['b'], []⟩, ⟨.word .size ['1'], []⟩]⟩] := by
  have parsed : Document.parse ⟨"", ['a', '(', 'b', ')', '\n', ' ', ' ', '1']⟩ ⟨2, 8, by decide⟩ =
      .ok ⟨[.node .nest [.token ⟨.term, ['a'], 0⟩, .token ⟨.parenOpen, ['('], 1⟩,
        .node .nest [.token ⟨.term, ['b'], 2⟩], .token ⟨.parenClose, [')'], 3⟩,
        .token ⟨.line, ['\n'], 4⟩, .token ⟨.space, [' ', ' '], 5⟩,
        .node .nest [.token ⟨.size, ['1'], 7⟩]]]⟩ := by
    decide +kernel
  exact (parse_means parsed).1

end TermOutline
