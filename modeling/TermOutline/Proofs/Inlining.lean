import TermOutline.Proofs.RoundTrip

/-! # Nests in line

Every nest of a tree can be written in line, wherever it stands: on a line, in parentheses, in a
chain or in a slot. The text is a document of its own with any settings, and its one nest stands for
the same as the nest it was written from.
-/
namespace TermOutline

/-- What the elements of a node say when none of them is passed over. -/
def Reading.Whole : NodeKind → List Reading → Prop
  | .nest, readings => ∃ (head : Head) (nests : List Nest),
      readings = .head head :: nests.map Reading.nest
  | .text, readings => ∃ parts : List Part, readings = parts.map Reading.part
  | .slot, readings => ∃ nests : List Nest, readings = nests.map Reading.nest

mutual

/-- Everything under an element is part of what the element stands for. -/
def Element.Legible : Element → Prop
  | .token _ => True
  | .node kind children => Reading.Whole kind (readings children) ∧ elementsLegible children

def elementsLegible : List Element → Prop
  | [] => True
  | element :: rest => element.Legible ∧ elementsLegible rest

end

@[simp] theorem elementsLegible_append (front back : List Element) :
    elementsLegible (front ++ back) ↔ elementsLegible front ∧ elementsLegible back := by
  induction front with
  | nil => simp [elementsLegible]
  | cons element rest ih => simp [elementsLegible, ih, and_assoc]

@[simp] theorem elementsLegible_tokens (tokens : List Token) :
    elementsLegible (tokens.map Element.token) := by
  induction tokens with
  | nil => trivial
  | cons token rest ih => exact ⟨trivial, ih⟩

theorem elementsLegible_mem {elements : List Element} (h : elementsLegible elements)
    {element : Element} (member : element ∈ elements) : element.Legible := by
  induction elements with
  | nil => cases member
  | cons first rest ih =>
    rcases List.mem_cons.1 member with rfl | member
    · exact h.1
    · exact ih h.2 member

theorem mem_readings {elements : List Element} {element : Element} {reading : Reading}
    (member : element ∈ elements) (reads : element.reading? = some reading) :
    reading ∈ readings elements := by
  induction elements with
  | nil => cases member
  | cons first rest ih =>
    rw [readings]
    rcases List.mem_cons.1 member with rfl | member
    · simp [reads]
    · exact List.mem_append_right _ (ih member)

theorem exists_of_isNest {element : Element} (h : element.isNest = true) :
    ∃ children, element = .node .nest children := by
  cases element with
  | token token => cases h
  | node kind children =>
    cases kind with
    | nest => exact ⟨children, rfl⟩
    | text => cases h
    | slot => cases h

theorem Element.Legible.nest {children : List Element}
    (h : (Element.node .nest children).Legible) :
    ∃ nest, (Element.node .nest children).reading? = some (.nest nest) := by
  obtain ⟨head, nests, reads⟩ := h.1
  exact ⟨⟨head, nests⟩, reading?_nest reads⟩

/-! ## What items are made into -/

/-- Punctuation is put around elements. -/
theorem legible_enclosed {kind : NodeKind} {elements : List Element} {opening closing : Token}
    (h : (Element.node kind elements).Legible) (ho : Reading.ofToken? opening = none)
    (hc : Reading.ofToken? closing = none) :
    (Element.node kind (.token opening :: (elements ++ [.token closing]))).Legible := by
  constructor
  · have same :
        readings (.token opening :: (elements ++ [.token closing])) = readings elements := by
      simp [readings, Element.reading?, ho, hc]
    rw [same]
    exact h.1
  · exact ⟨trivial, (elementsLegible_append _ _).2 ⟨h.2, trivial, trivial⟩⟩

theorem legible_slot_append {front back : List Element}
    (hf : (Element.node .slot front).Legible) (hb : (Element.node .slot back).Legible) :
    (Element.node .slot (front ++ back)).Legible := by
  obtain ⟨nests, reads⟩ := hf.1
  obtain ⟨others, reads'⟩ := hb.1
  refine ⟨⟨nests ++ others, ?_⟩, (elementsLegible_append _ _).2 ⟨hf.2, hb.2⟩⟩
  rw [readings_append, reads, reads', List.map_append]

/-- Nests are put behind a head. -/
theorem legible_nest_append {front back : List Element}
    (hf : (Element.node .nest front).Legible) (hb : (Element.node .slot back).Legible) :
    (Element.node .nest (front ++ back)).Legible := by
  obtain ⟨head, nests, reads⟩ := hf.1
  obtain ⟨others, reads'⟩ := hb.1
  refine ⟨⟨head, nests ++ others, ?_⟩, (elementsLegible_append _ _).2 ⟨hf.2, hb.2⟩⟩
  rw [readings_append, reads, reads', List.map_append, List.cons_append]

theorem legible_slot_of_forall {elements : List Element}
    (h : ∀ element ∈ elements, element.isNest = true ∧ element.Legible) :
    (Element.node .slot elements).Legible := by
  induction elements with
  | nil => exact ⟨⟨[], rfl⟩, trivial⟩
  | cons element rest ih =>
    obtain ⟨⟨isNest, legible⟩, others⟩ := List.forall_mem_cons.1 h
    obtain ⟨nests, reads⟩ := (ih others).1
    obtain ⟨children, rfl⟩ := exists_of_isNest isNest
    obtain ⟨nest, read⟩ := legible.nest
    refine ⟨⟨nest :: nests, ?_⟩, legible, (ih others).2⟩
    rw [readings, read, reads]
    rfl

theorem legible_slot_nest {children : List Element} (h : (Element.node .nest children).Legible) :
    (Element.node .slot [.node .nest children]).Legible := by
  refine legible_slot_of_forall ?_
  simpa using ⟨rfl, h⟩

mutual

theorem item_legible : ∀ (item : Item), item.Sound → item.comma? = none →
    (Element.node .nest item.elements).Legible
  | .token token, sound, plain => by
    obtain ⟨head, nests, _, means⟩ := item_reads [] (.token token) sound plain rfl
    exact ⟨⟨head, nests, means.reads⟩, trivial, trivial⟩
  | .call head opening items closing, ⟨hh, ho, hc, _, _, sound⟩, _ => by
    obtain ⟨first, others⟩ := chains_legible items sound
    have list := legible_enclosed (legible_slot_append first others)
      (@reading?_punctuation opening (by simp [ho]))
      (@reading?_punctuation closing (by simp [hc]))
    have term : (Element.node .nest [.token head]).Legible := by
      refine ⟨⟨.word .term head.text, [], ?_⟩, trivial, trivial⟩
      simp [readings, Element.reading?, Reading.ofToken?, WordKind.ofToken?, hh]
    exact legible_nest_append term list
  | .text opening pieces closing, ⟨ho, hc, sound⟩, _ => by
    have text := legible_enclosed (pieces_legible pieces sound)
      (@reading?_punctuation opening (by simp [ho]))
      (@reading?_punctuation closing (by simp [hc]))
    obtain ⟨parts, reads⟩ := text.1
    refine ⟨⟨.text parts, [], readings_node ?_⟩, text, trivial⟩
    rw [reads, ofNode?_text]

theorem pieces_legible : ∀ (pieces : List Piece), piecesSound pieces →
    (Element.node .text (pieceElements pieces)).Legible
  | [], _ => ⟨⟨[], rfl⟩, trivial⟩
  | .cut token :: rest, ⟨kind, sound⟩ => by
    obtain ⟨⟨parts, reads⟩, legible⟩ := pieces_legible rest sound
    refine ⟨⟨.cut token.text :: parts, ?_⟩, trivial, legible⟩
    have cut : token.kind = .textCut := kind
    simp [pieceElements, Piece.element, readings, Element.reading?, Reading.ofToken?,
      WordKind.ofToken?, cut, reads]
  | .slot opening items closing :: rest, ⟨⟨ho, hc, _, inner⟩, sound⟩ => by
    obtain ⟨⟨parts, reads⟩, legible⟩ := pieces_legible rest sound
    obtain ⟨first, others⟩ := chains_legible items inner
    have slot := legible_enclosed (legible_slot_append first others)
      (@reading?_punctuation opening (by simp [ho]))
      (@reading?_punctuation closing (by simp [hc]))
    obtain ⟨nests, read⟩ := slot.1
    refine ⟨⟨.slot nests :: parts, ?_⟩, slot, legible⟩
    have said : (Piece.slot opening items closing).element.reading? =
        some (.part (.slot nests)) := by
      rw [← ofNode?_slot, ← read]
      rfl
    rw [pieceElements, readings, said, reads]
    rfl

/-- The nests of a list, divided at the end of its first chain. -/
theorem chains_legible : ∀ (items : List Item), itemsSound items →
    (Element.node .slot (chains items).1).Legible ∧ (Element.node .slot (chains items).2).Legible
  | [], _ => ⟨⟨⟨[], rfl⟩, trivial⟩, ⟨[], rfl⟩, trivial⟩
  | item :: rest, ⟨sound, others⟩ => by
    obtain ⟨chain, after⟩ := chains_legible rest others
    cases plain : item.comma? with
    | none =>
      simp only [chains, plain]
      exact ⟨legible_slot_nest (legible_nest_append (item_legible item sound plain) chain), after⟩
    | some comma =>
      simp only [chains, plain]
      have quiet := reading?_punctuation (Or.inl (comma?_eq_some plain).2)
      obtain ⟨⟨nests, reads⟩, legible⟩ := legible_slot_append chain after
      refine ⟨⟨⟨[], rfl⟩, trivial⟩, ⟨nests, ?_⟩, trivial, legible⟩
      rw [readings, Element.reading?, quiet, reads]
      rfl

end

theorem LineMeans.legible {source : Source} {items : List Item} {head : Head} {nests : List Nest}
    (h : LineMeans source items head nests) :
    (Element.node .nest (lineElements items)).Legible := by
  obtain ⟨first, rest, rfl⟩ : ∃ first rest, items = first :: rest := by
    obtain ⟨_, _, split, _⟩ := h.first
    cases items with
    | nil => cases split
    | cons first rest => exact ⟨first, rest, rfl⟩
  have plain : first.comma? = none := by
    have commas := h.commas
    cases hc : first.comma? with
    | none => rfl
    | some comma => simp [lineStrayCommas, hc] at commas
  obtain ⟨chain, others⟩ := chains_legible rest h.sound.2
  exact legible_nest_append (item_legible first h.sound.1 plain) (legible_slot_append chain others)

theorem says_legible {source : Source} {lines : List Line} {rows : List Row}
    (h : List.Forall₂ (Line.Says source) lines rows) :
    ∀ line ∈ lines, (Element.node .nest (lineElements line.items)).Legible := by
  induction h with
  | nil => simp
  | cons said _ ih => exact List.forall_mem_cons.2 ⟨said.means.legible, ih⟩

/-- Nesting lines puts nests behind what the lines say. -/
theorem nestLines_legible {lines : List ClampedLine}
    (h : ∀ line ∈ lines, (Element.node .nest (lineElements line.line.items)).Legible) :
    ∀ entry ∈ lines.foldr nestLine [], entry.2.isNest = true ∧ entry.2.Legible := by
  induction lines with
  | nil => simp
  | cons line rest ih =>
    obtain ⟨first, others⟩ := List.forall_mem_cons.1 h
    have below := ih others
    rw [List.foldr_cons, nestLine]
    refine List.forall_mem_cons.2 ⟨⟨rfl, legible_nest_append first (legible_slot_of_forall ?_)⟩, ?_⟩
    · intro element member
      obtain ⟨entry, found, rfl⟩ := List.mem_map.1 member
      exact below entry ((List.takeWhile_sublist _).subset found)
    · intro entry member
      exact below entry ((List.dropWhile_sublist _).subset member)

mutual

theorem Element.Padded.legible : ∀ {element padded : Element}, element.Padded padded →
    element.Legible → padded.Legible
  | .token t, padded, h, _ => by
    rw [show padded = .token t from h]
    trivial
  | .node kind children, padded, h, legible => by
    obtain ⟨inner, rfl, _, h⟩ := h
    refine ⟨?_, legible_padded h legible.2⟩
    rw [readings_padded h]
    exact legible.1

theorem legible_padded : ∀ {elements padded : List Element}, elementsPadded elements padded →
    elementsLegible elements → elementsLegible padded
  | [], padded, h, _ => by
    rw [show padded = [] from h]
    trivial
  | element :: rest, padded, h, legible => by
    obtain ⟨trivia, first, others, rfl, _, hf, ho⟩ := h
    rw [elementsLegible_append]
    exact ⟨elementsLegible_tokens trivia, hf.legible legible.1, legible_padded ho legible.2⟩

end

theorem parse_legible {document : Document} {settings : Settings} {tree : Tree}
    (h : document.parse settings = .ok tree) : (Element.node .slot tree.children).Legible := by
  obtain ⟨lines, rows, _, said, _, holds⟩ := parse_rows h
  have each : ∀ clamped ∈ clampDepths settings.maxDepth 0 lines,
      (Element.node .nest (lineElements clamped.line.items)).Legible := by
    intro clamped member
    have found : clamped.line ∈ lines := by
      rw [← clampDepths_lines settings.maxDepth 0 lines]
      exact List.mem_map_of_mem member
    exact says_legible said clamped.line found
  have nested :
      (Element.node .slot (nestLines (clampDepths settings.maxDepth 0 lines))).Legible := by
    refine legible_slot_of_forall ?_
    intro element member
    obtain ⟨entry, found, rfl⟩ := List.mem_map.1 member
    exact nestLines_legible each entry found
  obtain ⟨padded, trail, split, hp, quiet⟩ := holds.padded
  rw [split]
  refine ⟨?_, (elementsLegible_append _ _).2 ⟨legible_padded hp nested.2, elementsLegible_tokens _⟩⟩
  rw [readings_append, readings_trivia quiet, List.append_nil, readings_padded hp]
  exact nested.1

/-! ## Everything in a tree can be written -/

def Reading.Writable : Reading → Prop
  | .nest n => n.Writable
  | .head h => h.Writable
  | .part p => p.Writable

theorem nestsWritable_mem {nests : List Nest} (h : nestsWritable nests) :
    ∀ nest ∈ nests, nest.Writable := by
  induction nests with
  | nil => simp
  | cons nest rest ih => exact List.forall_mem_cons.2 ⟨h.1, ih h.2⟩

theorem partsWritable_mem {parts : List Part} (h : partsWritable parts) :
    ∀ part ∈ parts, part.Writable := by
  induction parts with
  | nil => simp
  | cons part rest ih => exact List.forall_mem_cons.2 ⟨h.1, ih h.2.2⟩

theorem readings_writable {nests : List Nest} (h : nestsWritable nests) :
    ∀ reading ∈ nests.map Reading.nest, reading.Writable := by
  intro reading member
  obtain ⟨nest, found, rfl⟩ := List.mem_map.1 member
  exact nestsWritable_mem h nest found

theorem Element.Legible.writable {kind : NodeKind} {children : List Element}
    (h : (Element.node kind children).Legible)
    (own : ∀ reading, (Element.node kind children).reading? = some reading → reading.Writable) :
    ∀ reading ∈ readings children, reading.Writable := by
  rw [Element.reading?] at own
  cases kind with
  | nest =>
    obtain ⟨head, nests, reads⟩ := h.1
    rw [reads] at own ⊢
    obtain ⟨first, _, others⟩ := own _ (ofNode?_nest head nests)
    exact List.forall_mem_cons.2 ⟨first, readings_writable others⟩
  | text =>
    obtain ⟨parts, reads⟩ := h.1
    rw [reads] at own ⊢
    intro reading member
    obtain ⟨part, found, rfl⟩ := List.mem_map.1 member
    exact partsWritable_mem (own _ (ofNode?_text parts)) part found
  | slot =>
    obtain ⟨nests, reads⟩ := h.1
    rw [reads] at own ⊢
    exact readings_writable (own _ (ofNode?_slot nests)).2

theorem under_writable {elements : List Element} {element : Element}
    (under : Under elements element) (legible : elementsLegible elements)
    (written : ∀ reading ∈ readings elements, reading.Writable) :
    element.Legible ∧ ∀ reading, element.reading? = some reading → reading.Writable := by
  induction under with
  | here member =>
    exact ⟨elementsLegible_mem legible member,
      fun reading reads => written reading (mem_readings member reads)⟩
  | inside member _ ih =>
    have node := elementsLegible_mem legible member
    exact ih node.2 (node.writable fun reading reads => written reading (mem_readings member reads))

theorem nest_writable_of_under {document : Document} {settings : Settings} {tree : Tree}
    (h : document.parse settings = .ok tree) {element : Element}
    (under : Under tree.children element) (isNest : element.isNest = true) :
    ∃ nest, element.nest? = some nest ∧ nest.Writable := by
  obtain ⟨⟨nests, reads⟩, legible⟩ := parse_legible h
  have outline : tree.outline = nests := by
    rw [Tree.outline, reads, filterMap_nest?]
  have written : ∀ reading ∈ readings tree.children, reading.Writable := by
    rw [reads, ← outline]
    exact readings_writable (parse_writable h)
  obtain ⟨legible, own⟩ := under_writable under legible written
  obtain ⟨children, rfl⟩ := exists_of_isNest isNest
  obtain ⟨nest, read⟩ := legible.nest
  refine ⟨nest, ?_, own _ read⟩
  rw [Element.nest?, read]
  rfl

/-! ## The text of a nest as a document -/

/-- A chain is a line, on which its first item is the head. -/
theorem ReadsChain.line {tokens : List Token} {nest : Nest} (h : ReadsChain tokens nest) :
    ReadsLine tokens nest.head nest.children := by
  cases h with
  | last hi => exact .bare hi
  | more hi term hc => exact .more hi term (.one hc)

theorem ReadsLine.ne_nil {tokens : List Token} {head : Head} {nests : List Nest}
    (h : ReadsLine tokens head nests) : tokens ≠ [] := by
  cases h with
  | bare hi => exact hi.ne_nil
  | more hi => simp [hi.ne_nil]

theorem leadingSpaces_emitted {scanner next : Scanner} (code : scanner.mode = .code) {offset : Nat}
    {c : Char} {rest back : Source} (notSpace : c ≠ ' ') {tokens : List Token}
    (emits : Emits scanner offset (c :: rest) back tokens next) : leadingSpaces tokens = 0 := by
  cases tokens with
  | nil => rfl
  | cons token more =>
    have cut := emits.cut
    rw [List.cons_append, Scanner.tokensFrom] at cut
    simp only [List.cons_append, List.cons.injEq] at cut
    obtain ⟨rfl, _⟩ := cut
    rw [leadingSpaces, if_neg]
    intro space
    rw [code] at space
    exact notSpace (codeRule_space space)

/-- A nest that can be written is read back from its text in line, whatever the settings. -/
theorem parse_inline {nest : Nest} (h : nest.Writable) (file : String) (settings : Settings) :
    ∃ tree : Tree, Document.parse ⟨file, nest.inline⟩ settings = .ok tree ∧
      tree.outline = [nest] := by
  obtain ⟨tokens, emits, reads⟩ := nest_written nest h .initial rfl 0 [] (by simp [Stops])
  have scanned : Source.tokens nest.inline = tokens := by
    have cut := emits.cut
    rw [List.append_nil, Scanner.tokensFrom, List.append_nil] at cut
    exact cut
  have closed : Closed .initial tokens := by
    rw [← List.append_nil tokens]
    refine (closed_append emits.kinds).2 ?_
    rw [emits.steps]
    rfl
  have some : content tokens ≠ [] := reads.line.ne_nil
  have one : contentLines tokens = [tokens] := by
    have ne : tokens ≠ [] := by
      rintro rfl
      exact some rfl
    rw [contentLines, splitLines_body emits.kinds ne]
    simpa using some
  have row : Row.Reads settings tokens ⟨0, nest.head, nest.children⟩ := by
    refine ⟨?_, reads.line⟩
    obtain ⟨c, rest, first, notSpace⟩ := inline_first h
    rw [first] at emits
    rw [leadingSpaces_emitted rfl notSpace emits, Nat.zero_mul]
  have fit : RowsFit settings.maxDepth 0 [⟨0, nest.head, nest.children⟩] :=
    ⟨by simp, .singleton _, .singleton _, by simp⟩
  generalize hd : (⟨file, nest.inline⟩ : Document) = document
  have text : document.text.tokens = tokens := by
    rw [← hd]
    exact scanned
  obtain ⟨lines, read, said⟩ := lines_of_rows (.cons row .nil) (by simpa using some) document.text
  have linesRead : LinesRead settings document.text.tokens lines := by
    rw [LinesRead, text, one]
    exact read
  obtain ⟨tree, holds, parsed⟩ :=
    parse_of_linesRead (text ▸ emits.faultless) (text ▸ closed) linesRead
  rw [(treeFindings_eq_nil_iff said).2 fit, accept_nil] at parsed
  refine ⟨tree, parsed, ?_⟩
  have block : ReadsBlock 0 [⟨0, nest.head, nest.children⟩] [nest] := by
    obtain ⟨head, children⟩ := nest
    have alone := @ReadsBlock.cons 0 head children [] [] [] [] .nil .nil
    simp only [List.append_nil] at alone
    exact alone
  exact (holds.formed said fit).1.unique block

/-- The text in line of every nest of a tree is a document, whatever the settings. Its tree has one
nest, which stands for the same and so has the same text. -/
theorem inline_round_trip {document : Document} {settings : Settings} {tree : Tree}
    (h : document.parse settings = .ok tree) {element : Element}
    (under : Under tree.children element) (isNest : element.isNest = true) (file : String)
    (format : Settings) :
    ∃ nest, element.nest? = some nest ∧ ∃ (again : Tree) (only : Element),
      Document.parse ⟨file, nest.inline⟩ format = .ok again ∧ again.nests = [only] ∧
        only.nest? = some nest ∧ only.nest?.map Nest.inline = some nest.inline ∧
        again.outline = [nest] := by
  obtain ⟨nest, stands, writable⟩ := nest_writable_of_under h under isNest
  obtain ⟨again, parsed, outline⟩ := parse_inline writable file format
  obtain ⟨lines, rows, _, said, fit, holds⟩ := parse_rows parsed
  have nests : again.nests.map Element.nest? = [some nest] := by
    have seen := nests_reading (holds.formed said fit).2
    change _ = again.outline.map some at seen
    rw [outline] at seen
    exact seen
  obtain ⟨only, alone, same⟩ := List.map_eq_singleton_iff.1 nests
  refine ⟨nest, stands, again, only, parsed, alone, same, ?_, outline⟩
  rw [same]
  rfl

/-- The nest of a chain in a slot, written in line, is a call. -/
theorem inline_round_trip_at :
    ∃ (again : Tree) (only : Element),
      Document.parse ⟨"", ['b', '(', '1', ')']⟩ ⟨4, 0, by decide⟩ = .ok again ∧
        again.nests = [only] ∧
        only.nest? = some ⟨.word .term ['b'], [⟨.word .size ['1'], []⟩]⟩ := by
  have parsed : Document.parse ⟨"", ['<', '\x7b', 'b', ' ', '1', '\x7d', '>']⟩ ⟨2, 8, by decide⟩ =
      .ok ⟨[.node .nest [.node .text [.token ⟨.textOpen, ['<'], 0⟩,
        .node .slot [.token ⟨.slotOpen, ['\x7b'], 1⟩,
          .node .nest [.token ⟨.term, ['b'], 2⟩, .token ⟨.space, [' '], 3⟩,
            .node .nest [.token ⟨.size, ['1'], 4⟩]],
          .token ⟨.slotClose, ['\x7d'], 5⟩],
        .token ⟨.textClose, ['>'], 6⟩]]]⟩ := by
    decide +kernel
  obtain ⟨nest, stands, again, only, read, alone, same, _⟩ :=
    inline_round_trip parsed (.inside (.head _) (.inside (.head _) (.inside (.tail _ (.head _))
      (.here (.tail _ (.head _)))))) rfl "" ⟨4, 0, by decide⟩
  cases stands
  exact ⟨again, only, read, alone, same⟩

end TermOutline
