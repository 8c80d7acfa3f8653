import TermOutline.Proofs.Replay

/-! # The grammar of lines

What tokens say, as a relation between the tokens of a line, trivia left out, and the head and nests
they stand for:

    line  := item list?
    list  := chain (',' chain)*
    chain := item chain?
    item  := term | term '(' list ')' | size | decimal | code | text
    text  := '<' (cut | '{' list '}')* '>'

A parenthesis comes directly after its term. An item that something follows in its chain, or on its
line when it comes first there, is no value.
-/
namespace TermOutline

mutual

inductive ReadsItem : List Token → Head → List Nest → Prop where
  | word {token : Token} {kind : WordKind} (h : WordKind.ofToken? token.kind = some kind) :
      ReadsItem [token] (.word kind token.text) []
  | call {head opening closing : Token} {body : List Token} {nests : List Nest}
      (hh : head.kind = .term) (ho : opening.kind = .parenOpen) (hc : closing.kind = .parenClose)
      (adjacent : opening.start = head.span.stop) (hb : ReadsList body nests) :
      ReadsItem (head :: opening :: (body ++ [closing])) (.word .term head.text) nests
  | text {opening closing : Token} {body : List Token} {parts : List Part}
      (ho : opening.kind = .textOpen) (hc : closing.kind = .textClose)
      (hb : ReadsParts body parts) :
      ReadsItem (opening :: (body ++ [closing])) (.text parts) []

inductive ReadsParts : List Token → List Part → Prop where
  | nil : ReadsParts [] []
  | cut {token : Token} {rest : List Token} {parts : List Part} (hk : token.kind = .textCut)
      (hr : ReadsParts rest parts) : ReadsParts (token :: rest) (.cut token.text :: parts)
  | slot {opening closing : Token} {body rest : List Token} {nests : List Nest} {parts : List Part}
      (ho : opening.kind = .slotOpen) (hc : closing.kind = .slotClose) (hb : ReadsList body nests)
      (hr : ReadsParts rest parts) :
      ReadsParts (opening :: (body ++ closing :: rest)) (.slot nests :: parts)

inductive ReadsChain : List Token → Nest → Prop where
  | last {tokens : List Token} {head : Head} {nests : List Nest}
      (hi : ReadsItem tokens head nests) : ReadsChain tokens ⟨head, nests⟩
  | more {front back : List Token} {head : Head} {nests : List Nest} {nest : Nest}
      (hi : ReadsItem front head nests) (term : head.isValue = false) (hc : ReadsChain back nest) :
      ReadsChain (front ++ back) ⟨head, nests ++ [nest]⟩

inductive ReadsList : List Token → List Nest → Prop where
  | one {tokens : List Token} {nest : Nest} (hc : ReadsChain tokens nest) : ReadsList tokens [nest]
  | more {front back : List Token} {comma : Token} {nest : Nest} {nests : List Nest}
      (hc : ReadsChain front nest) (hk : comma.kind = .comma) (hl : ReadsList back nests) :
      ReadsList (front ++ comma :: back) (nest :: nests)

end

inductive ReadsLine : List Token → Head → List Nest → Prop where
  | bare {tokens : List Token} {head : Head} {nests : List Nest}
      (hi : ReadsItem tokens head nests) : ReadsLine tokens head nests
  | more {front back : List Token} {head : Head} {nests others : List Nest}
      (hi : ReadsItem front head nests) (term : head.isValue = false)
      (hl : ReadsList back others) : ReadsLine (front ++ back) head (nests ++ others)

/-- Items between which commas stand, none of them at either end nor beside another. -/
inductive Separated : List Item → Prop where
  | one {item : Item} (h : item.comma? = none) : Separated [item]
  | next {item : Item} {rest : List Item} (h : item.comma? = none) (hr : Separated rest) :
      Separated (item :: rest)
  | comma {item : Item} {comma : Token} {rest : List Item} (h : item.comma? = none)
      (hk : comma.kind = .comma) (hr : Separated rest) :
      Separated (item :: .token comma :: rest)

theorem finalComma_cons (item next other : Item) (rest : List Item) :
    finalComma (item :: next :: other :: rest) = finalComma (next :: other :: rest) := by
  obtain ⟨last, before, hr⟩ : ∃ last before, (other :: rest).reverse = last :: before := by
    cases h : (other :: rest).reverse with
    | nil => simp at h
    | cons last before => exact ⟨last, before, rfl⟩
  have tail : (next :: other :: rest).reverse = last :: (before ++ [next]) := by
    rw [List.reverse_cons, hr, List.cons_append]
  have all : (item :: next :: other :: rest).reverse = last :: (before ++ [next] ++ [item]) := by
    rw [List.reverse_cons, tail, List.cons_append]
  rw [finalComma, finalComma, all, tail]
  cases before <;> rfl

theorem finalComma_tail {item : Item} {rest : List Item} (h : finalComma (item :: rest) = []) :
    finalComma rest = [] := by
  match rest with
  | [] => rfl
  | [_] => rfl
  | next :: other :: rest =>
    rw [finalComma_cons] at h
    exact h

theorem finalComma_pair {item next : Item} (h : next.comma? = none) :
    finalComma [item, next] = [] := by
  simp [finalComma, h]

theorem comma?_of_isComma {item : Item} (h : item.comma? = none) : item.isComma = false := by
  rw [Item.isComma, h]
  rfl

theorem separated_of_commas : ∀ (items : List Item), items ≠ [] →
    repeatedCommas true items = [] → finalComma items = [] → Separated items
  | [], ne, _, _ => absurd rfl ne
  | item :: rest, _, repeated, final => by
    cases hc : item.comma? with
    | some comma => simp [repeatedCommas, hc] at repeated
    | none =>
      match rest with
      | [] => exact .one hc
      | next :: others =>
        cases hn : next.comma? with
        | none =>
          refine .next hc
            (separated_of_commas (next :: others) (by simp) ?_ (finalComma_tail final))
          simpa [repeatedCommas, hc, hn] using repeated
        | some comma =>
          obtain ⟨rfl, kind⟩ := comma?_eq_some hn
          refine .comma hc kind (separated_of_commas others ?_ ?_
            (finalComma_tail (finalComma_tail final)))
          · rintro rfl
            simp [finalComma, hn, comma?_of_isComma hc] at final
          · simpa [repeatedCommas, hc, hn] using repeated

theorem Separated.first {items : List Item} (h : Separated items) :
    ∃ item rest, items = item :: rest ∧ item.comma? = none := by
  cases h with
  | one h => exact ⟨_, _, rfl, h⟩
  | next h => exact ⟨_, _, rfl, h⟩
  | comma h => exact ⟨_, _, rfl, h⟩

theorem comma?_of_kind {comma : Token} (h : comma.kind = .comma) :
    (Item.token comma).comma? = some comma := by
  simp [Item.comma?, h]

theorem Separated.repeatedCommas {items : List Item} (h : Separated items) (afterComma : Bool) :
    repeatedCommas afterComma items = [] := by
  induction h generalizing afterComma with
  | one h => simp [TermOutline.repeatedCommas, h]
  | next h _ ih => simp [TermOutline.repeatedCommas, h, ih]
  | comma h hk _ ih => simp [TermOutline.repeatedCommas, h, comma?_of_kind hk, ih]

theorem Separated.finalComma {items : List Item} (h : Separated items) : finalComma items = [] := by
  induction h with
  | one => rfl
  | @next item rest h hr ih =>
    obtain ⟨first, others, rfl, hf⟩ := hr.first
    cases others with
    | nil => exact finalComma_pair hf
    | cons second others => rw [finalComma_cons, ih]
  | @comma item comma rest h hk hr ih =>
    obtain ⟨first, others, rfl, hf⟩ := hr.first
    rw [finalComma_cons]
    cases others with
    | nil => exact finalComma_pair hf
    | cons second others => rw [finalComma_cons, ih]

theorem strayCommas_eq_nil_iff {items : List Item} (ne : items ≠ []) :
    strayCommas true items = [] ↔ Separated items := by
  rw [strayCommas, List.append_eq_nil_iff]
  constructor
  · rintro ⟨repeated, final⟩
    exact separated_of_commas items ne repeated final
  · intro h
    exact ⟨h.repeatedCommas true, h.finalComma⟩

theorem lineCommas_iff (source : Source) {head : Item} {rest : List Item} :
    lineStrayCommas (head :: rest) = [] ∧ headCommaFindings source head rest = [] ↔
      head.comma? = none ∧ (rest = [] ∨ Separated rest) := by
  cases hc : head.comma? with
  | some comma => simp [lineStrayCommas, hc]
  | none =>
    simp only [lineStrayCommas, hc, true_and]
    cases rest with
    | nil => simp [strayCommas, repeatedCommas, finalComma, headCommaFindings]
    | cons next others =>
      have ne : next :: others ≠ [] := by simp
      cases hn : next.comma? with
      | some comma =>
        have none : ¬Separated (next :: others) := by
          intro h
          obtain ⟨first, rest, same, hf⟩ := h.first
          cases same
          rw [hn] at hf
          cases hf
        simp [headCommaFindings, hn, none]
      | none =>
        have same : strayCommas false (next :: others) = strayCommas true (next :: others) := by
          simp [strayCommas, repeatedCommas, hn]
        rw [same, strayCommas_eq_nil_iff ne]
        simp [headCommaFindings, hn]

/-- Values that can be the head of a nest. -/
def Element.isValue : Element → Bool
  | .token t => t.kind.isValue
  | .node kind _ => kind == .text

/-- Elements that begin with a head, and hold no nest when that is a value. -/
def HeadFirst (children : List Element) : Prop :=
  ∃ first rest, children = first :: rest ∧ first.isHead = true ∧
    (first.isValue = true → ∀ element ∈ rest, element.isNest = false)

mutual

/-- Every nest begins with its head, and every slot holds a nest. -/
def Element.Formed : Element → Prop
  | .token _ => True
  | .node kind children => (kind = .nest → HeadFirst children) ∧
      (kind = .slot → ∃ element ∈ children, element.isNest = true) ∧ elementsFormed children

def elementsFormed : List Element → Prop
  | [] => True
  | element :: rest => element.Formed ∧ elementsFormed rest

end

@[simp] theorem elementsFormed_append (front back : List Element) :
    elementsFormed (front ++ back) ↔ elementsFormed front ∧ elementsFormed back := by
  induction front with
  | nil => simp [elementsFormed]
  | cons element rest ih => simp [elementsFormed, ih, and_assoc]

@[simp] theorem formed_token (token : Token) : (Element.token token).Formed := trivial

theorem formed_nest {children : List Element} (first : HeadFirst children)
    (formed : elementsFormed children) : (Element.node .nest children).Formed :=
  ⟨fun _ => first, nofun, formed⟩

/-- An item with the head and the nests it stands for. -/
structure Item.Means (source : Source) (item : Item) (head : Head) (nests : List Nest) : Prop where
  sound : item.Sound
  plain : item.comma? = none
  quiet : item.findings source = []
  value : item.isValue = head.isValue
  reads : readings item.elements = .head head :: nests.map Reading.nest
  formed : elementsFormed item.elements
  first : ∃ first rest, item.elements = first :: rest ∧ first.isHead = true ∧
    first.isValue = head.isValue ∧ (head.isValue = true → rest = [])

/-- A list of items with the nest of its first chain and those of the others. -/
structure ItemsMean (source : Source) (items : List Item) (nest : Nest) (nests : List Nest) :
    Prop where
  sound : itemsSound items
  separated : Separated items
  quiet : itemFindings source items = []
  first : readings (chains items).1 = [.nest nest]
  others : readings (chains items).2 = nests.map Reading.nest
  formed : elementsFormed (chains items).1 ∧ elementsFormed (chains items).2
  nested : ∃ children, (chains items).1 = [.node .nest children]

structure PiecesMean (source : Source) (pieces : List Piece) (parts : List Part) : Prop where
  sound : piecesSound pieces
  quiet : pieceFindings source pieces = []
  reads : readings (pieceElements pieces) = parts.map Reading.part
  formed : elementsFormed (pieceElements pieces)

theorem readings_node {kind : NodeKind} {children : List Element} {reading : Reading}
    (h : Reading.ofNode? kind (readings children) = some reading) :
    readings [.node kind children] = [reading] := by
  simp [readings, Element.reading?, h]

theorem filterMap_nest? (nests : List Nest) :
    (nests.map Reading.nest).filterMap Reading.nest? = nests := by
  rw [List.filterMap_map]
  exact List.filterMap_some

theorem ofNode?_nest (head : Head) (nests : List Nest) :
    Reading.ofNode? .nest (.head head :: nests.map Reading.nest) = some (.nest ⟨head, nests⟩) := by
  have same : (Reading.head head :: nests.map Reading.nest).filterMap Reading.nest? = nests :=
    filterMap_nest? nests
  rw [Reading.ofNode?, same]
  rfl

theorem ofNode?_text (parts : List Part) :
    Reading.ofNode? .text (parts.map Reading.part) = some (.head (.text parts)) := by
  have all : (parts.map Reading.part).filterMap Reading.part? = parts := by
    rw [List.filterMap_map]
    exact List.filterMap_some
  rw [Reading.ofNode?, all]

theorem ofNode?_slot (nests : List Nest) :
    Reading.ofNode? .slot (nests.map Reading.nest) = some (.part (.slot nests)) := by
  rw [Reading.ofNode?, filterMap_nest?]

theorem ItemsMean.readings_list {source : Source} {items : List Item} {nest : Nest}
    {nests : List Nest} (h : ItemsMean source items nest nests) :
    readings (listElements items) = (nest :: nests).map Reading.nest := by
  rw [listElements, readings_append, h.first, h.others]
  rfl

theorem reading?_punctuation {token : Token}
    (h : token.kind = .comma ∨ token.kind = .parenOpen ∨ token.kind = .parenClose ∨
      token.kind = .textOpen ∨ token.kind = .textClose ∨ token.kind = .slotOpen ∨
      token.kind = .slotClose) : Reading.ofToken? token = none := by
  rcases h with h | h | h | h | h | h | h <;>
    simp [Reading.ofToken?, WordKind.ofToken?, h]

theorem Item.Means.word {source : Source} {token : Token} {kind : WordKind}
    (h : WordKind.ofToken? token.kind = some kind) :
    (Item.token token).Means source (.word kind token.text) [] := by
  have reads : readings (Item.token token).elements = [.head (.word kind token.text)] := by
    simp [Item.elements, readings, Element.reading?, Reading.ofToken?, h]
  cases hk : token.kind <;> rw [hk] at h <;> cases h <;>
    exact ⟨by simp [Item.Sound, hk, TokenKind.isValue], by simp [Item.comma?, hk], rfl,
      by simp [Item.isValue, hk, TokenKind.isValue, Head.isValue], reads, ⟨trivial, trivial⟩,
      .token token, [], rfl, by simp [Element.isHead, hk, TokenKind.isValue],
      by simp [Element.isValue, hk, TokenKind.isValue, Head.isValue], fun _ => rfl⟩

theorem Item.Means.call {source : Source} {head opening closing : Token} {items : List Item}
    {nest : Nest} {nests : List Nest} (hh : head.kind = .term) (ho : opening.kind = .parenOpen)
    (hc : closing.kind = .parenClose) (adjacent : opening.start = head.span.stop)
    (hi : ItemsMean source items nest nests) :
    (Item.call head opening items closing).Means source (.word .term head.text)
      (nest :: nests) := by
  have ne : items ≠ [] := by
    obtain ⟨item, rest, rfl, _⟩ := hi.separated.first
    simp
  refine ⟨⟨hh, ho, hc, adjacent, (strayCommas_eq_nil_iff ne).2 hi.separated, hi.sound⟩, rfl, ?_,
    rfl, ?_, ?_, .token head, _, rfl, ?_, ?_, nofun⟩
  · simp [Item.findings, ne, hi.quiet]
  · have word : Reading.ofToken? head = some (.head (.word .term head.text)) := by
      simp [Reading.ofToken?, WordKind.ofToken?, hh]
    simp [Item.elements, readings, Element.reading?, word, reading?_punctuation, ho, hc, hi.first,
      hi.others]
  · simp [Item.elements, elementsFormed, hi.formed]
  · simp [Element.isHead, hh]
  · simp [Element.isValue, hh, TokenKind.isValue, Head.isValue]

theorem Item.Means.text {source : Source} {opening closing : Token} {pieces : List Piece}
    {parts : List Part} (ho : opening.kind = .textOpen) (hc : closing.kind = .textClose)
    (hp : PiecesMean source pieces parts) :
    (Item.text opening pieces closing).Means source (.text parts) [] := by
  refine ⟨⟨ho, hc, hp.sound⟩, rfl, hp.quiet, rfl, readings_node ?_, ?_, _, [], rfl, rfl, rfl,
    fun _ => rfl⟩
  · rw [← ofNode?_text]
    simp [readings, Element.reading?, reading?_punctuation, ho, hc, hp.reads]
  · simp [Item.elements, elementsFormed, Element.Formed, hp.formed]

theorem PiecesMean.cut {source : Source} {token : Token} {pieces : List Piece} {parts : List Part}
    (hk : token.kind = .textCut) (hp : PiecesMean source pieces parts) :
    PiecesMean source (.cut token :: pieces) (.cut token.text :: parts) := by
  refine ⟨⟨hk, hp.sound⟩, hp.quiet, ?_, trivial, hp.formed⟩
  simp [pieceElements, Piece.element, readings, Element.reading?, Reading.ofToken?,
    WordKind.ofToken?, hk, hp.reads]

theorem PiecesMean.slot {source : Source} {opening closing : Token} {items : List Item}
    {pieces : List Piece} {nest : Nest} {nests : List Nest} {parts : List Part}
    (ho : opening.kind = .slotOpen) (hc : closing.kind = .slotClose)
    (hi : ItemsMean source items nest nests) (hp : PiecesMean source pieces parts) :
    PiecesMean source (.slot opening items closing :: pieces) (.slot (nest :: nests) :: parts) := by
  have ne : items ≠ [] := by
    obtain ⟨item, rest, rfl, _⟩ := hi.separated.first
    simp
  refine ⟨⟨⟨ho, hc, (strayCommas_eq_nil_iff ne).2 hi.separated, hi.sound⟩, hp.sound⟩, ?_, ?_, ?_,
    hp.formed⟩
  · simp [pieceFindings, Piece.findings, ne, hi.quiet, hp.quiet]
  · have slot : readings [(Piece.slot opening items closing).element] =
        [.part (.slot (nest :: nests))] := by
      refine readings_node ?_
      rw [← ofNode?_slot]
      simp [readings, Element.reading?, reading?_punctuation, ho, hc, hi.first, hi.others]
    rw [pieceElements, ← List.singleton_append, readings_append, slot, hp.reads]
    rfl
  · obtain ⟨children, nested⟩ := hi.nested
    refine ⟨nofun, fun _ => ⟨.node .nest children, ?_, rfl⟩, ?_⟩
    · simp [nested]
    · simp [elementsFormed, hi.formed]

theorem Item.Means.headFirst {source : Source} {item : Item} {head : Head} {nests : List Nest}
    (h : item.Means source head nests) (term : head.isValue = false) (more : List Element) :
    HeadFirst (item.elements ++ more) := by
  obtain ⟨first, rest, split, isHead, value, _⟩ := h.first
  refine ⟨first, rest ++ more, by rw [split, List.cons_append], isHead, ?_⟩
  intro isValue
  rw [value, term] at isValue
  cases isValue

theorem Item.Means.headFirst_alone {source : Source} {item : Item} {head : Head}
    {nests : List Nest} (h : item.Means source head nests) : HeadFirst item.elements := by
  obtain ⟨first, rest, split, isHead, value, alone⟩ := h.first
  refine ⟨first, rest, split, isHead, ?_⟩
  intro isValue
  rw [alone (value.symm.trans isValue)]
  simp

theorem ItemsMean.one {source : Source} {item : Item} {head : Head} {nests : List Nest}
    (hi : item.Means source head nests) : ItemsMean source [item] ⟨head, nests⟩ [] := by
  refine ⟨⟨hi.sound, trivial⟩, .one hi.plain, ?_, ?_, ?_, ?_, ?_⟩
  · simp [itemFindings, hi.quiet, continuesChain]
  · simp only [chains, hi.plain]
    refine readings_node ?_
    rw [← ofNode?_nest, List.append_nil, hi.reads]
  · simp [chains, hi.plain, readings]
  · simp only [chains, hi.plain, List.append_nil]
    exact ⟨⟨formed_nest hi.headFirst_alone hi.formed, trivial⟩, trivial⟩
  · simp [chains, hi.plain]

theorem ItemsMean.next {source : Source} {item : Item} {rest : List Item} {head : Head}
    {args nests : List Nest} {nest : Nest} (hi : item.Means source head args)
    (term : head.isValue = false) (hr : ItemsMean source rest nest nests) :
    ItemsMean source (item :: rest) ⟨head, args ++ [nest]⟩ nests := by
  have formed : (Element.node .nest (item.elements ++ (chains rest).1)).Formed :=
    formed_nest (hi.headFirst term _) ((elementsFormed_append _ _).2 ⟨hi.formed, hr.formed.1⟩)
  refine ⟨⟨hi.sound, hr.sound⟩, .next hi.plain hr.separated, ?_, ?_, ?_, ?_, ?_⟩
  · simp [itemFindings, hi.quiet, hi.value, term, hr.quiet]
  · simp only [chains, hi.plain]
    refine readings_node ?_
    rw [← ofNode?_nest, readings_append, hi.reads, hr.first]
    simp
  · simp [chains, hi.plain, hr.others]
  · simp only [chains, hi.plain]
    exact ⟨⟨formed, trivial⟩, hr.formed.2⟩
  · simp [chains, hi.plain]

theorem ItemsMean.comma {source : Source} {item : Item} {comma : Token} {rest : List Item}
    {head : Head} {args nests : List Nest} {nest : Nest} (hi : item.Means source head args)
    (hk : comma.kind = .comma) (hr : ItemsMean source rest nest nests) :
    ItemsMean source (item :: .token comma :: rest) ⟨head, args⟩ (nest :: nests) := by
  have plain := comma?_of_kind hk
  have quiet : (Item.token comma).isValue = false := by
    simp [Item.isValue, hk, TokenKind.isValue]
  refine ⟨⟨hi.sound, Or.inr (Or.inr hk), hr.sound⟩, .comma hi.plain hk hr.separated, ?_, ?_, ?_, ?_,
    ?_⟩
  · simp [itemFindings, hi.quiet, continuesChain, Item.isComma, plain, Item.findings, quiet,
      hr.quiet]
  · simp only [chains, hi.plain, plain]
    refine readings_node ?_
    rw [← ofNode?_nest, List.append_nil, hi.reads]
  · simp [chains, hi.plain, plain, readings, Element.reading?, reading?_punctuation, hk, hr.first,
      hr.others]
  · simp only [chains, hi.plain, plain, List.append_nil]
    exact ⟨⟨formed_nest hi.headFirst_alone hi.formed, trivial⟩, trivial,
      (elementsFormed_append _ _).2 hr.formed⟩
  · simp [chains, hi.plain, plain]

theorem ReadsList.prepend {front back : List Token} {head : Head} {args nests : List Nest}
    {nest : Nest} (hi : ReadsItem front head args) (term : head.isValue = false)
    (hl : ReadsList back (nest :: nests)) :
    ReadsList (front ++ back) (⟨head, args ++ [nest]⟩ :: nests) := by
  cases hl with
  | one hc => exact .one (.more hi term hc)
  | more hc hk hl =>
    rw [← List.append_assoc]
    exact .more (.more hi term hc) hk hl

theorem itemFindings_cons {source : Source} {item : Item} {rest : List Item}
    (h : itemFindings source (item :: rest) = []) :
    item.findings source = [] ∧ (item.isValue = true → continuesChain rest = false) ∧
      itemFindings source rest = [] := by
  rw [itemFindings, List.append_eq_nil_iff, List.append_eq_nil_iff] at h
  refine ⟨h.1.1, ?_, h.2⟩
  intro value
  by_contra continues
  simp [value, continues] at h

mutual

/-- Every item without a fault can be read. -/
theorem item_reads (source : Source) : ∀ (item : Item), item.Sound → item.comma? = none →
    item.findings source = [] →
      ∃ head nests, ReadsItem item.tokens head nests ∧ item.Means source head nests
  | .token token, sound, plain, _ => by
    have word : ∃ kind, WordKind.ofToken? token.kind = some kind := by
      rcases sound with h | h | h
      · exact ⟨.term, by rw [h]; rfl⟩
      · cases hk : token.kind <;> rw [hk] at h <;> cases h <;> exact ⟨_, rfl⟩
      · rw [comma?_of_kind h] at plain
        cases plain
    obtain ⟨kind, h⟩ := word
    exact ⟨_, _, .word h, .word h⟩
  | .call head opening items closing, ⟨hh, ho, hc, adjacent, commas, sound⟩, _, quiet => by
    rw [Item.findings, List.append_eq_nil_iff] at quiet
    have ne : items ≠ [] := by
      intro none
      simp [none] at quiet
    obtain ⟨nest, nests, hl, hm⟩ :=
      items_read source items sound ((strayCommas_eq_nil_iff ne).1 commas) quiet.2
    exact ⟨_, _, .call hh ho hc adjacent hl, .call hh ho hc adjacent hm⟩
  | .text opening pieces closing, ⟨ho, hc, sound⟩, _, quiet => by
    obtain ⟨parts, hp, hm⟩ := pieces_read source pieces sound quiet
    exact ⟨_, _, .text ho hc hp, .text ho hc hm⟩

theorem pieces_read (source : Source) : ∀ (pieces : List Piece), piecesSound pieces →
    pieceFindings source pieces = [] →
      ∃ parts, ReadsParts (pieceTokens pieces) parts ∧ PiecesMean source pieces parts
  | [], _, _ => ⟨[], .nil, trivial, rfl, rfl, trivial⟩
  | .cut token :: rest, ⟨kind, sound⟩, quiet => by
    obtain ⟨parts, hp, hm⟩ := pieces_read source rest sound quiet
    exact ⟨_, .cut kind hp, .cut kind hm⟩
  | .slot opening items closing :: rest, ⟨⟨ho, hc, commas, inner⟩, sound⟩, quiet => by
    rw [pieceFindings, Piece.findings, List.append_eq_nil_iff, List.append_eq_nil_iff] at quiet
    have ne : items ≠ [] := by
      intro none
      simp [none] at quiet
    obtain ⟨nest, nests, hl, hi⟩ :=
      items_read source items inner ((strayCommas_eq_nil_iff ne).1 commas) quiet.1.2
    obtain ⟨parts, hp, hm⟩ := pieces_read source rest sound quiet.2
    refine ⟨.slot (nest :: nests) :: parts, ?_, .slot ho hc hi hm⟩
    have tokens : pieceTokens (.slot opening items closing :: rest) =
        opening :: (itemTokens items ++ closing :: pieceTokens rest) := by
      simp [pieceTokens, Piece.tokens]
    rw [tokens]
    exact .slot ho hc hl hp

theorem items_read (source : Source) : ∀ (items : List Item), itemsSound items →
    Separated items → itemFindings source items = [] →
      ∃ nest nests, ReadsList (itemTokens items) (nest :: nests) ∧
        ItemsMean source items nest nests
  | [], _, separated, _ => nomatch separated
  | [item], ⟨sound, _⟩, separated, quiet => by
    obtain ⟨first, rest, ⟨⟩, plain⟩ := separated.first
    obtain ⟨head, args, hi, hm⟩ := item_reads source item sound plain (itemFindings_cons quiet).1
    refine ⟨⟨head, args⟩, [], .one (.last ?_), .one hm⟩
    simpa [itemTokens] using hi
  | item :: next :: rest, ⟨sound, others⟩, separated, quiet => by
    obtain ⟨first, continues, tail⟩ := itemFindings_cons quiet
    cases separated with
    | next plain separated =>
      obtain ⟨head, args, hi, hm⟩ := item_reads source item sound plain first
      obtain ⟨nest, nests, hl, hr⟩ := items_read source (next :: rest) others separated tail
      have term : head.isValue = false := by
        obtain ⟨_, _, ⟨⟩, after⟩ := separated.first
        have goes : continuesChain (next :: rest) = true := by
          simp [continuesChain, comma?_of_isComma after]
        by_contra value
        rw [Bool.not_eq_false, ← hm.value] at value
        rw [continues value] at goes
        cases goes
      exact ⟨_, nests, .prepend hi term hl, .next hm term hr⟩
    | comma plain kind separated =>
      obtain ⟨head, args, hi, hm⟩ := item_reads source item sound plain first
      obtain ⟨nest, nests, hl, hr⟩ :=
        items_read source rest others.2 separated (itemFindings_cons tail).2.2
      refine ⟨⟨head, args⟩, nest :: nests, ?_, .comma hm kind hr⟩
      exact .more (.last hi) kind hl

end

mutual

/-- Everything the grammar derives is the tokens of an item without a fault. -/
theorem ReadsItem.item (source : Source) : ∀ {tokens : List Token} {head : Head}
    {nests : List Nest}, ReadsItem tokens head nests →
      ∃ item : Item, item.tokens = tokens ∧ item.Means source head nests
  | _, _, _, @ReadsItem.word token _ h => ⟨.token token, rfl, .word h⟩
  | _, _, _, @ReadsItem.call head opening closing _ _ hh ho hc adjacent hb => by
    obtain ⟨items, nest, nests, rfl, rfl, hm⟩ := hb.items source
    exact ⟨.call head opening items closing, rfl, .call hh ho hc adjacent hm⟩
  | _, _, _, @ReadsItem.text opening closing _ _ ho hc hb => by
    obtain ⟨pieces, rfl, hm⟩ := hb.pieces source
    exact ⟨.text opening pieces closing, rfl, .text ho hc hm⟩

theorem ReadsParts.pieces (source : Source) : ∀ {tokens : List Token} {parts : List Part},
    ReadsParts tokens parts →
      ∃ pieces, pieceTokens pieces = tokens ∧ PiecesMean source pieces parts
  | _, _, .nil => ⟨[], rfl, trivial, rfl, rfl, trivial⟩
  | _, _, @ReadsParts.cut token _ _ hk hr => by
    obtain ⟨pieces, rfl, hm⟩ := hr.pieces source
    exact ⟨.cut token :: pieces, rfl, .cut hk hm⟩
  | _, _, @ReadsParts.slot opening closing _ _ _ _ ho hc hb hr => by
    obtain ⟨items, nest, nests, rfl, rfl, hi⟩ := hb.items source
    obtain ⟨pieces, rfl, hm⟩ := hr.pieces source
    refine ⟨.slot opening items closing :: pieces, ?_, .slot ho hc hi hm⟩
    simp [pieceTokens, Piece.tokens]

theorem ReadsChain.items (source : Source) : ∀ {tokens : List Token} {nest : Nest},
    ReadsChain tokens nest →
      (∃ items, itemTokens items = tokens ∧ ItemsMean source items nest []) ∧
      ∀ {comma : Token} {rest : List Item} {next : Nest} {nests : List Nest},
        comma.kind = .comma → ItemsMean source rest next nests →
          ∃ items, itemTokens items = tokens ++ comma :: itemTokens rest ∧
            ItemsMean source items nest (next :: nests)
  | _, _, .last hi => by
    obtain ⟨item, rfl, hm⟩ := hi.item source
    refine ⟨⟨[item], by simp [itemTokens], .one hm⟩, ?_⟩
    intro comma rest next nests hk hr
    exact ⟨item :: .token comma :: rest, rfl, .comma hm hk hr⟩
  | _, _, .more hi term hc => by
    obtain ⟨item, rfl, hm⟩ := hi.item source
    obtain ⟨⟨items, rfl, alone⟩, followed⟩ := hc.items source
    refine ⟨⟨item :: items, rfl, .next hm term alone⟩, ?_⟩
    intro comma rest next nests hk hr
    obtain ⟨items, tokens, hm'⟩ := followed hk hr
    refine ⟨item :: items, ?_, .next hm term hm'⟩
    rw [itemTokens, tokens, List.append_assoc]

theorem ReadsList.items (source : Source) : ∀ {tokens : List Token} {nests : List Nest},
    ReadsList tokens nests → ∃ items nest others, nests = nest :: others ∧
      itemTokens items = tokens ∧ ItemsMean source items nest others
  | _, _, .one hc => by
    obtain ⟨⟨items, tokens, hm⟩, _⟩ := hc.items source
    exact ⟨items, _, [], rfl, tokens, hm⟩
  | _, _, .more hc hk hl => by
    obtain ⟨rest, next, nests, rfl, rfl, hr⟩ := hl.items source
    obtain ⟨items, tokens, hm⟩ := (hc.items source).2 hk hr
    exact ⟨items, _, _, rfl, tokens, hm⟩

end

/-- The items of a line with the head and the nests they stand for. Only a value's nest is refused
deeper lines. -/
structure LineMeans (source : Source) (items : List Item) (head : Head) (nests : List Nest) :
    Prop where
  sound : itemsSound items
  commas : lineStrayCommas items = []
  quiet : ∀ followed, lineFindings source followed items = [] ↔
    (head.isValue = true → followed = false)
  reads : readings (lineElements items) = .head head :: nests.map Reading.nest
  formed : elementsFormed (lineElements items)
  first : ∃ first rest, lineElements items = first :: rest ∧ first.isHead = true ∧
    first.isValue = head.isValue ∧ (head.isValue = true → rest = [])

theorem LineMeans.bare {source : Source} {item : Item} {head : Head} {nests : List Nest}
    (hi : item.Means source head nests) : LineMeans source [item] head nests := by
  have alone : lineElements [item] = item.elements := by
    simp [lineElements, listElements, chains]
  refine ⟨⟨hi.sound, trivial⟩, ?_, ?_, alone ▸ hi.reads, alone ▸ hi.formed, alone ▸ hi.first⟩
  · simp [lineStrayCommas, hi.plain, strayCommas, repeatedCommas, finalComma]
  · intro followed
    cases value : head.isValue <;>
      simp [lineFindings, hi.quiet, headCommaFindings, itemFindings, hi.value, value]

theorem LineMeans.more {source : Source} {item : Item} {rest : List Item} {head : Head}
    {args nests : List Nest} {nest : Nest} (hi : item.Means source head args)
    (term : head.isValue = false) (hr : ItemsMean source rest nest nests) :
    LineMeans source (item :: rest) head (args ++ nest :: nests) := by
  have ⟨commas, headComma⟩ := (lineCommas_iff source).2 ⟨hi.plain, Or.inr hr.separated⟩
  obtain ⟨first, others, split, isHead, value, _⟩ := hi.first
  refine ⟨⟨hi.sound, hr.sound⟩, commas, ?_, ?_, ?_, first, others ++ listElements rest, ?_, isHead,
    value, ?_⟩
  · intro followed
    simp [lineFindings, hi.quiet, headComma, hi.value, term, hr.quiet]
  · rw [lineElements, readings_append, hi.reads, hr.readings_list]
    simp
  · rw [lineElements, listElements, elementsFormed_append, elementsFormed_append]
    exact ⟨hi.formed, hr.formed⟩
  · rw [lineElements, split, List.cons_append]
  · intro isValue
    rw [term] at isValue
    cases isValue

/-- Every line without a fault of its own can be read. -/
theorem line_reads {source : Source} {followed : Bool} {items : List Item} (ne : items ≠ [])
    (sound : itemsSound items) (commas : lineStrayCommas items = [])
    (quiet : lineFindings source followed items = []) :
    ∃ head nests, ReadsLine (itemTokens items) head nests ∧ LineMeans source items head nests := by
  obtain ⟨first, rest, rfl⟩ := List.exists_cons_of_ne_nil ne
  simp only [lineFindings, List.append_eq_nil_iff] at quiet
  obtain ⟨⟨⟨own, headComma⟩, value⟩, tail⟩ := quiet
  obtain ⟨plain, separated⟩ := (lineCommas_iff source).1 ⟨commas, headComma⟩
  obtain ⟨head, args, hi, hm⟩ := item_reads source first sound.1 plain own
  rcases separated with rfl | separated
  · refine ⟨head, args, .bare ?_, .bare hm⟩
    simpa [itemTokens] using hi
  · obtain ⟨nest, nests, hl, hr⟩ := items_read source rest sound.2 separated tail
    have term : head.isValue = false := by
      obtain ⟨next, others, rfl, after⟩ := separated.first
      have goes : (next :: others).any (fun item => !item.isComma) = true := by
        simp [comma?_of_isComma after]
      by_contra h
      rw [Bool.not_eq_false, ← hm.value] at h
      simp [h, goes] at value
    exact ⟨head, _, .more hi term hl, .more hm term hr⟩

theorem ReadsLine.items {tokens : List Token} {head : Head} {nests : List Nest}
    (h : ReadsLine tokens head nests) (source : Source) :
    ∃ items, items ≠ [] ∧ itemTokens items = tokens ∧ LineMeans source items head nests := by
  cases h with
  | bare hi =>
    obtain ⟨item, rfl, hm⟩ := hi.item source
    exact ⟨[item], by simp, by simp [itemTokens], .bare hm⟩
  | more hi term hl =>
    obtain ⟨item, rfl, hm⟩ := hi.item source
    obtain ⟨rest, nest, nests, rfl, rfl, hr⟩ := hl.items source
    exact ⟨item :: rest, by simp, rfl, .more hm term hr⟩

end TermOutline
