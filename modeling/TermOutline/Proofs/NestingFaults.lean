import TermOutline.Proofs.Layouts
import TermOutline.Proofs.Losslessness

/-! # Faults of nesting, each found once

What is found of how lines and items nest is said of the lines themselves: of the depths they are
given, of the lists in them, and of which lines are children of which.
-/
namespace TermOutline

/-! ## Lists -/

/-- What is wrong with the items of a list: a value is followed by an item of its chain, a call is
empty, or a slot in a text is. -/
inductive ListProblem (source : Source) (list : List Item) : Finding → Prop where
  | value {front back : List Item} {value next : Item}
      (split : list = front ++ value :: next :: back) (isValue : value.isValue = true)
      (chained : next.isComma = false) : ListProblem source list (valueFinding source value)
  | call {head opening closing : Token} (member : .call head opening [] closing ∈ list) :
      ListProblem source list ⟨.emptyCall, opening.span.cover closing.span⟩
  | slot {textOpening textClosing opening closing : Token} {pieces : List Piece}
      (member : .text textOpening pieces textClosing ∈ list)
      (slot : .slot opening [] closing ∈ pieces) :
      ListProblem source list ⟨.emptySlot, opening.span.cover closing.span⟩

theorem listProblem_nil {source : Source} {finding : Finding} :
    ¬ListProblem source [] finding := by
  intro problem
  cases problem with
  | value split => exact List.append_ne_nil_of_right_ne_nil _ (List.cons_ne_nil _ _) split.symm
  | call member => cases member
  | slot member => cases member

theorem listProblem_singleton {source : Source} {item : Item} {finding : Finding} :
    ListProblem source [item] finding ↔
      (∃ head opening closing, item = .call head opening [] closing ∧
        finding = ⟨.emptyCall, opening.span.cover closing.span⟩) ∨
      ∃ textOpening pieces textClosing opening closing,
        item = .text textOpening pieces textClosing ∧ .slot opening [] closing ∈ pieces ∧
          finding = ⟨.emptySlot, opening.span.cover closing.span⟩ := by
  constructor
  · intro problem
    cases problem with
    | value split =>
      have size := congrArg List.length split
      simp only [List.length_append, List.length_cons, List.length_nil] at size
      omega
    | call member => exact Or.inl ⟨_, _, _, (List.mem_singleton.1 member).symm, rfl⟩
    | slot member slot =>
      exact Or.inr ⟨_, _, _, _, _, (List.mem_singleton.1 member).symm, slot, rfl⟩
  · rintro (⟨head, opening, closing, rfl, rfl⟩ | ⟨_, pieces, _, opening, closing, rfl, slot, rfl⟩)
    · exact .call List.mem_cons_self
    · exact .slot List.mem_cons_self slot

/-- The first item of a list is followed in its chain, or something is wrong with it alone, or with
the items behind it. -/
theorem listProblem_cons {source : Source} {item : Item} {rest : List Item} {finding : Finding} :
    ListProblem source (item :: rest) finding ↔
      ListProblem source [item] finding ∨
        (item.isValue = true ∧ continuesChain rest = true ∧ finding = valueFinding source item) ∨
          ListProblem source rest finding := by
  constructor
  · intro problem
    cases problem with
    | @value front back value next split isValue chained =>
      cases front with
      | nil =>
        obtain ⟨rfl, rfl⟩ := List.cons.inj split
        exact Or.inr (Or.inl ⟨isValue, by simp [continuesChain, chained], rfl⟩)
      | cons first others =>
        obtain ⟨rfl, rfl⟩ := List.cons.inj split
        exact Or.inr (Or.inr (.value rfl isValue chained))
    | call member =>
      rcases List.mem_cons.1 member with rfl | later
      · exact Or.inl (.call List.mem_cons_self)
      · exact Or.inr (Or.inr (.call later))
    | slot member slot =>
      rcases List.mem_cons.1 member with rfl | later
      · exact Or.inl (.slot List.mem_cons_self slot)
      · exact Or.inr (Or.inr (.slot later slot))
  · rintro (alone | ⟨isValue, chained, rfl⟩ | behind)
    · rcases listProblem_singleton.1 alone with
        ⟨_, _, _, rfl, rfl⟩ | ⟨_, _, _, _, _, rfl, slot, rfl⟩
      · exact .call List.mem_cons_self
      · exact .slot List.mem_cons_self slot
    · cases rest with
      | nil => cases chained
      | cons next others =>
        refine @ListProblem.value _ _ [] others _ next rfl isValue ?_
        simpa [continuesChain] using chained
    · cases behind with
      | @value front back value next split isValue chained =>
        exact @ListProblem.value _ _ (item :: front) back _ _ (by rw [split]; rfl) isValue chained
      | call member => exact .call (List.mem_cons_of_mem _ member)
      | slot member slot => exact .slot (List.mem_cons_of_mem _ member) slot

theorem mem_if_empty {items : List Item} {finding found : Finding} :
    finding ∈ (if items.isEmpty then [found] else []) ↔ items = [] ∧ finding = found := by
  cases items with
  | nil => simp
  | cons item rest => simp

mutual

theorem mem_item_findings {source : Source} {finding : Finding} : ∀ {item : Item},
    finding ∈ item.findings source ↔ ListProblem source [item] finding ∨
      ∃ list ∈ item.lists, ListProblem source list finding
  | .token token => by
    simp [Item.findings, Item.lists, listProblem_singleton]
  | .call head opening items closing => by
    rw [Item.findings, List.mem_append, mem_itemFindings, Item.lists, listProblem_singleton]
    cases items with
    | nil => simp [itemLists, listProblem_nil]
    | cons item rest => simp [or_comm, or_and_right, exists_or]
  | .text opening pieces closing => by
    rw [Item.findings, mem_pieceFindings, Item.lists, listProblem_singleton]
    simp

theorem mem_pieceFindings {source : Source} {finding : Finding} : ∀ {pieces : List Piece},
    finding ∈ pieceFindings source pieces ↔
      (∃ opening closing, .slot opening [] closing ∈ pieces ∧
        finding = ⟨.emptySlot, opening.span.cover closing.span⟩) ∨
      ∃ list ∈ pieceLists pieces, ListProblem source list finding
  | [] => by simp [pieceFindings, pieceLists]
  | .cut token :: rest => by
    rw [pieceFindings, List.mem_append, mem_pieceFindings]
    simp [Piece.findings, pieceLists, Piece.lists]
  | .slot opening items closing :: rest => by
    rw [pieceFindings, List.mem_append, mem_pieceFindings, Piece.findings, List.mem_append,
      mem_itemFindings, pieceLists, Piece.lists]
    have slots : (∃ first last, Piece.slot first [] last ∈ .slot opening items closing :: rest ∧
          finding = ⟨.emptySlot, first.span.cover last.span⟩) ↔
        (items = [] ∧ finding = ⟨.emptySlot, opening.span.cover closing.span⟩) ∨
          ∃ first last, Piece.slot first [] last ∈ rest ∧
            finding = ⟨.emptySlot, first.span.cover last.span⟩ := by
      simp only [List.mem_cons, Piece.slot.injEq, or_and_right, exists_or]
      refine or_congr_left ?_
      constructor
      · rintro ⟨first, last, ⟨rfl, rfl, rfl⟩, same⟩
        exact ⟨rfl, same⟩
      · rintro ⟨rfl, same⟩
        exact ⟨opening, closing, ⟨rfl, rfl, rfl⟩, same⟩
    rw [mem_if_empty, slots]
    simp only [List.mem_append, List.mem_singleton, or_and_right, exists_or, exists_eq_left]
    simp only [or_assoc, or_comm, or_left_comm]

theorem mem_itemFindings {source : Source} {finding : Finding} : ∀ {items : List Item},
    finding ∈ itemFindings source items ↔
      ListProblem source items finding ∨ ∃ list ∈ itemLists items, ListProblem source list finding
  | [] => by simp [itemFindings, itemLists, listProblem_nil]
  | item :: rest => by
    rw [itemFindings, List.mem_append, List.mem_append, mem_item_findings, mem_itemFindings,
      @listProblem_cons _ item rest, itemLists]
    have value : finding ∈ (if item.isValue && continuesChain rest then [valueFinding source item]
        else []) ↔
          item.isValue = true ∧ continuesChain rest = true ∧
            finding = valueFinding source item := by
      split <;> simp_all
    simp only [value, List.mem_append, or_and_right, exists_or]
    simp only [or_assoc, or_comm, or_left_comm]

end

/-! ## Lines -/

theorem mem_headCommaFindings {source : Source} {head : Item} {rest : List Item}
    {finding : Finding} : finding ∈ headCommaFindings source head rest ↔
      ∃ comma others, rest = .token comma :: others ∧ comma.kind = .comma ∧
        finding = ⟨.headComma (sourceText source head.span), comma.span⟩ := by
  cases rest with
  | nil => simp [headCommaFindings]
  | cons next others =>
    rw [headCommaFindings]
    cases own : next.comma? with
    | none =>
      refine iff_of_false List.not_mem_nil ?_
      rintro ⟨comma, others, same, kind, _⟩
      cases same
      simp [Item.comma?, kind] at own
    | some comma =>
      obtain ⟨rfl, kind⟩ := comma?_eq_some own
      simp [kind]

/-- A line chains its head to nothing: what follows the head on the line is a list of its own, and
all of it that is no comma is the head's. -/
theorem mem_lineFindings {source : Source} {followed : Bool} {head : Item} {rest : List Item}
    {finding : Finding} : finding ∈ lineFindings source followed (head :: rest) ↔
      (∃ list ∈ [head] :: rest :: itemLists (head :: rest), ListProblem source list finding) ∨
        finding ∈ headCommaFindings source head rest ∨
          head.isValue = true ∧ (followed = true ∨ ∃ item ∈ rest, item.isComma = false) ∧
            finding = valueFinding source head := by
  have value : finding ∈ (if head.isValue && (followed || rest.any fun item => !item.isComma) then
      [valueFinding source head] else []) ↔
        head.isValue = true ∧ (followed = true ∨ ∃ item ∈ rest, item.isComma = false) ∧
          finding = valueFinding source head := by
    have children : (followed || rest.any fun item => !item.isComma) = true ↔
        followed = true ∨ ∃ item ∈ rest, item.isComma = false := by simp
    rw [← children]
    split <;> simp_all
  simp only [lineFindings, List.mem_append, value, mem_item_findings, mem_itemFindings, itemLists,
    List.mem_cons, or_and_right, exists_or, exists_eq_left]
  simp only [or_assoc, or_comm, or_left_comm]

theorem mem_lineLists {head item : Item} {rest : List Item} :
    (∃ list ∈ [head] :: rest :: itemLists (head :: rest), item ∈ list) ↔
      ∃ list, (list = head :: rest ∨ list ∈ itemLists (head :: rest)) ∧ item ∈ list := by
  simp only [List.mem_cons, List.not_mem_nil, or_false, or_and_right, exists_or, exists_eq_left,
    or_assoc]

theorem mem_treeFindings_iff {source : Source} {lines : List ClampedLine} {finding : Finding} :
    finding ∈ treeFindings source lines ↔ ∃ number clamped, lines[number]? = some clamped ∧
      (finding ∈ depthFindings clamped ∨ finding ∈ lineFindings source
        (startsDeeper clamped.depth (lines.drop (number + 1))) clamped.line.items) := by
  induction lines with
  | nil => simp [treeFindings]
  | cons first rest ih =>
    rw [treeFindings, List.mem_append, List.mem_append, ih]
    constructor
    · rintro (here | ⟨number, clamped, place, found⟩)
      · exact ⟨0, first, rfl, here⟩
      · exact ⟨number + 1, clamped, place, found⟩
    · rintro ⟨_ | number, clamped, place, found⟩
      · cases place
        exact Or.inl found
      · exact Or.inr ⟨number, clamped, place, found⟩

/-! ## Levels -/

/-- The deepest level that a line may have: none is left for the first line, and any other may be
one level deeper than the line before it is taken to be, up to the deepest of all. -/
def depthLimit (deepest : Nat) (depths : Nat → Nat) : Nat → Nat
  | 0 => 0
  | number + 1 => min (min (depths number) (depthLimit deepest depths number) + 1) deepest

/-- The level that a line is taken to have. -/
def level (deepest : Nat) (depths : Nat → Nat) (number : Nat) : Nat :=
  min (depths number) (depthLimit deepest depths number)

theorem level_succ_le (deepest : Nat) (depths : Nat → Nat) (number : Nat) :
    level deepest depths (number + 1) ≤ level deepest depths number + 1 := by
  simp only [level, depthLimit]
  omega

/-- A line is a child of another that stands above it and is one level less deep, when every line
between them is deeper than the parent. -/
def IsChild (levels : Nat → Nat) (parent child : Nat) : Prop :=
  parent < child ∧ levels child = levels parent + 1 ∧
    ∀ between, parent < between → between < child → levels parent < levels between

theorem exists_child_iff (deepest : Nat) (depths : Nat → Nat) (count parent : Nat) :
    (∃ child < count, IsChild (level deepest depths) parent child) ↔
      parent + 1 < count ∧ level deepest depths parent < level deepest depths (parent + 1) := by
  constructor
  · rintro ⟨child, small, below, deeper, between⟩
    refine ⟨by omega, ?_⟩
    by_cases next : child = parent + 1
    · rw [← next, deeper]
      omega
    · exact between (parent + 1) (by omega) (by omega)
  · rintro ⟨small, deeper⟩
    refine ⟨parent + 1, small, by omega, ?_, by omega⟩
    have limit := level_succ_le deepest depths parent
    omega

theorem clampDepths_getElem? {lines : List Line} {deepest start : Nat} {depths : Nat → Nat}
    (h : ∀ number line, lines[number]? = some line → line.depth = depths (start + number))
    (number : Nat) :
    (clampDepths deepest (depthLimit deepest depths start) lines)[number]? =
      lines[number]?.map fun line =>
        ⟨line, depthLimit deepest depths (start + number),
          level deepest depths (start + number)⟩ := by
  induction lines generalizing start number with
  | nil => rfl
  | cons line rest ih =>
    have own : line.depth = depths start := h 0 line rfl
    cases number with
    | zero => simp [clampDepths, own, level]
    | succ number =>
      have later := @ih (start + 1) (fun number line place => by
        rw [h (number + 1) line place]
        congr 1
        omega) number
      have shifted : start + 1 + number = start + (number + 1) := by omega
      rw [shifted] at later
      simp only [clampDepths, List.getElem?_cons_succ, own]
      exact later

theorem regrade_getElem? (depths : Nat → Nat) (lines : List Line) (number : Nat) :
    (regrade (fun number => some (depths number)) lines)[number]? =
      lines[number]?.map fun line => { line with depth := depths number } := by
  induction lines generalizing depths number with
  | nil => rfl
  | cons line rest ih =>
    cases number with
    | zero => rfl
    | succ number => exact ih (fun number => depths (number + 1)) number

/-- The lines as nesting sees them when each is given its depth. -/
theorem clampDepths_regrade (deepest : Nat) (depths : Nat → Nat) (lines : List Line)
    (number : Nat) :
    (clampDepths deepest 0 (regrade (fun number => some (depths number)) lines))[number]? =
      lines[number]?.map fun line => ⟨{ line with depth := depths number },
        depthLimit deepest depths number, level deepest depths number⟩ := by
  have given : ∀ number line,
      (regrade (fun number => some (depths number)) lines)[number]? = some line →
        line.depth = depths (0 + number) := by
    intro number line place
    rw [regrade_getElem?] at place
    obtain ⟨other, _, rfl⟩ := Option.map_eq_some_iff.1 place
    rw [Nat.zero_add]
  have clamped := @clampDepths_getElem? _ deepest 0 depths given number
  rw [regrade_getElem?, Option.map_map, Nat.zero_add] at clamped
  exact clamped

theorem startsDeeper_drop (deepest : Nat) (depths : Nat → Nat) (lines : List Line) (number : Nat) :
    startsDeeper (level deepest depths number) ((clampDepths deepest 0
        (regrade (fun number => some (depths number)) lines)).drop (number + 1)) = true ↔
      ∃ child < lines.length, IsChild (level deepest depths) number child := by
  rw [exists_child_iff]
  have next := clampDepths_regrade deepest depths lines (number + 1)
  rw [← List.head?_drop] at next
  generalize (clampDepths deepest 0 _).drop (number + 1) = later at next
  by_cases small : number + 1 < lines.length
  · rw [List.getElem?_eq_getElem small] at next
    cases later with
    | nil => cases next
    | cons first rest =>
      cases next
      simp [startsDeeper, small]
  · rw [List.getElem?_eq_none (by omega)] at next
    cases later with
    | nil => simp [startsDeeper, small]
    | cons first rest => cases next

/-! ## Each found once -/

theorem lineFindings_code {source : Source} {followed : Bool} {items : List Item} :
    ∀ finding ∈ lineFindings source followed items, finding.fault.code ≠ "deep_indent" := by
  intro finding found
  cases items with
  | nil => cases found
  | cons head rest =>
    rcases mem_lineFindings.1 found with ⟨list, _, problem⟩ | comma | ⟨_, _, rfl⟩
    · cases problem <;> simp [valueFinding, Fault.code]
    · obtain ⟨_, _, _, _, rfl⟩ := mem_headCommaFindings.1 comma
      simp [Fault.code]
    · simp [valueFinding, Fault.code]

theorem indentSpan_start (token : Token) (rest : List Token) :
    (indentSpan (token :: rest)).start = token.start := by
  rw [indentSpan]
  split
  · rfl
  · rfl

theorem clampedLine_counted {body : List Token} {clamped : ClampedLine} (ne : body ≠ [])
    (made : itemTokens clamped.line.items = content body)
    (indent : clamped.line.indent = indentSpan body) (source : Source) (followed : Bool)
    (mark : String × Span) :
    Counted (depthFindings clamped ++ lineFindings source followed clamped.line.items) body
      mark := by
  rw [Counted, List.map_append, List.count_append]
  by_cases code : mark.1 = "deep_indent"
  · have none : ((lineFindings source followed clamped.line.items).map Finding.mark).count mark =
        0 := by
      refine List.count_eq_zero.2 fun member => ?_
      obtain ⟨finding, found, rfl⟩ := List.mem_map.1 member
      exact lineFindings_code finding found code
    rw [none, Nat.add_zero]
    refine Nat.le_trans (count_mark_le _ mark) ?_
    obtain ⟨token, rest, rfl⟩ := List.exists_cons_of_ne_nil ne
    rw [depthFindings]
    split
    · exact Nat.zero_le _
    · have first : [token.start].Sublist ((token :: rest).map Token.start) :=
        (List.nil_sublist _).cons_cons _
      simp only [findingStarts, List.map_cons, List.map_nil, indent, indentSpan_start]
      exact first.count_le _
  · have none : ((depthFindings clamped).map Finding.mark).count mark = 0 := by
      refine List.count_eq_zero.2 fun member => code ?_
      obtain ⟨finding, found, rfl⟩ := List.mem_map.1 member
      rw [depthFindings] at found
      split at found
      · cases found
      · rw [List.mem_singleton.1 found]
        rfl
    rw [none, Nat.zero_add]
    calc ((lineFindings source followed clamped.line.items).map Finding.mark).count mark
        ≤ (findingStarts (lineFindings source followed clamped.line.items)).count mark.2.start :=
          count_mark_le _ mark
      _ ≤ ((itemTokens clamped.line.items).map Token.start).count mark.2.start :=
          lineFindings_starts source followed _ _
      _ ≤ (body.map Token.start).count mark.2.start := by
          rw [made]
          exact content_starts body _

theorem clamped_counted {bodies : List (List Token)} {lines : List ClampedLine}
    (h : List.Forall₂ (fun body clamped => body ≠ [] ∧
      itemTokens clamped.line.items = content body ∧ clamped.line.indent = indentSpan body)
        bodies lines) (source : Source) (mark : String × Span) :
    Counted (treeFindings source lines) bodies.flatten mark := by
  induction h with
  | nil => exact Nat.le_refl 0
  | cons line _ ih =>
    obtain ⟨ne, made, indent⟩ := line
    rw [treeFindings, List.flatten_cons]
    exact (clampedLine_counted ne made indent source _ mark).append ih

theorem clampDepths_regrade_forall₂ {settings : Settings} {bodies : List (List Token)}
    {lines : List Line} (h : List.Forall₂ (Line.Reads settings) bodies lines)
    (deepest limit : Nat) (depths : Nat → Nat) :
    List.Forall₂ (fun body clamped => body ≠ [] ∧
      itemTokens clamped.line.items = content body ∧ clamped.line.indent = indentSpan body)
        bodies
        (clampDepths deepest limit (regrade (fun number => some (depths number)) lines)) := by
  induction h generalizing limit depths with
  | nil => exact .nil
  | cons read _ ih =>
    refine .cons ⟨?_, read.made, read.indent⟩ (ih _ fun number => depths (number + 1))
    rintro rfl
    obtain ⟨first, rest, trimmed, _⟩ := read.span
    cases trimmed

/-! ## Documents -/

/-- What is wrong with how the lines of a text nest when each of them is given its depth. -/
inductive NestingProblem (text : Source) (deepest : Nat) (depths : Nat → Nat) (lines : List Line) :
    Finding → Prop where
  | deepIndent {number : Nat} {line : Line} (place : lines[number]? = some line)
      (deep : depthLimit deepest depths number < depths number) :
      NestingProblem text deepest depths lines
        ⟨.deepIndent (depths number) (depthLimit deepest depths number), line.indent⟩
  | headValue {number : Nat} {line : Line} {head : Item} {rest : List Item} {quoted : Source}
      (place : lines[number]? = some line) (items : line.items = head :: rest)
      (isValue : head.isValue = true)
      (children : (∃ item ∈ rest, item.isComma = false) ∨
        ∃ child < lines.length, IsChild (level deepest depths) number child)
      (source : text.slice? head.span.start head.span.stop = some quoted) :
      NestingProblem text deepest depths lines ⟨.valueChildren quoted, head.span⟩
  | chainedValue {line : Line} {list front back : List Item} {value next : Item} {quoted : Source}
      (member : line ∈ lines) (inside : list = line.items.tail ∨ list ∈ itemLists line.items)
      (split : list = front ++ value :: next :: back) (isValue : value.isValue = true)
      (chained : next.isComma = false)
      (source : text.slice? value.span.start value.span.stop = some quoted) :
      NestingProblem text deepest depths lines ⟨.valueChildren quoted, value.span⟩
  | emptyCall {line : Line} {list : List Item} {head opening closing : Token}
      (member : line ∈ lines) (inside : list = line.items ∨ list ∈ itemLists line.items)
      (call : .call head opening [] closing ∈ list) :
      NestingProblem text deepest depths lines ⟨.emptyCall, opening.span.cover closing.span⟩
  | emptySlot {line : Line} {list : List Item} {pieces : List Piece}
      {textOpening textClosing opening closing : Token} (member : line ∈ lines)
      (inside : list = line.items ∨ list ∈ itemLists line.items)
      (within : .text textOpening pieces textClosing ∈ list)
      (slot : .slot opening [] closing ∈ pieces) :
      NestingProblem text deepest depths lines ⟨.emptySlot, opening.span.cover closing.span⟩
  | headComma {line : Line} {head : Item} {comma : Token} {rest : List Item} {quoted : Source}
      (member : line ∈ lines) (items : line.items = head :: .token comma :: rest)
      (kind : comma.kind = .comma)
      (source : text.slice? head.span.start head.span.stop = some quoted) :
      NestingProblem text deepest depths lines ⟨.headComma quoted, comma.span⟩

theorem Span.Marks.slice {span : Span} {text : Source} (h : span.Marks text) :
    text.slice? span.start span.stop = some (sourceText text span) := by
  obtain ⟨before, inside, after, rfl, _, _, start, stop⟩ := h
  rw [sourceText, start, stop, Source.byteLength_append, Source.slice?_append]
  rfl

section

variable {text : Source} {settings : Settings} {lines : List Line}
  (read : LinesRead settings text.tokens lines)

include read

theorem lineTokens_marks {line : Line} (member : line ∈ lines) {first : Token} {rest : List Token}
    (run : first :: rest <:+: itemTokens line.items) : (tokenSpan first rest).Marks text := by
  obtain ⟨body, place, reads⟩ := forall₂_mem_right read member
  rw [reads.made] at run
  exact (covers_of_content run (List.mem_of_mem_filter place)).marks

theorem lineFindings_slice {line : Line} (member : line ∈ lines) {followed : Bool}
    {finding : Finding} (found : finding ∈ lineFindings text followed line.items) :
    text.slice? finding.span.start finding.span.stop = some (sourceText text finding.span) := by
  obtain ⟨_, first, rest, run, span⟩ := lineFindings_spans text followed _ finding found
  rw [span]
  exact (lineTokens_marks read member run).slice

theorem lineHead_slice {line : Line} (member : line ∈ lines) {head : Item} {rest : List Item}
    (items : line.items = head :: rest) :
    text.slice? head.span.start head.span.stop = some (sourceText text head.span) := by
  obtain ⟨first, more, tokens, span⟩ := head.span_eq
  rw [span]
  refine (lineTokens_marks read member ?_).slice
  rw [items, itemTokens, tokens]
  exact (List.prefix_append _ _).isInfix

theorem nestingProblem_of_mem {deepest : Nat} {depths : Nat → Nat} {finding : Finding}
    (found : finding ∈ treeFindings text
      (clampDepths deepest 0 (regrade (fun number => some (depths number)) lines))) :
    NestingProblem text deepest depths lines finding := by
  obtain ⟨number, clamped, place, found⟩ := mem_treeFindings_iff.1 found
  rw [clampDepths_regrade] at place
  obtain ⟨line, here, rfl⟩ := Option.map_eq_some_iff.1 place
  have member := List.mem_of_getElem? here
  rcases found with deep | own
  · rw [depthFindings] at deep
    split at deep
    · cases deep
    · next deeper =>
      rw [List.mem_singleton.1 deep]
      exact @NestingProblem.deepIndent _ _ _ _ _ line here (Nat.not_le.1 deeper)
  · have slice := lineFindings_slice read member own
    obtain ⟨body, _, reads⟩ := forall₂_mem_right read member
    obtain ⟨head, rest, items⟩ := List.exists_cons_of_ne_nil reads.nonempty
    simp only [items, mem_lineFindings, startsDeeper_drop] at own
    rcases own with ⟨list, inside, problem⟩ | comma | ⟨isValue, children, rfl⟩
    · cases problem with
      | value split isValue chained =>
        refine .chainedValue member ?_ split isValue chained slice
        rw [items]
        rcases List.mem_cons.1 inside with rfl | inside
        · have size := congrArg List.length split
          simp only [List.length_append, List.length_cons, List.length_nil] at size
          omega
        · exact List.mem_cons.1 inside
      | call call =>
        obtain ⟨whole, within, among⟩ := mem_lineLists.1 ⟨list, inside, call⟩
        exact .emptyCall member (items ▸ within) among
      | slot text slot =>
        obtain ⟨whole, within, among⟩ := mem_lineLists.1 ⟨list, inside, text⟩
        exact .emptySlot member (items ▸ within) among slot
    · obtain ⟨comma, others, rfl, kind, rfl⟩ := mem_headCommaFindings.1 comma
      exact .headComma member items kind (lineHead_slice read member items)
    · exact .headValue here items isValue children.symm slice

theorem mem_of_nestingProblem {deepest : Nat} {depths : Nat → Nat} {finding : Finding}
    (problem : NestingProblem text deepest depths lines finding) :
    finding ∈ treeFindings text
      (clampDepths deepest 0 (regrade (fun number => some (depths number)) lines)) := by
  have onLine {number : Nat} {line : Line} (place : lines[number]? = some line)
      (found : finding ∈ lineFindings text (startsDeeper (level deepest depths number)
        ((clampDepths deepest 0 (regrade (fun number => some (depths number)) lines)).drop
          (number + 1))) line.items) :
      finding ∈ treeFindings text
        (clampDepths deepest 0 (regrade (fun number => some (depths number)) lines)) := by
    refine mem_treeFindings_iff.2 ⟨number, ⟨{ line with depth := depths number },
      depthLimit deepest depths number, level deepest depths number⟩, ?_, Or.inr found⟩
    rw [clampDepths_regrade, place]
    rfl
  -- Only for its head does it matter which lines come after a line.
  have inLists {line : Line} {head : Item} {rest list : List Item} (member : line ∈ lines)
      (items : line.items = head :: rest)
      (inside : list ∈ [head] :: rest :: itemLists (head :: rest))
      (found : ListProblem text list finding) :
      finding ∈ treeFindings text
        (clampDepths deepest 0 (regrade (fun number => some (depths number)) lines)) := by
    obtain ⟨number, place⟩ := List.mem_iff_getElem?.1 member
    apply onLine place
    rw [items]
    exact mem_lineFindings.2 (Or.inl ⟨list, inside, found⟩)
  have cut {line : Line} (member : line ∈ lines) : ∃ head rest, line.items = head :: rest := by
    obtain ⟨_, _, reads⟩ := forall₂_mem_right read member
    exact List.exists_cons_of_ne_nil reads.nonempty
  cases problem with
  | @deepIndent number line place deep =>
    refine mem_treeFindings_iff.2 ⟨number, ⟨{ line with depth := depths number },
      depthLimit deepest depths number, level deepest depths number⟩, ?_, Or.inl ?_⟩
    · rw [clampDepths_regrade, place]
      rfl
    · rw [depthFindings, if_neg (Nat.not_le.2 deep)]
      exact List.mem_cons_self
  | headValue place items isValue children source =>
    apply onLine place
    rw [items, mem_lineFindings, startsDeeper_drop]
    refine Or.inr (Or.inr ⟨isValue, children.symm, ?_⟩)
    simp [valueFinding, sourceText, source]
  | chainedValue member inside split isValue chained source =>
    obtain ⟨head, rest, items⟩ := cut member
    rw [items] at inside
    have problem : ListProblem text _ _ := .value split isValue chained
    simp only [valueFinding, sourceText, source, Option.getD_some] at problem
    exact inLists member items (List.mem_cons_of_mem _ (List.mem_cons.2 inside)) problem
  | emptyCall member inside call =>
    obtain ⟨head, rest, items⟩ := cut member
    rw [items] at inside
    obtain ⟨list, within, among⟩ := mem_lineLists.2 ⟨_, inside, call⟩
    exact inLists member items within (.call among)
  | emptySlot member inside whole slot =>
    obtain ⟨head, rest, items⟩ := cut member
    rw [items] at inside
    obtain ⟨list, within, among⟩ := mem_lineLists.2 ⟨_, inside, whole⟩
    exact inLists member items within (.slot among slot)
  | headComma member items kind source =>
    obtain ⟨number, place⟩ := List.mem_iff_getElem?.1 member
    apply onLine place
    rw [items, mem_lineFindings]
    refine Or.inr (Or.inl (mem_headCommaFindings.2 ⟨_, _, rfl, kind, ?_⟩))
    simp [sourceText, source]

end

/-- Findings that name exactly what is wrong with how lines nest, each thing once, in order of where
it starts. -/
structure NestingReport (text : Source) (deepest : Nat) (depths : Nat → Nat) (lines : List Line)
    (findings : List Finding) : Prop where
  sorted : findings.Pairwise fun one other => one.span.start ≤ other.span.start
  once : (findings.map Finding.mark).Nodup
  complete : ∀ finding, finding ∈ findings ↔ NestingProblem text deepest depths lines finding

/-- Whatever depths lines are given, what is reported of how they nest is exactly what is wrong. -/
theorem build_diagnoses_nesting {document : Document} {settings : Settings} {tokens : List Token}
    {lines : List Line} (h : document.lines settings = .ok (tokens, lines)) (others : Settings)
    (depths : Nat → Nat) :
    ∃ findings, NestingReport document.text others.maxDepth depths lines findings ∧
      Reports document.file findings (document.build others tokens
        (regrade (fun number => some (depths number)) lines)) := by
  obtain ⟨rfl, read⟩ := lines_eq_ok h
  have kinded := regrade_kinded (linesRead_kinded read) fun number => some (depths number)
  have made : content document.text.tokens =
      lineTokens (regrade (fun number => some (depths number)) lines) := by
    rw [lineTokens_regrade fun _ _ => Option.some_ne_none _, linesRead_tokens read]
    rfl
  obtain ⟨tree, _, built⟩ := build_of_kinded document others kinded made
  obtain ⟨findings, perm, sorted, reports⟩ := reports_accept document (treeFindings document.text
    (clampDepths others.maxDepth 0 (regrade (fun number => some (depths number)) lines))) tree
  refine ⟨findings, ⟨sorted, ?_, ?_⟩, built ▸ reports⟩
  · refine (perm.map Finding.mark).nodup_iff.2 (List.nodup_iff_count_le_one.2 fun mark => ?_)
    have counted := clamped_counted (clampDepths_regrade_forall₂ read others.maxDepth 0 depths)
      document.text mark
    exact (counted.mono (contentLines_sublist _)).once
  · intro finding
    rw [perm.mem_iff]
    exact ⟨nestingProblem_of_mem read, mem_of_nestingProblem read⟩

/-- A line given more depth than it may have is still the child of the line above it. -/
theorem build_diagnoses_nesting_at : ∃ tokens lines findings,
    Document.lines ⟨"f", ['1', '\n', '2', ' ', 'a']⟩ .default = .ok (tokens, lines) ∧
      ⟨.valueChildren ['1'], ⟨0, 1⟩⟩ ∈ findings ∧ ⟨.deepIndent 5 1, ⟨2, 2⟩⟩ ∈ findings ∧
      ⟨.valueChildren ['2'], ⟨2, 3⟩⟩ ∈ findings ∧
      Reports "f" findings (Document.build ⟨"f", ['1', '\n', '2', ' ', 'a']⟩ .default tokens
        (regrade (fun number => some (5 * number)) lines)) := by
  have reading : Document.lines ⟨"f", ['1', '\n', '2', ' ', 'a']⟩ .default =
      .ok ([⟨.size, ['1'], 0⟩, ⟨.line, ['\n'], 1⟩, ⟨.size, ['2'], 2⟩, ⟨.space, [' '], 3⟩,
          ⟨.term, ['a'], 4⟩],
        [⟨0, ⟨0, 0⟩, ⟨0, 1⟩, [.token ⟨.size, ['1'], 0⟩]⟩,
          ⟨0, ⟨2, 2⟩, ⟨2, 5⟩, [.token ⟨.size, ['2'], 2⟩, .token ⟨.term, ['a'], 4⟩]⟩]) := rfl
  obtain ⟨findings, report, reports⟩ :=
    build_diagnoses_nesting reading .default fun number => 5 * number
  refine ⟨_, _, findings, reading, (report.complete _).2 ?_, (report.complete _).2 ?_,
    (report.complete _).2 ?_, reports⟩
  · refine @NestingProblem.headValue _ _ _ _ 0 ⟨0, ⟨0, 0⟩, ⟨0, 1⟩, [.token ⟨.size, ['1'], 0⟩]⟩
      (.token ⟨.size, ['1'], 0⟩) [] ['1'] rfl rfl rfl (Or.inr ⟨1, ?_, ?_⟩) rfl
    · decide
    · exact ⟨by decide, by decide, by omega⟩
  · exact @NestingProblem.deepIndent _ _ (fun number => 5 * number) _ 1
      ⟨0, ⟨2, 2⟩, ⟨2, 5⟩, [.token ⟨.size, ['2'], 2⟩, .token ⟨.term, ['a'], 4⟩]⟩ rfl (by decide)
  · exact @NestingProblem.headValue _ _ _ _ 1
      ⟨0, ⟨2, 2⟩, ⟨2, 5⟩, [.token ⟨.size, ['2'], 2⟩, .token ⟨.term, ['a'], 4⟩]⟩
      (.token ⟨.size, ['2'], 2⟩) [.token ⟨.term, ['a'], 4⟩] ['2'] rfl rfl rfl
      (Or.inl ⟨_, List.mem_cons_self, rfl⟩) rfl

end TermOutline
