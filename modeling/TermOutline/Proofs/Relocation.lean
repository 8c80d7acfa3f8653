import Mathlib.Order.MinMax
import TermOutline.Proofs.Lines

/-! # Relocated tokens

What grouping does hangs on the kinds of tokens and their order alone. When tokens are moved to
other places of a text, what is made of them and what is found in them moves along.
-/
namespace TermOutline

/-- A way to move tokens: every offset has a new place, in the same order, and a token keeps its
kind and reaches from the new place of its start to that of its end. -/
structure Relocation where
  offset : Nat → Nat
  token : Token → Token
  monotone : Monotone offset
  kind_token : ∀ t, (token t).kind = t.kind
  start_token : ∀ t, (token t).start = offset t.start
  stop_token : ∀ t, (token t).span.stop = offset t.span.stop

namespace Relocation

def span (move : Relocation) (span : Span) : Span := ⟨move.offset span.start, move.offset span.stop⟩

def finding (move : Relocation) (finding : Finding) : Finding :=
  { finding with span := move.span finding.span }

/-- Everything moves towards the end of the text by the same number of bytes. -/
def shift (bytes : Nat) : Relocation where
  offset offset := offset + bytes
  token t := t.shift bytes
  monotone _ _ h := Nat.add_le_add_right h bytes
  kind_token _ := rfl
  start_token _ := rfl
  stop_token t := Nat.add_right_comm t.start bytes t.text.byteLength

variable (move : Relocation)

attribute [simp] kind_token

@[simp] theorem span_token (t : Token) : (move.token t).span = move.span t.span := by
  rw [span, ← move.stop_token]
  exact congrArg (Span.mk · _) (move.start_token t)

@[simp] theorem isTrivia_token (t : Token) : (move.token t).isTrivia = t.isTrivia := by
  simp [Token.isTrivia]

theorem span_cover (a b : Span) : move.span (a.cover b) = (move.span a).cover (move.span b) := by
  simp [span, Span.cover, move.monotone.map_min, move.monotone.map_max]

theorem span_emptyAt (t : Token) :
    move.span (.emptyAt t.start) = .emptyAt (move.token t).start := by
  rw [move.start_token]
  rfl

end Relocation

mutual

def Item.relocate (move : Relocation) : Item → Item
  | .token t => .token (move.token t)
  | .call head opening items closing =>
    .call (move.token head) (move.token opening) (relocateItems move items) (move.token closing)
  | .text opening pieces closing =>
    .text (move.token opening) (relocatePieces move pieces) (move.token closing)

def Piece.relocate (move : Relocation) : Piece → Piece
  | .cut t => .cut (move.token t)
  | .slot opening items closing =>
    .slot (move.token opening) (relocateItems move items) (move.token closing)

def relocateItems (move : Relocation) : List Item → List Item
  | [] => []
  | item :: rest => item.relocate move :: relocateItems move rest

def relocatePieces (move : Relocation) : List Piece → List Piece
  | [] => []
  | piece :: rest => piece.relocate move :: relocatePieces move rest

end

variable (move : Relocation)

@[simp] theorem relocateItems_eq_map (items : List Item) :
    relocateItems move items = items.map (Item.relocate move) := by
  induction items with
  | nil => rfl
  | cons item rest ih => rw [relocateItems, ih, List.map_cons]

@[simp] theorem relocatePieces_eq_map (pieces : List Piece) :
    relocatePieces move pieces = pieces.map (Piece.relocate move) := by
  induction pieces with
  | nil => rfl
  | cons piece rest ih => rw [relocatePieces, ih, List.map_cons]

@[simp] theorem comma?_relocate (item : Item) :
    (item.relocate move).comma? = item.comma?.map move.token := by
  cases item with
  | token t =>
    simp only [Item.relocate, Item.comma?, move.kind_token]
    split <;> rfl
  | call => rfl
  | text => rfl

@[simp] theorem isComma_relocate (item : Item) : (item.relocate move).isComma = item.isComma := by
  simp [Item.isComma]

theorem repeatedCommas_relocate (afterComma : Bool) (items : List Item) :
    repeatedCommas afterComma (items.map (Item.relocate move)) =
      (repeatedCommas afterComma items).map move.span := by
  induction items generalizing afterComma with
  | nil => rfl
  | cons item rest ih =>
    rw [List.map_cons, repeatedCommas, repeatedCommas, comma?_relocate]
    cases item.comma? with
    | none => exact ih false
    | some comma =>
      cases afterComma with
      | false => exact ih true
      | true => simp [ih]

theorem finalComma_relocate (items : List Item) :
    finalComma (items.map (Item.relocate move)) = (finalComma items).map move.span := by
  rw [finalComma, finalComma, ← List.map_reverse]
  rcases items.reverse with _ | ⟨last, _ | ⟨before, rest⟩⟩
  · rfl
  · rfl
  · simp only [List.map_cons, comma?_relocate, isComma_relocate]
    cases last.comma? with
    | none => rfl
    | some comma =>
      simp only [Option.map_some, move.span_token]
      split <;> rfl

theorem strayCommas_relocate (afterComma : Bool) (items : List Item) :
    strayCommas afterComma (items.map (Item.relocate move)) =
      (strayCommas afterComma items).map move.span := by
  rw [strayCommas, strayCommas, repeatedCommas_relocate, finalComma_relocate, List.map_append]

theorem lineStrayCommas_relocate (items : List Item) :
    lineStrayCommas (items.map (Item.relocate move)) = (lineStrayCommas items).map move.span := by
  cases items with
  | nil => rfl
  | cons head rest =>
    rw [List.map_cons, lineStrayCommas, lineStrayCommas, comma?_relocate]
    cases head.comma? with
    | none => exact strayCommas_relocate move false rest
    | some comma => simp [strayCommas_relocate]

def OpenGroup.relocate (move : Relocation) : OpenGroup → OpenGroup
  | .call head opening items =>
    .call (head.map move.token) (move.token opening) (items.map (Item.relocate move))
  | .text opening pieces => .text (move.token opening) (pieces.map (Piece.relocate move))
  | .slot opening items => .slot (move.token opening) (items.map (Item.relocate move))

@[simp] theorem isCall_relocate (group : OpenGroup) :
    (group.relocate move).isCall = group.isCall := by
  cases group <;> rfl

@[simp] theorem isSlot_relocate (group : OpenGroup) :
    (group.relocate move).isSlot = group.isSlot := by
  cases group <;> rfl

@[simp] theorem unclosed?_relocate (group : OpenGroup) :
    (group.relocate move).unclosed? = group.unclosed?.map move.finding := by
  cases group <;> simp [OpenGroup.relocate, OpenGroup.unclosed?, Relocation.finding]

theorem filterMap_unclosed?_relocate (groups : List OpenGroup) :
    (groups.map (OpenGroup.relocate move)).filterMap OpenGroup.unclosed? =
      (groups.filterMap OpenGroup.unclosed?).map move.finding := by
  rw [List.filterMap_map, List.map_filterMap]
  simp only [Function.comp_def, unclosed?_relocate]

namespace Grouping

def relocate (move : Relocation) (grouping : Grouping) : Grouping :=
  { items := grouping.items.map (Item.relocate move)
    groups := grouping.groups.map (OpenGroup.relocate move)
    findings := grouping.findings.map move.finding }

theorem innermost_relocate (grouping : Grouping) :
    (grouping.relocate move).innermost =
      grouping.innermost.map (List.map (Item.relocate move)) := by
  rcases grouping with ⟨items, _ | ⟨_ | _ | _, outer⟩, findings⟩ <;> rfl

theorem setInnermost_relocate (grouping : Grouping) (held : List Item) :
    (grouping.relocate move).setInnermost (held.map (Item.relocate move)) =
      (grouping.setInnermost held).relocate move := by
  rcases grouping with ⟨items, _ | ⟨_ | _ | _, outer⟩, findings⟩ <;> rfl

theorem report_relocate (grouping : Grouping) (fault : Fault) (span : Span) :
    (grouping.relocate move).report fault (move.span span) =
      (grouping.report fault span).relocate move := by
  simp [report, relocate, Relocation.finding]

theorem reportCommas_relocate (grouping : Grouping) (spans : List Span) :
    (grouping.relocate move).reportCommas (spans.map move.span) =
      (grouping.reportCommas spans).relocate move := by
  simp [reportCommas, relocate, Relocation.finding, Function.comp_def]

theorem place_relocate (grouping : Grouping) (items : List Item) :
    (grouping.relocate move).place (items.map (Item.relocate move)) =
      (grouping.place items).map (relocate move) := by
  rw [place, place, innermost_relocate]
  cases grouping.innermost with
  | error breach => rfl
  | ok held =>
    simp only [Except.map, bind, Except.bind, pure, Except.pure, ← List.map_append,
      setInnermost_relocate]

theorem openCall_relocate (grouping : Grouping) (opening : Token) :
    (grouping.relocate move).openCall (move.token opening) =
      (grouping.openCall opening).map (relocate move) := by
  rw [openCall, openCall, innermost_relocate]
  cases grouping.innermost with
  | error breach => rfl
  | ok held =>
    simp only [Except.map, bind, Except.bind, List.getLast?_map]
    cases held.getLast? with
    | none => rfl
    | some item =>
      cases item with
      | token head =>
        simp only [Option.map_some, Item.relocate, move.kind_token]
        split
        · simp only [pure, Except.pure, ← List.map_dropLast, setInnermost_relocate]
          rfl
        · rfl
      | call => rfl
      | text => rfl

theorem closeParen_relocate (grouping : Grouping) (closing : Token) :
    (grouping.relocate move).closeParen (move.token closing) =
      (grouping.closeParen closing).map (relocate move) := by
  have unmatched : (grouping.relocate move).report .unmatchedParen (move.token closing).span =
      (grouping.report .unmatchedParen closing.span).relocate move := by
    rw [move.span_token, report_relocate]
  rcases grouping with ⟨items, _ | ⟨⟨head, opening, held⟩ | _ | _, outer⟩, findings⟩
  · exact congrArg Except.ok unmatched
  · have closed := reportCommas_relocate move ⟨items, outer, findings⟩ (strayCommas true held)
    rw [← strayCommas_relocate] at closed
    cases head with
    | some head =>
      have placed := place_relocate move (reportCommas ⟨items, outer, findings⟩
        (strayCommas true held)) [.call head opening held closing]
      rw [← closed] at placed
      simpa [closeParen, relocate, OpenGroup.relocate, Item.relocate] using placed
    | none =>
      have placed := place_relocate move (reportCommas ⟨items, outer, findings⟩
        (strayCommas true held)) held
      rw [← closed] at placed
      exact placed
  · exact congrArg Except.ok unmatched
  · exact congrArg Except.ok unmatched

theorem callsInSlot?_relocate (groups : List OpenGroup) :
    callsInSlot? (groups.map (OpenGroup.relocate move)) = callsInSlot? groups := by
  have calls : ((groups.map (OpenGroup.relocate move)).takeWhile OpenGroup.isCall).length =
      (groups.takeWhile OpenGroup.isCall).length := by
    rw [List.takeWhile_map, List.length_map]
    simp [Function.comp_def]
  rw [callsInSlot?, callsInSlot?]
  simp only [calls, List.getElem?_map]
  cases groups[(groups.takeWhile OpenGroup.isCall).length]? <;> simp

theorem closeSlot_relocate (grouping : Grouping) (closing : Token) :
    (grouping.relocate move).closeSlot (move.token closing) =
      (grouping.closeSlot closing).map (relocate move) := by
  have same := callsInSlot?_relocate move grouping.groups
  rw [closeSlot, closeSlot, show (grouping.relocate move).groups = grouping.groups.map
    (OpenGroup.relocate move) from rfl, same]
  cases callsInSlot? grouping.groups with
  | none =>
    dsimp only
    rw [move.span_token, report_relocate]
    rfl
  | some calls =>
    dsimp only
    rw [← List.map_drop, ← List.map_take]
    rcases grouping.groups.drop calls with
      _ | ⟨_ | _ | ⟨opening, held⟩, _ | ⟨_ | ⟨text, pieces⟩ | _, outer⟩⟩ <;> try rfl
    have commas := strayCommas_relocate move true held
    have unclosed := filterMap_unclosed?_relocate move (grouping.groups.take calls).reverse
    rw [List.map_reverse] at unclosed
    rw [unclosed]
    simp [OpenGroup.relocate, Except.map, relocate, reportCommas, Piece.relocate, commas,
      Relocation.finding]

theorem openSlot_relocate (grouping : Grouping) (opening : Token) :
    (grouping.relocate move).openSlot (move.token opening) =
      (grouping.openSlot opening).map (relocate move) := by
  rcases grouping with ⟨items, _ | ⟨_ | _ | _, outer⟩, findings⟩ <;> rfl

theorem addCut_relocate (grouping : Grouping) (cut : Token) :
    (grouping.relocate move).addCut (move.token cut) =
      (grouping.addCut cut).map (relocate move) := by
  rcases grouping with ⟨items, _ | ⟨_ | _ | _, outer⟩, findings⟩ <;> try rfl
  simp [addCut, relocate, OpenGroup.relocate, Piece.relocate, Except.map]

theorem closeText_relocate (grouping : Grouping) (closing : Token) :
    (grouping.relocate move).closeText (move.token closing) =
      (grouping.closeText closing).map (relocate move) := by
  rcases grouping with ⟨items, _ | ⟨_ | ⟨opening, pieces⟩ | _, outer⟩, findings⟩ <;> try rfl
  have placed := place_relocate move ⟨items, outer, findings⟩ [.text opening pieces closing]
  simpa [closeText, relocate, OpenGroup.relocate, Item.relocate] using placed

/-- One step of grouping on a moved token. -/
theorem step_relocate (previous : Option Token) (grouping : Grouping) (token : Token) :
    (grouping.relocate move).step (previous.map move.token) (move.token token) =
      (grouping.step previous token).map (relocate move) := by
  have word : (grouping.relocate move).place [.token (move.token token)] =
      (grouping.place [.token token]).map (relocate move) := by
    rw [← place_relocate]
    rfl
  have before : ((previous.map move.token).any fun t => t.kind = .term) =
      previous.any fun t => t.kind = .term := by
    cases previous <;> simp
  cases hk : token.kind <;> simp only [step, hk, move.kind_token]
  case term | size | decimal | code | comma => exact word
  case space | line | textOpen | tab | badEscape | textBrace | unknown => rfl
  case parenOpen =>
    rw [before]
    split
    · exact openCall_relocate move grouping token
    · rw [move.span_token, report_relocate]
      rfl
  case parenClose => exact closeParen_relocate move grouping token
  case textCut => exact addCut_relocate move grouping token
  case textClose => exact closeText_relocate move grouping token
  case slotOpen => exact openSlot_relocate move grouping token
  case slotClose => exact closeSlot_relocate move grouping token

theorem read_relocate (previous : Option Token) (grouping : Grouping) (tokens : List Token) :
    (grouping.relocate move).read (previous.map move.token) (tokens.map move.token) =
      (grouping.read previous tokens).map (relocate move) := by
  induction tokens generalizing previous grouping with
  | nil => rfl
  | cons token rest ih =>
    rw [List.map_cons, read, read, step_relocate]
    cases grouping.step previous token with
    | error breach => rfl
    | ok next => exact ih (some token) next

theorem finish_relocate (grouping : Grouping) :
    (grouping.relocate move).finish = grouping.finish.map (relocate move) := by
  have calls : (grouping.groups.map (OpenGroup.relocate move)).all OpenGroup.isCall =
      grouping.groups.all OpenGroup.isCall := by
    simp [List.all_map, Function.comp_def]
  rw [finish, finish, show (grouping.relocate move).groups = grouping.groups.map
    (OpenGroup.relocate move) from rfl, calls]
  split
  · have unclosed := filterMap_unclosed?_relocate move grouping.groups.reverse
    rw [List.map_reverse] at unclosed
    rw [unclosed]
    simp [Except.map, relocate]
  · rfl

theorem ofTokens_relocate (tokens : List Token) :
    ofTokens (tokens.map move.token) = (ofTokens tokens).map (relocate move) := by
  have all := read_relocate move none initial tokens
  rw [show initial.relocate move = initial from rfl, Option.map_none] at all
  rw [ofTokens, ofTokens, all]
  cases initial.read none tokens with
  | error breach => rfl
  | ok last => exact finish_relocate move last

end Grouping

def Line.relocate (move : Relocation) (line : Line) : Line :=
  { depth := line.depth
    indent := move.span line.indent
    span := move.span line.span
    items := line.items.map (Item.relocate move) }

theorem trimTrivia_relocate (tokens : List Token) :
    trimTrivia (tokens.map move.token) = (trimTrivia tokens).map move.token := by
  have same : Token.isTrivia ∘ move.token = Token.isTrivia := by
    funext t
    exact move.isTrivia_token t
  simp only [trimTrivia, List.dropWhile_map, ← List.map_reverse, same]

@[simp] theorem content_relocate (tokens : List Token) :
    content (tokens.map move.token) = (content tokens).map move.token := by
  simp [content, List.filter_map, Function.comp_def]

theorem indentSpan_relocate {tokens : List Token} (ne : tokens ≠ []) :
    indentSpan (tokens.map move.token) = move.span (indentSpan tokens) := by
  cases tokens with
  | nil => exact absurd rfl ne
  | cons token rest =>
    simp only [List.map_cons, indentSpan, move.kind_token]
    split
    · exact move.span_token token
    · exact (move.span_emptyAt token).symm

theorem tokenSpan_relocate (first : Token) (rest : List Token) :
    tokenSpan (move.token first) (rest.map move.token) = move.span (tokenSpan first rest) := by
  have last : (move.token first :: rest.map move.token).getLast (List.cons_ne_nil _ _) =
      move.token ((first :: rest).getLast (List.cons_ne_nil _ _)) :=
    @List.getLast_map _ _ move.token (first :: rest) (List.cons_ne_nil _ _)
  rw [tokenSpan, tokenSpan, last, move.span_token, move.span_token, move.span_cover]

theorem indentFindings_relocate {indent : Span} (h : (move.span indent).length = indent.length)
    (unit : Nat) :
    indentFindings (move.span indent) unit = (indentFindings indent unit).map move.finding := by
  rw [indentFindings, indentFindings, h]
  split <;> rfl

/-- A line moves as a whole, as long as the spaces it starts with stay as many. -/
theorem ofTokens?_relocate (settings : Settings) {tokens : List Token}
    (h : (move.span (indentSpan tokens)).length = (indentSpan tokens).length) :
    Line.ofTokens? settings (tokens.map move.token) = (Line.ofTokens? settings tokens).map
      (Option.map (Prod.map (Line.relocate move) (List.map move.finding))) := by
  have grouped := Grouping.ofTokens_relocate move (trimTrivia tokens)
  have indented : trimTrivia tokens ≠ [] →
      indentSpan (tokens.map move.token) = move.span (indentSpan tokens) := by
    intro ne
    apply indentSpan_relocate
    rintro rfl
    exact ne rfl
  rw [Line.ofTokens?, Line.ofTokens?, trimTrivia_relocate]
  generalize trimTrivia tokens = core at grouped indented
  cases core with
  | nil => rfl
  | cons first rest =>
    rw [List.map_cons] at grouped ⊢
    dsimp only
    rw [grouped, indented (List.cons_ne_nil first rest)]
    cases Grouping.ofTokens (first :: rest) with
    | error breach => rfl
    | ok grouping =>
      simp [Except.map, bind, Except.bind, pure, Except.pure, h, indentFindings_relocate move h,
        Line.relocate, Grouping.relocate, tokenSpan_relocate, lineStrayCommas_relocate,
        Relocation.finding]

theorem splitLines_relocate (tokens : List Token) :
    splitLines (tokens.map move.token) = (splitLines tokens).map (List.map move.token) := by
  induction tokens with
  | nil => rfl
  | cons token rest ih =>
    rw [List.map_cons, splitLines, splitLines, ih, move.kind_token]
    split
    · rfl
    · cases splitLines rest <;> rfl

theorem mapM_ofTokens?_relocate (settings : Settings) {lines : List (List Token)}
    (h : ∀ line ∈ lines, (move.span (indentSpan line)).length = (indentSpan line).length) :
    (lines.map (List.map move.token)).mapM (Line.ofTokens? settings) =
      (lines.mapM (Line.ofTokens? settings)).map
        (List.map (Option.map (Prod.map (Line.relocate move) (List.map move.finding)))) := by
  induction lines with
  | nil => rfl
  | cons line rest ih =>
    have ⟨first, others⟩ := List.forall_mem_cons.1 h
    rw [List.map_cons, List.mapM_cons, List.mapM_cons, ofTokens?_relocate move settings first,
      ih others]
    cases Line.ofTokens? settings line with
    | error breach => rfl
    | ok result => cases rest.mapM (Line.ofTokens? settings) <;> rfl

/-- The lines of moved tokens, and what is found in them, are moved. -/
theorem readLines_relocate (settings : Settings) {tokens : List Token}
    (h : ∀ line ∈ splitLines tokens,
      (move.span (indentSpan line)).length = (indentSpan line).length) :
    readLines settings (tokens.map move.token) = (readLines settings tokens).map
      (List.map (Prod.map (Line.relocate move) (List.map move.finding))) := by
  rw [readLines, readLines, splitLines_relocate, mapM_ofTokens?_relocate move settings h]
  cases (splitLines tokens).mapM (Line.ofTokens? settings) with
  | error breach => rfl
  | ok results =>
    simp [Except.map, bind, Except.bind, pure, Except.pure, List.filterMap_map, List.map_filterMap]

end TermOutline
