import TermOutline.Proofs.Relocation
import TermOutline.Proofs.Replay

/-! # Moved trees

What nesting makes of lines hangs on their depths and items alone. When the tokens of the lines are
moved to other places of a text, the nests made of them move along, and so does the trivia put in.
-/
namespace TermOutline

mutual

def Element.relocate (move : Relocation) : Element → Element
  | .token t => .token (move.token t)
  | .node kind children => .node kind (relocateElements move children)

def relocateElements (move : Relocation) : List Element → List Element
  | [] => []
  | element :: rest => element.relocate move :: relocateElements move rest

end

variable (move : Relocation)

@[simp] theorem relocateElements_eq_map (elements : List Element) :
    relocateElements move elements = elements.map (Element.relocate move) := by
  induction elements with
  | nil => rfl
  | cons element rest ih => rw [relocateElements, ih, List.map_cons]

@[simp] theorem isNest_relocate (element : Element) :
    (element.relocate move).isNest = element.isNest := by
  cases element with
  | token => rfl
  | node kind => cases kind <;> rfl

@[simp] theorem element_isTrivia_relocate (element : Element) :
    (element.relocate move).isTrivia = element.isTrivia := by
  cases element with
  | token t => exact move.isTrivia_token t
  | node => rfl

theorem relocate_map_token (tokens : List Token) :
    (tokens.map Element.token).map (Element.relocate move) =
      (tokens.map move.token).map Element.token := by
  simp [Element.relocate]

mutual

theorem Element.tokens_relocate : ∀ (element : Element),
    (element.relocate move).tokens = element.tokens.map move.token
  | .token _ => rfl
  | .node kind children => by
    have inner := elementTokens_relocate children
    rw [← relocateElements_eq_map] at inner
    exact inner

theorem elementTokens_relocate : ∀ (elements : List Element),
    elementTokens (elements.map (Element.relocate move)) = (elementTokens elements).map move.token
  | [] => rfl
  | element :: rest => by
    rw [List.map_cons, elementTokens_cons, elementTokens_cons, element.tokens_relocate,
      elementTokens_relocate rest, List.map_append]

end

mutual

theorem Element.Padded.relocate : ∀ {element padded : Element}, element.Padded padded →
    (element.relocate move).Padded (padded.relocate move)
  | .token t, padded, h => by
    rw [show padded = .token t from h]
    rfl
  | .node kind children, padded, h => by
    obtain ⟨inner, rfl, bare, h⟩ := h
    refine ⟨inner.map (Element.relocate move), by simp [Element.relocate], ?_, ?_⟩
    · intro first member
      rw [List.head?_map] at member
      obtain ⟨element, place, rfl⟩ := Option.map_eq_some_iff.1 member
      rw [element_isTrivia_relocate]
      exact bare element place
    · rw [relocateElements_eq_map]
      exact padded_relocate h

theorem padded_relocate : ∀ {elements padded : List Element}, elementsPadded elements padded →
    elementsPadded (elements.map (Element.relocate move)) (padded.map (Element.relocate move))
  | [], padded, h => by
    rw [show padded = [] from h]
    rfl
  | element :: rest, padded, h => by
    obtain ⟨trivia, first, others, rfl, quiet, hf, ho⟩ := h
    refine ⟨trivia.map move.token, first.relocate move, others.map (Element.relocate move), ?_, ?_,
      hf.relocate, padded_relocate ho⟩
    · rw [List.map_append, relocate_map_token, List.map_cons]
    · rw [content_relocate, quiet, List.map_nil]

end

mutual

theorem item_elements_relocate : ∀ (item : Item),
    (item.relocate move).elements = item.elements.map (Element.relocate move)
  | .token _ => rfl
  | .call head opening items closing => by
    simp [Item.relocate, Item.elements, chains_relocate items, Element.relocate]
  | .text opening pieces closing => by
    simp [Item.relocate, Item.elements, pieceElements_relocate pieces, Element.relocate]

theorem piece_element_relocate : ∀ (piece : Piece),
    (piece.relocate move).element = piece.element.relocate move
  | .cut _ => rfl
  | .slot opening items closing => by
    simp [Piece.relocate, Piece.element, chains_relocate items, Element.relocate]

theorem pieceElements_relocate : ∀ (pieces : List Piece),
    pieceElements (pieces.map (Piece.relocate move)) =
      (pieceElements pieces).map (Element.relocate move)
  | [] => rfl
  | piece :: rest => by
    rw [List.map_cons, pieceElements, pieceElements, piece_element_relocate piece,
      pieceElements_relocate rest, List.map_cons]

theorem chains_relocate : ∀ (items : List Item),
    chains (items.map (Item.relocate move)) =
      ((chains items).1.map (Element.relocate move), (chains items).2.map (Element.relocate move))
  | [] => rfl
  | item :: rest => by
    simp only [List.map_cons, chains, comma?_relocate, chains_relocate rest]
    cases item.comma? with
    | none => simp [item_elements_relocate item, Element.relocate]
    | some comma => simp [Element.relocate]

end

theorem lineElements_relocate (items : List Item) :
    lineElements (items.map (Item.relocate move)) =
      (lineElements items).map (Element.relocate move) := by
  cases items with
  | nil => rfl
  | cons head rest =>
    simp [lineElements, listElements, chains_relocate, item_elements_relocate]

def ClampedLine.relocate (clamped : ClampedLine) : ClampedLine :=
  { clamped with line := clamped.line.relocate move }

theorem clampDepths_relocate (maxDepth limit : Nat) (lines : List Line) :
    clampDepths maxDepth limit (lines.map (Line.relocate move)) =
      (clampDepths maxDepth limit lines).map (ClampedLine.relocate move) := by
  induction lines generalizing limit with
  | nil => rfl
  | cons line rest ih =>
    rw [List.map_cons, clampDepths, clampDepths, ih, List.map_cons]
    rfl

/-- A moved line before moved nests. -/
theorem nestLine_relocate (line : ClampedLine) (after : List (Nat × Element)) :
    nestLine (line.relocate move) (after.map (Prod.map id (Element.relocate move))) =
      (nestLine line after).map (Prod.map id (Element.relocate move)) := by
  have deeper : (fun entry : Nat × Element => decide (line.depth < entry.1)) ∘
      Prod.map id (Element.relocate move) = fun entry => decide (line.depth < entry.1) := rfl
  have items : (line.relocate move).line.items = line.line.items.map (Item.relocate move) := rfl
  have depth : (line.relocate move).depth = line.depth := rfl
  rw [nestLine, nestLine, items, depth, lineElements_relocate]
  simp only [List.takeWhile_map, List.dropWhile_map, deeper]
  simp [Element.relocate]

theorem nestLines_relocate (lines : List ClampedLine) :
    nestLines (lines.map (ClampedLine.relocate move)) =
      (nestLines lines).map (Element.relocate move) := by
  have entries : (lines.map (ClampedLine.relocate move)).foldr nestLine [] =
      (lines.foldr nestLine []).map (Prod.map id (Element.relocate move)) := by
    induction lines with
    | nil => rfl
    | cons line rest ih =>
      rw [List.map_cons, List.foldr_cons, ih, nestLine_relocate, List.foldr_cons]
  rw [nestLines, nestLines, entries]
  simp

end TermOutline
