import TermOutline.Proofs.Stages

/-! # Where trivia goes

Trivia is put among elements as late as possible, and no node begins with it. So the elements and
the tokens of a document leave one place for every piece of trivia: a tree of given nests over given
tokens is unique.
-/
namespace TermOutline

mutual

/-- Elements with no trivia and no empty node under them. -/
def Element.Filled : Element → Prop
  | .token t => t.isTrivia = false
  | .node _ children => children ≠ [] ∧ elementsFilled children

def elementsFilled : List Element → Prop
  | [] => True
  | element :: rest => element.Filled ∧ elementsFilled rest

end

theorem elementsFilled_iff (elements : List Element) :
    elementsFilled elements ↔ ∀ element ∈ elements, element.Filled := by
  induction elements with
  | nil => simp [elementsFilled]
  | cons element rest ih => simp [elementsFilled, ih]

@[simp] theorem elementsFilled_append (front back : List Element) :
    elementsFilled (front ++ back) ↔ elementsFilled front ∧ elementsFilled back := by
  simp only [elementsFilled_iff, List.forall_mem_append]

theorem Item.elements_ne_nil (item : Item) : item.elements ≠ [] := by
  cases item <;> simp [Item.elements]

mutual

/-- Items of tokens that say something are written as filled elements. -/
theorem item_elements_filled : ∀ (item : Item), (∀ t ∈ item.tokens, t.isTrivia = false) →
    elementsFilled item.elements
  | .token t, h => ⟨h t (by simp [Item.tokens]), trivial⟩
  | .call head opening items closing, h => by
    simp only [Item.tokens, List.forall_mem_cons, List.forall_mem_append] at h
    obtain ⟨hh, ho, hi, hc, _⟩ := h
    have inner := chains_filled items hi
    simp [Item.elements, elementsFilled, Element.Filled, hh, ho, hc, inner]
  | .text opening pieces closing, h => by
    simp only [Item.tokens, List.forall_mem_cons, List.forall_mem_append] at h
    obtain ⟨ho, hp, hc, _⟩ := h
    have inner := pieceElements_filled pieces hp
    simp [Item.elements, elementsFilled, Element.Filled, ho, hc, inner]

theorem piece_element_filled : ∀ (piece : Piece), (∀ t ∈ piece.tokens, t.isTrivia = false) →
    piece.element.Filled
  | .cut t, h => h t (by simp [Piece.tokens])
  | .slot opening items closing, h => by
    simp only [Piece.tokens, List.forall_mem_cons, List.forall_mem_append] at h
    obtain ⟨ho, hi, hc, _⟩ := h
    have inner := chains_filled items hi
    simp [Piece.element, elementsFilled, Element.Filled, ho, hc, inner]

theorem pieceElements_filled : ∀ (pieces : List Piece),
    (∀ t ∈ pieceTokens pieces, t.isTrivia = false) → elementsFilled (pieceElements pieces)
  | [], _ => trivial
  | piece :: rest, h => by
    obtain ⟨first, others⟩ := List.forall_mem_append.1 h
    exact ⟨piece_element_filled piece first, pieceElements_filled rest others⟩

theorem chains_filled : ∀ (items : List Item), (∀ t ∈ itemTokens items, t.isTrivia = false) →
    elementsFilled (chains items).1 ∧ elementsFilled (chains items).2
  | [], _ => ⟨trivial, trivial⟩
  | item :: rest, h => by
    obtain ⟨first, others⟩ := List.forall_mem_append.1 h
    have tail := chains_filled rest others
    have own := item_elements_filled item first
    rw [chains]
    cases hc : item.comma? with
    | none => simp [elementsFilled, Element.Filled, own, tail, item.elements_ne_nil]
    | some comma =>
      obtain ⟨rfl, _⟩ := comma?_eq_some hc
      exact ⟨trivial, first comma (by simp [Item.tokens]), (elementsFilled_append _ _).2 tail⟩

end

theorem lineElements_filled {items : List Item} (h : ∀ t ∈ itemTokens items, t.isTrivia = false) :
    elementsFilled (lineElements items) := by
  cases items with
  | nil => trivial
  | cons head rest =>
    obtain ⟨first, others⟩ := List.forall_mem_append.1 h
    rw [lineElements, listElements, elementsFilled_append, elementsFilled_append]
    exact ⟨item_elements_filled head first, chains_filled rest others⟩

theorem nestLines_filled {lines : List ClampedLine} (h : ∀ clamped ∈ lines,
      clamped.line.items ≠ [] ∧ ∀ t ∈ itemTokens clamped.line.items, t.isTrivia = false) :
    elementsFilled (nestLines lines) := by
  have entries : ∀ entry ∈ lines.foldr nestLine [], entry.2.Filled := by
    induction lines with
    | nil => simp
    | cons clamped rest ih =>
      obtain ⟨⟨nonempty, significant⟩, others⟩ := List.forall_mem_cons.1 h
      have after := ih others
      refine List.forall_mem_cons.2 ⟨⟨?_, ?_⟩, ?_⟩
      · obtain ⟨head, items, same⟩ := List.exists_cons_of_ne_nil nonempty
        simp [same, lineElements, head.elements_ne_nil]
      · refine (elementsFilled_append _ _).2 ⟨lineElements_filled significant, ?_⟩
        rw [elementsFilled_iff]
        intro element member
        obtain ⟨entry, inside, rfl⟩ := List.mem_map.1 member
        exact after entry ((List.takeWhile_prefix _).subset inside)
      · intro entry member
        exact after entry ((List.dropWhile_suffix _).subset member)
  rw [elementsFilled_iff, nestLines]
  intro element member
  obtain ⟨entry, inside, rfl⟩ := List.mem_map.1 member
  exact entries entry inside

theorem Element.Padded.first : ∀ {element padded : Element}, element.Filled →
    element.Padded padded → ∃ token rest, padded.tokens = token :: rest ∧ token.isTrivia = false
  | .token t, padded, filled, h => by
    rw [show padded = .token t from h]
    exact ⟨t, [], rfl, filled⟩
  | .node _ [], _, filled, _ => absurd rfl filled.1
  | .node kind (child :: children), padded, filled, h => by
    obtain ⟨inner, rfl, bare, trivia, first, others, rfl, quiet, hf, _⟩ := h
    obtain rfl := trivia_eq_nil quiet bare
    obtain ⟨token, rest, begins, significant⟩ := hf.first filled.2.1
    refine ⟨token, rest ++ elementTokens others, ?_, significant⟩
    rw [← List.cons_append, ← begins, ← elementTokens_cons]
    rfl

mutual

theorem Element.Padded.unique : ∀ {element padded padded' : Element} {more more' : List Token},
    element.Filled → element.Padded padded → element.Padded padded' →
      padded.tokens ++ more = padded'.tokens ++ more' → padded = padded' ∧ more = more'
  | .token t, padded, padded', more, more', _, h, h', same => by
    obtain rfl : padded = .token t := h
    obtain rfl : padded' = .token t := h'
    exact ⟨rfl, List.append_cancel_left same⟩
  | .node kind children, _, _, more, more', filled, h, h', same => by
    obtain ⟨inner, rfl, _, h⟩ := h
    obtain ⟨inner', rfl, _, h'⟩ := h'
    obtain ⟨rfl, rest⟩ := padded_unique filled.2 h h' same
    exact ⟨rfl, rest⟩

theorem padded_unique : ∀ {elements padded padded' : List Element} {more more' : List Token},
    elementsFilled elements → elementsPadded elements padded → elementsPadded elements padded' →
      elementTokens padded ++ more = elementTokens padded' ++ more' →
        padded = padded' ∧ more = more'
  | [], padded, padded', more, more', _, h, h', same => by
    obtain rfl : padded = [] := h
    obtain rfl : padded' = [] := h'
    exact ⟨rfl, same⟩
  | element :: rest, _, _, more, more', filled, h, h', same => by
    obtain ⟨trivia, first, others, rfl, quiet, hf, ho⟩ := h
    obtain ⟨trivia', first', others', rfl, quiet', hf', ho'⟩ := h'
    simp only [elementTokens_append, elementTokens_map_token, elementTokens_cons,
      List.append_assoc] at same
    obtain ⟨token, later, begins, significant⟩ := hf.first filled.1
    obtain ⟨token', later', begins', significant'⟩ := hf'.first filled.1
    -- each side has its trivia up to the first token that is none
    have cut := lead_takeWhile quiet significant (later ++ (elementTokens others ++ more))
    have cut' := lead_takeWhile quiet' significant' (later' ++ (elementTokens others' ++ more'))
    rw [← List.cons_append, ← begins] at cut
    rw [← List.cons_append, ← begins'] at cut'
    rw [same] at cut
    obtain rfl := cut.1.symm.trans cut'.1
    obtain ⟨rfl, left⟩ := hf.unique filled.1 hf' (cut.2.symm.trans cut'.2)
    obtain ⟨rfl, last⟩ := padded_unique filled.2 ho ho' left
    exact ⟨rfl, last⟩

end

theorem linesRead_filled {settings : Settings} {tokens : List Token} {lines : List Line}
    (h : LinesRead settings tokens lines) :
    elementsFilled (nestLines (clampDepths settings.maxDepth 0 lines)) := by
  apply nestLines_filled
  intro clamped member
  have among : clamped.line ∈ lines := by
    rw [← clampDepths_lines settings.maxDepth 0 lines]
    exact List.mem_map_of_mem member
  refine ⟨(linesRead_kinded h clamped.line among).1, ?_⟩
  intro token inside
  have said : token ∈ content tokens := by
    rw [linesRead_tokens h]
    exact List.mem_flatMap.2 ⟨clamped.line, among, inside⟩
  simpa using (List.mem_filter.1 said).2

theorem Tree.Holds.unique {settings : Settings} {tokens : List Token} {lines : List Line}
    {tree other : Tree} (read : LinesRead settings tokens lines)
    (h : tree.Holds settings tokens lines) (h' : other.Holds settings tokens lines) :
    tree = other := by
  obtain ⟨padded, trail, split, hp, _⟩ := h.padded
  obtain ⟨padded', trail', split', hp', _⟩ := h'.padded
  have all := h.tokens_eq
  have all' := h'.tokens_eq
  rw [Tree.tokens, split, elementTokens_append, elementTokens_map_token] at all
  rw [Tree.tokens, split', elementTokens_append, elementTokens_map_token] at all'
  obtain ⟨rfl, rfl⟩ := padded_unique (linesRead_filled read) hp hp' (all.trans all'.symm)
  cases tree
  cases other
  exact congrArg Tree.mk (split.trans split'.symm)

end TermOutline
