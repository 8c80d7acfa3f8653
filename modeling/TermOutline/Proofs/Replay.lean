import TermOutline.Nest.Basic
import TermOutline.Proofs.Conservation
import TermOutline.Proofs.Nesting

/-! # Trees and their tokens

Replaying the events of elements over tokens that are theirs, apart from trivia, never fails. What
comes out is the elements with the trivia put in, never at the beginning nor at the end of a node,
and it stands for the same nests.
-/
namespace TermOutline

def Element.isTrivia : Element → Bool
  | .token t => t.isTrivia
  | .node .. => false

mutual

/-- An element with trivia put in between the elements under it. -/
def Element.Padded : Element → Element → Prop
  | .token t, padded => padded = .token t
  | .node kind children, padded => ∃ inner, padded = .node kind inner ∧
      (∀ first ∈ inner.head?, first.isTrivia = false) ∧ elementsPadded children inner

/-- Elements with trivia put in before each of them and inside them. -/
def elementsPadded : List Element → List Element → Prop
  | [], padded => padded = []
  | element :: rest, padded => ∃ trivia first others,
      padded = trivia.map Element.token ++ first :: others ∧ content trivia = [] ∧
        element.Padded first ∧ elementsPadded rest others

end

/-- No trivia stands at the beginning of a node. -/
theorem trivia_eq_nil {trivia : List Token} {elements : List Element} (quiet : content trivia = [])
    (bare : ∀ first ∈ (trivia.map Element.token ++ elements).head?, first.isTrivia = false) :
    trivia = [] := by
  cases trivia with
  | nil => rfl
  | cons token more =>
    have significant : token.isTrivia = false := bare (.token token) rfl
    simp [content, significant] at quiet

theorem ofToken?_trivia {token : Token} (h : token.isTrivia = true) :
    Reading.ofToken? token = none := by
  cases hk : token.kind <;>
    simp_all [Token.isTrivia, TokenKind.isTrivia, Reading.ofToken?, WordKind.ofToken?]

@[simp] theorem readings_append (front back : List Element) :
    readings (front ++ back) = readings front ++ readings back := by
  induction front with
  | nil => rfl
  | cons element rest ih => simp [readings, ih]

theorem readings_trivia {trivia : List Token} (h : content trivia = []) :
    readings (trivia.map Element.token) = [] := by
  induction trivia with
  | nil => rfl
  | cons token rest ih =>
    have ⟨first, others⟩ := List.forall_mem_cons.1 (List.filter_eq_nil_iff.1 h)
    have quiet : Reading.ofToken? token = none := ofToken?_trivia (by simpa using first)
    simp [readings, Element.reading?, quiet, ih (List.filter_eq_nil_iff.2 others)]

mutual

theorem Element.Padded.reading?_eq : ∀ {element padded : Element}, element.Padded padded →
    padded.reading? = element.reading?
  | .token t, padded, h => by
    rw [show padded = .token t from h]
  | .node kind children, padded, h => by
    obtain ⟨inner, rfl, _, h⟩ := h
    rw [Element.reading?, Element.reading?, readings_padded h]

/-- Trivia says nothing. -/
theorem readings_padded : ∀ {elements padded : List Element}, elementsPadded elements padded →
    readings padded = readings elements
  | [], padded, h => by
    rw [show padded = [] from h]
  | element :: rest, padded, h => by
    obtain ⟨trivia, first, others, rfl, quiet, hf, ho⟩ := h
    rw [readings_append, readings_trivia quiet, List.nil_append, readings, readings,
      hf.reading?_eq, readings_padded ho]

end

theorem elementTokens_append (front back : List Element) :
    elementTokens (front ++ back) = elementTokens front ++ elementTokens back := by
  induction front with
  | nil => rfl
  | cons element rest ih => rw [List.cons_append, elementTokens_cons, ih, elementTokens_cons,
      List.append_assoc]

theorem elementTokens_map_token (tokens : List Token) :
    elementTokens (tokens.map Element.token) = tokens := by
  induction tokens with
  | nil => rfl
  | cons token rest ih =>
    rw [List.map_cons, elementTokens_cons, ih]
    rfl

theorem content_dropWhile (tokens : List Token) :
    content (tokens.dropWhile Token.isTrivia) = content tokens := by
  conv_rhs => rw [← List.takeWhile_append_dropWhile (p := Token.isTrivia) (l := tokens)]
  rw [content_append, content_eq_nil fun t ht => List.mem_takeWhile_imp ht, List.nil_append]

theorem lead_takeWhile {lead : List Token} {token : Token} (hl : content lead = [])
    (ht : token.isTrivia = false) (rest : List Token) :
    (lead ++ token :: rest).takeWhile Token.isTrivia = lead ∧
      (lead ++ token :: rest).dropWhile Token.isTrivia = token :: rest := by
  have trivia : ∀ t ∈ lead, t.isTrivia = true := by
    simpa [content] using hl
  rw [List.takeWhile_append_of_pos trivia, List.dropWhile_append_of_pos trivia]
  simp [ht]

theorem ok_bind {α β : Type} (a : α) (f : α → Except Breach β) : (Except.ok a >>= f) = f a := rfl

namespace OpenBranch

def adding (top : OpenBranch) (elements : List Element) : OpenBranch :=
  { top with children := top.children ++ elements }

theorem adding_adding (top : OpenBranch) (front back : List Element) :
    (top.adding front).adding back = top.adding (front ++ back) := by
  have same : top.children ++ front ++ back = top.children ++ (front ++ back) := by
    apply Array.toList_inj.1
    simp
  rw [adding, adding, adding, same]

end OpenBranch

theorem Sink.append_eq (elements : List Element) (tokens : List Token) (top : OpenBranch)
    (outer : List OpenBranch) (roots : List Tree) :
    append ⟨tokens, top :: outer, roots⟩ elements =
      .ok ⟨tokens, top.adding elements :: outer, roots⟩ := by
  cases elements with
  | nil => simp [append, OpenBranch.adding]
  | cons element rest => rfl

namespace Sink

theorem eatTrivia_eq (tokens : List Token) (top : OpenBranch) (outer : List OpenBranch)
    (roots : List Tree) :
    eatTrivia ⟨tokens, top :: outer, roots⟩ =
      .ok ⟨tokens.dropWhile Token.isTrivia,
        top.adding ((tokens.takeWhile Token.isTrivia).map Element.token) :: outer, roots⟩ := by
  simp only [eatTrivia, append_eq]
  rfl

theorem step_token {lead rest : List Token} {token : Token} (hl : content lead = [])
    (ht : token.isTrivia = false) (top : OpenBranch) (outer : List OpenBranch)
    (roots : List Tree) :
    step ⟨lead ++ token :: rest, top :: outer, roots⟩ (.token token.kind) =
      .ok ⟨rest, top.adding (lead.map Element.token ++ [.token token]) :: outer, roots⟩ := by
  obtain ⟨taken, left⟩ := lead_takeWhile hl ht rest
  simp only [step, eatTrivia_eq, taken, left, bind, Except.bind, takeToken, if_true, append_eq,
    OpenBranch.adding_adding]

theorem step_start (kind : NodeKind) (tokens : List Token) (top : OpenBranch)
    (outer : List OpenBranch) (roots : List Tree) :
    step ⟨tokens, top :: outer, roots⟩ (.start (.node kind)) =
      .ok ⟨tokens.dropWhile Token.isTrivia, ⟨.node kind, #[]⟩ ::
        top.adding ((tokens.takeWhile Token.isTrivia).map Element.token) :: outer, roots⟩ := by
  simp only [step, List.isEmpty_cons, Bool.false_eq_true, if_false, eatTrivia_eq]
  rfl

theorem step_finish (kind : NodeKind) (children : List Element) (tokens : List Token)
    (top : OpenBranch) (outer : List OpenBranch) (roots : List Tree) :
    step ⟨tokens, OpenBranch.adding ⟨.node kind, #[]⟩ children :: top :: outer, roots⟩ .finish =
      .ok ⟨tokens, top.adding [.node kind children] :: outer, roots⟩ := by
  have deep : ¬(outer.length + 1 + 1 = 1) := by omega
  simp only [step, List.length_cons, deep, if_false, pure, Except.pure, bind, Except.bind]
  simp [close, OpenBranch.adding, append_eq]

mutual

theorem replay_element : ∀ (element : Element) {tokens more : List Token},
    content tokens = element.tokens ++ more → ∃ lead padded rest, content lead = [] ∧
      element.Padded padded ∧ tokens = lead ++ (padded.tokens ++ rest) ∧ content rest = more ∧
        ∀ top outer roots, element.events.foldlM step ⟨tokens, top :: outer, roots⟩ =
          .ok ⟨rest, top.adding (lead.map Element.token ++ [padded]) :: outer, roots⟩
  | .token t, tokens, more, h => by
    obtain ⟨lead, rest, rfl, hl, hr⟩ := content_cons h
    have significant : t.isTrivia = false := by
      have member : t ∈ content (lead ++ t :: rest) := by
        rw [h]
        exact List.mem_cons_self
      simpa using (List.mem_filter.1 member).2
    refine ⟨lead, .token t, rest, hl, rfl, rfl, hr, ?_⟩
    intro top outer roots
    rw [Element.events, List.foldlM_cons, step_token hl significant]
    rfl
  | .node kind children, tokens, more, h => by
    have left : content (tokens.dropWhile Token.isTrivia) = elementTokens children ++ more := by
      rw [content_dropWhile]
      exact h
    obtain ⟨padded, rest, hp, ht, hr, run⟩ := replay_elements children left
    refine ⟨tokens.takeWhile Token.isTrivia, .node kind padded, rest,
      content_eq_nil fun t ht => List.mem_takeWhile_imp ht, ⟨padded, rfl, ?_, hp⟩, ?_, hr, ?_⟩
    · intro first hf
      cases first with
      | node => rfl
      | token t =>
        obtain ⟨others, rfl⟩ : ∃ others, padded = .token t :: others := by
          cases padded with
          | nil => cases hf
          | cons element others =>
            cases hf
            exact ⟨others, rfl⟩
        have begins := List.head?_dropWhile_not Token.isTrivia tokens
        rw [← ht] at begins
        simpa [elementTokens_cons, Element.tokens, Element.tokensOnto, Element.isTrivia]
          using begins
    · rw [show (Element.node kind padded).tokens = elementTokens padded from rfl, ht,
        List.takeWhile_append_dropWhile]
    · intro top outer roots
      rw [Element.events, List.foldlM_cons, step_start, ok_bind, List.foldlM_append, run, ok_bind,
        List.foldlM_cons, step_finish, OpenBranch.adding_adding]
      rfl

theorem replay_elements : ∀ (elements : List Element) {tokens more : List Token},
    content tokens = elementTokens elements ++ more → ∃ padded rest,
      elementsPadded elements padded ∧ elementTokens padded ++ rest = tokens ∧
        content rest = more ∧ ∀ top outer roots,
          (elementEvents elements).foldlM step ⟨tokens, top :: outer, roots⟩ =
            .ok ⟨rest, top.adding padded :: outer, roots⟩
  | [], tokens, more, h => by
    refine ⟨[], tokens, rfl, rfl, h, ?_⟩
    intro top outer roots
    simp [elementEvents, OpenBranch.adding, pure, Except.pure]
  | element :: rest, tokens, more, h => by
    rw [elementTokens_cons, List.append_assoc] at h
    obtain ⟨lead, first, middle, hl, hf, rfl, hm, one⟩ := replay_element element h
    obtain ⟨others, last, ho, rfl, hr, run⟩ := replay_elements rest hm
    refine ⟨lead.map Element.token ++ first :: others, last,
      ⟨lead, first, others, rfl, hl, hf, ho⟩, ?_, hr, ?_⟩
    · rw [elementTokens_append, elementTokens_map_token, elementTokens_cons]
      simp only [List.append_assoc]
    · intro top outer roots
      rw [elementEvents, List.foldlM_append, one, ok_bind, run, OpenBranch.adding_adding,
        List.append_assoc, List.singleton_append]

end

/-- Replaying the events of a tree over its tokens gives the tree back, with the trivia put in. -/
theorem replay_eq {elements : List Element} {tokens : List Token}
    (h : content tokens = elementTokens elements) : ∃ padded trail,
      elementsPadded elements padded ∧ content trail = [] ∧ elementTokens padded ++ trail = tokens ∧
        replay (.start .root :: (elementEvents elements ++ [.finish])).toArray tokens =
          .ok ⟨padded ++ trail.map Element.token⟩ := by
  rw [← List.append_nil (elementTokens elements)] at h
  obtain ⟨padded, trail, hp, ht, quiet, run⟩ := replay_elements elements h
  have trivia : ∀ t ∈ trail, t.isTrivia = true := by
    simpa [content] using quiet
  have taken : trail.takeWhile Token.isTrivia = trail := by
    rw [List.takeWhile_eq_self_iff]
    exact trivia
  have dropped : trail.dropWhile Token.isTrivia = [] := by
    rw [List.dropWhile_eq_nil_iff]
    exact trivia
  have start : step (initial tokens) (.start .root) = .ok ⟨tokens, [⟨.root, #[]⟩], []⟩ := rfl
  have last : step ⟨trail, [OpenBranch.adding ⟨.root, #[]⟩ padded], []⟩ .finish =
      .ok ⟨[], [], [⟨padded ++ trail.map Element.token⟩]⟩ := by
    simp only [step, List.length_cons, List.length_nil, Nat.zero_add, if_true, eatTrivia_eq, taken,
      dropped, bind, Except.bind, OpenBranch.adding_adding]
    simp [close, OpenBranch.adding]
  refine ⟨padded, trail, hp, quiet, ht, ?_⟩
  rw [replay, List.foldlM_cons, start, ok_bind, List.foldlM_append, run, ok_bind, List.foldlM_cons,
    last]
  rfl

end Sink

mutual

theorem Item.Sound.kinded : ∀ {item : Item}, item.Sound → item.Kinded
  | .token _, _ => trivial
  | .call .., ⟨head, opening, closing, _, _, items⟩ =>
    ⟨head, opening, closing, itemsKinded_of_sound items⟩
  | .text .., ⟨opening, closing, pieces⟩ => ⟨opening, closing, piecesKinded_of_sound pieces⟩

theorem Piece.Sound.kinded : ∀ {piece : Piece}, piece.Sound → piece.Kinded
  | .cut _, h => h
  | .slot .., ⟨opening, closing, _, items⟩ => ⟨opening, closing, itemsKinded_of_sound items⟩

theorem itemsKinded_of_sound : ∀ {items : List Item}, itemsSound items → itemsKinded items
  | [], _ => trivial
  | _ :: _, ⟨item, rest⟩ => ⟨item.kinded, itemsKinded_of_sound rest⟩

theorem piecesKinded_of_sound : ∀ {pieces : List Piece}, piecesSound pieces → piecesKinded pieces
  | [], _ => trivial
  | _ :: _, ⟨piece, rest⟩ => ⟨piece.kinded, piecesKinded_of_sound rest⟩

end

@[simp] theorem tokens_token (token : Token) : (Element.token token).tokens = [token] := rfl

@[simp] theorem tokens_node (kind : NodeKind) (children : List Element) :
    (Element.node kind children).tokens = elementTokens children := rfl

@[simp] theorem elementTokens_nil : elementTokens [] = [] := rfl

mutual

theorem elementTokens_elements : ∀ (item : Item), elementTokens item.elements = item.tokens
  | .token _ => rfl
  | .call head opening items closing => by
    simp [Item.elements, Item.tokens, elementTokens_cons, elementTokens_append,
      ← elementTokens_chains items]
  | .text opening pieces closing => by
    simp [Item.elements, Item.tokens, elementTokens_cons, elementTokens_append,
      elementTokens_pieces pieces]

theorem tokens_element : ∀ (piece : Piece), piece.element.tokens = piece.tokens
  | .cut _ => rfl
  | .slot opening items closing => by
    simp [Piece.element, Piece.tokens, elementTokens_cons, elementTokens_append,
      ← elementTokens_chains items]

theorem elementTokens_pieces : ∀ (pieces : List Piece),
    elementTokens (pieceElements pieces) = pieceTokens pieces
  | [] => rfl
  | piece :: rest => by
    simp [pieceElements, pieceTokens, elementTokens_cons, tokens_element piece,
      elementTokens_pieces rest]

theorem elementTokens_chains : ∀ (items : List Item),
    elementTokens (chains items).1 ++ elementTokens (chains items).2 = itemTokens items
  | [] => rfl
  | item :: rest => by
    have tail := elementTokens_chains rest
    cases hc : item.comma? with
    | some comma =>
      obtain ⟨rfl, _⟩ := comma?_eq_some hc
      simp [chains, hc, itemTokens, Item.tokens, elementTokens_cons, elementTokens_append, tail]
    | none =>
      simp [chains, hc, itemTokens, elementTokens_cons, elementTokens_append,
        elementTokens_elements item, tail]

end

theorem elementTokens_line (items : List Item) :
    elementTokens (lineElements items) = itemTokens items := by
  cases items with
  | nil => rfl
  | cons head rest =>
    rw [lineElements, elementTokens_append, elementTokens_elements, listElements,
      elementTokens_append, elementTokens_chains, itemTokens]

/-- Nesting lines moves none of their tokens. -/
theorem elementTokens_nestLines (lines : List ClampedLine) :
    elementTokens (nestLines lines) =
      lines.flatMap fun clamped => itemTokens clamped.line.items := by
  rw [nestLines]
  induction lines with
  | nil => rfl
  | cons clamped rest ih =>
    rw [List.foldr_cons, nestLine, List.map_cons, elementTokens_cons, tokens_node,
      elementTokens_append, elementTokens_line, List.append_assoc, ← elementTokens_append,
      ← List.map_append, List.takeWhile_append_dropWhile, ih, List.flatMap_cons]

theorem clampDepths_lines (maxDepth limit : Nat) (lines : List Line) :
    (clampDepths maxDepth limit lines).map ClampedLine.line = lines := by
  induction lines generalizing limit with
  | nil => rfl
  | cons line rest ih => rw [clampDepths, List.map_cons, ih]

theorem elementTokens_clamped (maxDepth : Nat) (lines : List Line) :
    elementTokens (nestLines (clampDepths maxDepth 0 lines)) =
      lines.flatMap fun line => itemTokens line.items := by
  rw [elementTokens_nestLines]
  conv_rhs => rw [← clampDepths_lines maxDepth 0 lines, List.flatMap_map]

end TermOutline
