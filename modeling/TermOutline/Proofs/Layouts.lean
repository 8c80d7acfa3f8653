import TermOutline.Proofs.Parentheses

/-! # Lines laid out in items

A line whose brackets are all in place can be laid out in items in one way: its tokens alone tell
where every call, text and slot begins and ends. Grouping finds this layout, whatever its commas are
like, and what it finds on the way are the stray commas of the lists that it closes.
-/
namespace TermOutline

mutual

/-- Items with their brackets in place: of the right kinds, and a parenthesis directly after the
term it belongs to. Commas may stand anywhere. -/
def Item.Placed : Item → Prop
  | .token token => token.kind = .term ∨ token.kind.isValue = true ∨ token.kind = .comma
  | .call head opening items closing =>
    head.kind = .term ∧ opening.kind = .parenOpen ∧ closing.kind = .parenClose ∧
      opening.start = head.span.stop ∧ itemsPlaced items
  | .text opening pieces closing =>
    opening.kind = .textOpen ∧ closing.kind = .textClose ∧ piecesPlaced pieces

def Piece.Placed : Piece → Prop
  | .cut token => token.kind = .textCut
  | .slot opening items closing =>
    opening.kind = .slotOpen ∧ closing.kind = .slotClose ∧ itemsPlaced items

def itemsPlaced : List Item → Prop
  | [] => True
  | item :: rest => item.Placed ∧ itemsPlaced rest

def piecesPlaced : List Piece → Prop
  | [] => True
  | piece :: rest => piece.Placed ∧ piecesPlaced rest

end

@[simp] theorem itemsPlaced_append (front back : List Item) :
    itemsPlaced (front ++ back) ↔ itemsPlaced front ∧ itemsPlaced back := by
  induction front with
  | nil => simp [itemsPlaced]
  | cons item rest ih => simp [itemsPlaced, ih, and_assoc]

@[simp] theorem piecesPlaced_append (front back : List Piece) :
    piecesPlaced (front ++ back) ↔ piecesPlaced front ∧ piecesPlaced back := by
  induction front with
  | nil => simp [piecesPlaced]
  | cons piece rest ih => simp [piecesPlaced, ih, and_assoc]

/-! ## One layout -/

/-- Behind a list its group is closed, or nothing follows. -/
def GroupEnds (more : List Token) : Prop :=
  ∀ token ∈ more.head?, token.kind = .parenClose ∨ token.kind = .slotClose

theorem Item.Placed.first {item : Item} (h : item.Placed) : ∃ first rest,
    item.tokens = first :: rest ∧ first.kind ≠ .parenOpen ∧ first.kind ≠ .parenClose ∧
      first.kind ≠ .slotClose := by
  cases item with
  | token token =>
    refine ⟨token, [], rfl, ?_⟩
    rcases h with kind | value | kind
    · simp [kind]
    · cases kind : token.kind <;> simp [kind, TokenKind.isValue] at value ⊢
    · simp [kind]
  | call head opening items closing => exact ⟨head, _, rfl, by simp [h.1]⟩
  | text opening pieces closing => exact ⟨opening, _, rfl, by simp [h.1]⟩

/-- No parenthesis opens behind an item of a list. -/
theorem GroupEnds.ne_parenOpen {items : List Item} {more : List Token} (closes : GroupEnds more)
    (h : itemsPlaced items) :
    ∀ token ∈ (itemTokens items ++ more).head?, token.kind ≠ .parenOpen := by
  intro token first
  cases items with
  | nil =>
    rcases closes token first with kind | kind <;> simp [kind]
  | cons item rest =>
    obtain ⟨other, others, tokens, kind, _⟩ := h.1.first
    simp only [itemTokens, tokens, List.cons_append, List.head?_cons, Option.mem_some_iff] at first
    exact first ▸ kind

/-- A list that goes on does not begin with what closes it. -/
theorem GroupEnds.ne_cons {item : Item} {more tail : List Token} (closes : GroupEnds more)
    (h : item.Placed) : more ≠ item.tokens ++ tail := by
  intro same
  obtain ⟨first, rest, tokens, _, paren, slot⟩ := h.first
  rcases closes first (by simp [same, tokens]) with kind | kind
  · exact paren kind
  · exact slot kind

mutual

theorem Item.Placed.unique : ∀ {item other : Item} {more more' : List Token}, item.Placed →
    other.Placed → (∀ token ∈ more.head?, token.kind ≠ .parenOpen) →
      (∀ token ∈ more'.head?, token.kind ≠ .parenOpen) →
        item.tokens ++ more = other.tokens ++ more' → item = other ∧ more = more'
  | .token token, .token other, more, more', _, _, _, _, same => by
    simpa [Item.tokens] using same
  | .token token, .call head opening items closing, more, more', _, h', apart, _, same => by
    simp only [Item.tokens, List.cons_append, List.nil_append, List.cons.injEq] at same
    exact absurd h'.2.1 (apart opening (by simp [same.2]))
  | .call head opening items closing, .token token, more, more', h, _, _, apart, same => by
    simp only [Item.tokens, List.cons_append, List.nil_append, List.cons.injEq] at same
    exact absurd h.2.1 (apart opening (by simp [← same.2]))
  | .token token, .text opening pieces closing, more, more', h, h', _, _, same => by
    simp only [Item.tokens, List.cons_append, List.nil_append, List.cons.injEq] at same
    simp [Item.Placed, same.1, h'.1, TokenKind.isValue] at h
  | .text opening pieces closing, .token token, more, more', h, h', _, _, same => by
    simp only [Item.tokens, List.cons_append, List.nil_append, List.cons.injEq] at same
    simp [Item.Placed, ← same.1, h.1, TokenKind.isValue] at h'
  | .call head opening items closing, .text opening' pieces closing', more, more', h, h', _, _,
      same => by
    simp only [Item.tokens, List.cons_append, List.cons.injEq] at same
    have kind := h.1
    simp [same.1, h'.1] at kind
  | .text opening pieces closing, .call head opening' items closing', more, more', h, h', _, _,
      same => by
    simp only [Item.tokens, List.cons_append, List.cons.injEq] at same
    have kind := h'.1
    simp [← same.1, h.1] at kind
  | .call head opening items closing, .call head' opening' items' closing', more, more', h, h', _,
      _, same => by
    simp only [Item.tokens, List.cons_append, List.append_assoc, List.cons.injEq] at same
    obtain ⟨rfl, rfl, rest⟩ := same
    obtain ⟨rfl, rest⟩ := itemsPlaced_unique h.2.2.2.2 h'.2.2.2.2 (by simp [GroupEnds, h.2.2.1])
      (by simp [GroupEnds, h'.2.2.1]) rest
    simpa using rest
  | .text opening pieces closing, .text opening' pieces' closing', more, more', h, h', _, _,
      same => by
    simp only [Item.tokens, List.cons_append, List.append_assoc, List.cons.injEq] at same
    obtain ⟨rfl, rest⟩ := same
    obtain ⟨rfl, rest⟩ := piecesPlaced_unique h.2.2 h'.2.2 (by simp [h.2.1]) (by simp [h'.2.1]) rest
    simpa using rest

theorem Piece.Placed.unique : ∀ {piece other : Piece} {more more' : List Token}, piece.Placed →
    other.Placed → piece.tokens ++ more = other.tokens ++ more' → piece = other ∧ more = more'
  | .cut token, .cut other, more, more', _, _, same => by
    simpa [Piece.tokens] using same
  | .cut token, .slot opening items closing, more, more', h, h', same => by
    simp only [Piece.tokens, List.cons_append, List.cons.injEq] at same
    simp [Piece.Placed, same.1, h'.1] at h
  | .slot opening items closing, .cut token, more, more', h, h', same => by
    simp only [Piece.tokens, List.cons_append, List.cons.injEq] at same
    simp [Piece.Placed, ← same.1, h.1] at h'
  | .slot opening items closing, .slot opening' items' closing', more, more', h, h', same => by
    simp only [Piece.tokens, List.cons_append, List.append_assoc, List.cons.injEq] at same
    obtain ⟨rfl, rest⟩ := same
    obtain ⟨rfl, rest⟩ := itemsPlaced_unique h.2.2 h'.2.2 (by simp [GroupEnds, h.2.1])
      (by simp [GroupEnds, h'.2.1]) rest
    simpa using rest

theorem piecesPlaced_unique : ∀ {pieces others : List Piece} {more more' : List Token},
    piecesPlaced pieces → piecesPlaced others →
      (∀ token ∈ more.head?, token.kind = .textClose) →
      (∀ token ∈ more'.head?, token.kind = .textClose) →
        pieceTokens pieces ++ more = pieceTokens others ++ more' → pieces = others ∧ more = more'
  | [], [], more, more', _, _, _, _, same => ⟨rfl, same⟩
  | [], .cut token :: rest, more, more', _, h', closes, _, same => by
    have kind := closes token (by simp [show more = _ from same, pieceTokens, Piece.tokens])
    simp [Piece.Placed, kind, piecesPlaced] at h'
  | [], .slot opening items closing :: rest, more, more', _, h', closes, _, same => by
    have kind := closes opening (by simp [show more = _ from same, pieceTokens, Piece.tokens])
    simp [Piece.Placed, kind, piecesPlaced] at h'
  | .cut token :: rest, [], more, more', h, _, _, closes, same => by
    have kind := closes token (by simp [← show _ = more' from same, pieceTokens, Piece.tokens])
    simp [Piece.Placed, kind, piecesPlaced] at h
  | .slot opening items closing :: rest, [], more, more', h, _, _, closes, same => by
    have kind := closes opening (by simp [← show _ = more' from same, pieceTokens, Piece.tokens])
    simp [Piece.Placed, kind, piecesPlaced] at h
  | piece :: rest, other :: others, more, more', h, h', closes, closes', same => by
    simp only [pieceTokens, List.append_assoc] at same
    obtain ⟨rfl, tail⟩ := h.1.unique h'.1 same
    obtain ⟨rfl, last⟩ := piecesPlaced_unique h.2 h'.2 closes closes' tail
    exact ⟨rfl, last⟩

/-- Lists of items with their brackets in place are told apart by their tokens. -/
theorem itemsPlaced_unique : ∀ {items others : List Item} {more more' : List Token},
    itemsPlaced items → itemsPlaced others → GroupEnds more → GroupEnds more' →
      itemTokens items ++ more = itemTokens others ++ more' → items = others ∧ more = more'
  | [], [], more, more', _, _, _, _, same => ⟨rfl, same⟩
  | [], other :: others, more, more', _, h', closes, _, same => by
    simp only [itemTokens, List.nil_append, List.append_assoc] at same
    exact absurd same (closes.ne_cons h'.1)
  | item :: rest, [], more, more', h, _, _, closes, same => by
    simp only [itemTokens, List.nil_append, List.append_assoc] at same
    exact absurd same.symm (closes.ne_cons h.1)
  | item :: rest, other :: others, more, more', h, h', closes, closes', same => by
    simp only [itemTokens, List.append_assoc] at same
    obtain ⟨rfl, tail⟩ := h.1.unique h'.1 (closes.ne_parenOpen h.2)
      (closes'.ne_parenOpen h'.2) same
    obtain ⟨rfl, last⟩ := itemsPlaced_unique h.2 h'.2 closes closes' tail
    exact ⟨rfl, last⟩

end

/-! ## Lists in lists -/

mutual

/-- The lists of the calls and the slots in an item, at any nesting, in the order in which they
end. -/
def Item.lists : Item → List (List Item)
  | .token _ => []
  | .call _ _ items _ => itemLists items ++ [items]
  | .text _ pieces _ => pieceLists pieces

def Piece.lists : Piece → List (List Item)
  | .cut _ => []
  | .slot _ items _ => itemLists items ++ [items]

def itemLists : List Item → List (List Item)
  | [] => []
  | item :: rest => item.lists ++ itemLists rest

def pieceLists : List Piece → List (List Item)
  | [] => []
  | piece :: rest => piece.lists ++ pieceLists rest

end

@[simp] theorem itemLists_append (front back : List Item) :
    itemLists (front ++ back) = itemLists front ++ itemLists back := by
  induction front with
  | nil => rfl
  | cons item rest ih => simp [itemLists, ih]

@[simp] theorem pieceLists_append (front back : List Piece) :
    pieceLists (front ++ back) = pieceLists front ++ pieceLists back := by
  induction front with
  | nil => rfl
  | cons piece rest ih => simp [pieceLists, ih]

/-- The stray commas of lists of calls and slots. -/
def strayIn (lists : List (List Item)) : List Finding :=
  lists.flatMap fun list => (strayCommas true list).map fun span => ⟨.strayComma, span⟩

@[simp] theorem strayIn_append (front back : List (List Item)) :
    strayIn (front ++ back) = strayIn front ++ strayIn back := List.flatMap_append

@[simp] theorem strayIn_singleton (list : List Item) :
    strayIn [list] = (strayCommas true list).map fun span => ⟨.strayComma, span⟩ :=
  List.flatMap_singleton _ _

/-! ## The layout that grouping finds -/

namespace OpenGroup

def Placed : OpenGroup → Prop
  | .call head opening items =>
    opening.kind = .parenOpen ∧ itemsPlaced items ∧
      ∃ term, head = some term ∧ term.kind = .term ∧ opening.start = term.span.stop
  | .text opening pieces => opening.kind = .textOpen ∧ piecesPlaced pieces
  | .slot opening items => opening.kind = .slotOpen ∧ itemsPlaced items

def lists : OpenGroup → List (List Item)
  | .call _ _ items => itemLists items
  | .text _ pieces => pieceLists pieces
  | .slot _ items => itemLists items

end OpenGroup

namespace Grouping

variable {grouping next : Grouping} {token : Token}

/-- The lists that have ended. -/
def lists (grouping : Grouping) : List (List Item) :=
  itemLists grouping.items ++ grouping.groups.reverse.flatMap OpenGroup.lists

structure Placed (grouping : Grouping) : Prop where
  items : itemsPlaced grouping.items
  groups : ∀ group ∈ grouping.groups, group.Placed

theorem innermost_placed {held : List Item} (h : grouping.Placed)
    (hi : grouping.innermost = .ok held) : itemsPlaced held := by
  obtain ⟨items, groups⟩ := h
  rcases grouping with ⟨_, _ | ⟨_ | _ | _, outer⟩, findings⟩ <;> cases hi
  · exact items
  · exact (List.forall_mem_cons.1 groups).1.2.1
  · exact (List.forall_mem_cons.1 groups).1.2

theorem setInnermost_placed {held : List Item} (h : grouping.Placed) (hs : itemsPlaced held) :
    (grouping.setInnermost held).Placed := by
  obtain ⟨items, groups⟩ := h
  rcases grouping with ⟨_, _ | ⟨_ | _ | _, outer⟩, findings⟩ <;>
    simp only [setInnermost, List.forall_mem_cons] at groups ⊢
  · exact ⟨hs, groups⟩
  · exact ⟨items, List.forall_mem_cons.2 ⟨⟨groups.1.1, hs, groups.1.2.2⟩, groups.2⟩⟩
  · exact ⟨items, List.forall_mem_cons.2 groups⟩
  · exact ⟨items, List.forall_mem_cons.2 ⟨⟨groups.1.1, hs⟩, groups.2⟩⟩

theorem setInnermost_lists {held : List Item} (hi : grouping.innermost = .ok held) :
    ∃ before, ∀ items, (grouping.setInnermost items).lists = before ++ itemLists items := by
  rcases grouping with ⟨root, _ | ⟨⟨head, opening, _⟩ | _ | ⟨opening, _⟩, outer⟩, findings⟩ <;>
    cases hi
  · exact ⟨[], fun items => by simp [setInnermost, lists]⟩
  · refine ⟨itemLists root ++ outer.reverse.flatMap OpenGroup.lists, fun items => ?_⟩
    simp [setInnermost, lists, OpenGroup.lists]
  · refine ⟨itemLists root ++ outer.reverse.flatMap OpenGroup.lists, fun items => ?_⟩
    simp [setInnermost, lists, OpenGroup.lists]

theorem place_adds {items : List Item} (hp : grouping.place items = .ok next) :
    next.lists = grouping.lists ++ itemLists items ∧
      (grouping.Placed → itemsPlaced items → next.Placed) := by
  obtain ⟨held, hi, rfl⟩ := place_cases hp
  obtain ⟨front, lists⟩ := setInnermost_lists hi
  have same := lists held
  rw [setInnermost_self hi] at same
  refine ⟨?_, fun placed more => setInnermost_placed placed ?_⟩
  · rw [lists, same, itemLists_append, List.append_assoc]
  · exact (itemsPlaced_append _ _).2 ⟨innermost_placed placed hi, more⟩

/-- The grouping has laid out what it has read so far, and has found the stray commas of the lists
that have ended. -/
structure Lays (grouping : Grouping) : Prop where
  placed : grouping.Placed
  findings : grouping.findings = strayIn grouping.lists

section

variable (h : Lays grouping)

include h

theorem Lays.place {item : Item} (placed : item.Placed) (none : item.lists = [])
    (hp : grouping.place [item] = .ok next) : Lays next := by
  obtain ⟨lists, keeps⟩ := place_adds hp
  refine ⟨keeps h.placed ⟨placed, trivial⟩, ?_⟩
  simp [place_findings hp, h.findings, lists, itemLists, none]

theorem Lays.openGroup {group : OpenGroup} (placed : group.Placed) (none : group.lists = []) :
    Lays (grouping.openGroup group) := by
  refine ⟨⟨h.placed.items, List.forall_mem_cons.2 ⟨placed, h.placed.groups⟩⟩, ?_⟩
  simp only [Grouping.openGroup, h.findings]
  simp [lists, none]

theorem Lays.closeParen (kind : token.kind = .parenClose)
    (hp : grouping.closeParen token = .ok next)
    (clean : ∀ finding ∈ next.findings, finding.fault.isBracket = false) :
    Lays next := by
  unfold Grouping.closeParen at hp
  split at hp
  · next head opening held outer hg =>
    have groups := h.placed.groups
    rw [hg] at groups
    obtain ⟨⟨opens, inside, term, rfl, isTerm, adjacent⟩, around⟩ := List.forall_mem_cons.1 groups
    obtain ⟨lists, keeps⟩ := place_adds hp
    refine ⟨keeps ⟨h.placed.items, around⟩ ?_, ?_⟩
    · exact ⟨⟨isTerm, opens, kind, adjacent, inside⟩, trivial⟩
    · rw [place_findings hp, lists]
      simp [reportCommas, h.findings, Grouping.lists, hg, OpenGroup.lists, itemLists, Item.lists]
  · cases hp
    have unmatched := clean ⟨.unmatchedParen, token.span⟩ (by simp [report])
    cases unmatched

theorem Lays.closeSlot (kind : token.kind = .slotClose)
    (hp : grouping.closeSlot token = .ok next)
    (clean : ∀ finding ∈ next.findings, finding.fault.isBracket = false) :
    Lays next := by
  obtain ⟨calls, rest, hg, hcalls,
      ⟨_, rfl⟩ | ⟨opening, held, textOpening, pieces, outer, rfl, rfl⟩⟩ :=
    closeSlot_cases hp
  · have unmatched := clean ⟨.unmatchedBrace, token.span⟩ (by simp [report])
    cases unmatched
  · obtain rfl : calls = [] := by
      refine calls_eq_nil hcalls fun finding member => clean finding ?_
      exact List.mem_append_left _ (List.mem_append_right _ member)
    have groups := h.placed.groups
    rw [hg] at groups
    obtain ⟨⟨opens, inside⟩, groups⟩ := List.forall_mem_cons.1 groups
    obtain ⟨⟨text, before⟩, around⟩ := List.forall_mem_cons.1 groups
    refine ⟨⟨h.placed.items, List.forall_mem_cons.2 ⟨⟨text, ?_⟩, around⟩⟩, ?_⟩
    · exact (piecesPlaced_append _ _).2 ⟨before, ⟨opens, kind, inside⟩, trivial⟩
    · simp [reportCommas, h.findings, lists, hg, OpenGroup.lists, pieceLists, Piece.lists]

theorem Lays.addCut (kind : token.kind = .textCut) (hp : grouping.addCut token = .ok next) :
    Lays next := by
  obtain ⟨opening, pieces, outer, hg, rfl⟩ := addCut_cases hp
  have groups := h.placed.groups
  rw [hg] at groups
  obtain ⟨⟨text, before⟩, around⟩ := List.forall_mem_cons.1 groups
  refine ⟨⟨h.placed.items, List.forall_mem_cons.2 ⟨⟨text, ?_⟩, around⟩⟩, ?_⟩
  · exact (piecesPlaced_append _ _).2 ⟨before, kind, trivial⟩
  · simp [h.findings, lists, hg, OpenGroup.lists, pieceLists, Piece.lists]

theorem Lays.closeText (kind : token.kind = .textClose)
    (hp : grouping.closeText token = .ok next) : Lays next := by
  obtain ⟨opening, pieces, outer, hg, hp⟩ := closeText_cases hp
  have groups := h.placed.groups
  rw [hg] at groups
  obtain ⟨⟨text, before⟩, around⟩ := List.forall_mem_cons.1 groups
  obtain ⟨lists, keeps⟩ := place_adds hp
  refine ⟨keeps ⟨h.placed.items, around⟩ ⟨⟨text, kind, before⟩, trivial⟩, ?_⟩
  rw [place_findings hp, lists]
  simp [h.findings, Grouping.lists, hg, OpenGroup.lists, itemLists, Item.lists]

theorem Lays.openCall {previous : Token} (follows : Follows (some previous) grouping)
    (term : previous.kind = .term) (adjacent : token.start = previous.span.stop)
    (kind : token.kind = .parenOpen) (hp : grouping.openCall token = .ok next) :
    Lays next := by
  obtain ⟨held, hi⟩ := follows previous rfl term
  rw [openCall_eq hi term, Except.ok.injEq] at hp
  subst hp
  obtain ⟨front, lists⟩ := setInnermost_lists hi
  have sameLists := lists (held ++ [.token previous])
  rw [setInnermost_self hi] at sameLists
  have inside := (itemsPlaced_append _ _).1 (innermost_placed h.placed hi)
  obtain ⟨items, groups⟩ := setInnermost_placed h.placed inside.1
  refine ⟨⟨items, List.forall_mem_cons.2 ⟨?_, groups⟩⟩, ?_⟩
  · exact ⟨kind, trivial, previous, rfl, term, adjacent⟩
  · have same : ((grouping.setInnermost held).openGroup (.call (some previous) token [])).lists =
        (grouping.setInnermost held).lists := by
      simp [Grouping.lists, Grouping.openGroup, OpenGroup.lists, itemLists]
    rw [same, lists]
    simp [Grouping.openGroup, h.findings, sameLists, itemLists, Item.lists]

theorem Lays.step {previous : Option Token} (follows : Follows previous grouping)
    (adjacent : ∀ last, previous = some last → token.start = last.span.stop)
    (hs : grouping.step previous token = .ok next)
    (clean : ∀ finding ∈ next.findings, finding.fault.isBracket = false) :
    Lays next ∧ Follows (some token) next := by
  have other : token.kind ≠ .term → Follows (some token) next := by
    rintro ne last ⟨⟩ kind
    exact absurd kind ne
  cases kind : token.kind <;> rw [kind] at other <;> simp only [Grouping.step, kind] at hs
  case space | line =>
    cases hs
    exact ⟨h, other (by simp)⟩
  case tab | badEscape | textBrace | unknown => cases hs
  case term | size | decimal | code | comma =>
    refine ⟨h.place ?_ rfl hs, place_token_follows hs⟩
    simp [Item.Placed, kind, TokenKind.isValue]
  case parenOpen =>
    refine ⟨?_, other (by simp)⟩
    split at hs
    · next directly =>
      obtain ⟨term, rfl, isTerm⟩ := (Option.any_eq_true _ _).1 directly
      exact h.openCall follows (of_decide_eq_true isTerm) (adjacent term rfl) kind hs
    · cases hs
      have detached := clean ⟨.detachedParen, token.span⟩ (by simp [report, Grouping.openGroup])
      cases detached
  case parenClose =>
    exact ⟨h.closeParen kind hs clean, other (by simp)⟩
  case textOpen =>
    cases hs
    have placed : OpenGroup.Placed (.text token []) := ⟨kind, trivial⟩
    exact ⟨h.openGroup placed rfl, other (by simp)⟩
  case textCut =>
    exact ⟨h.addCut kind hs, other (by simp)⟩
  case textClose =>
    exact ⟨h.closeText kind hs, other (by simp)⟩
  case slotOpen =>
    refine ⟨?_, other (by simp)⟩
    rw [openSlot_cases hs]
    have placed : OpenGroup.Placed (.slot token []) := ⟨kind, trivial⟩
    exact h.openGroup placed rfl
  case slotClose =>
    exact ⟨h.closeSlot kind hs clean, other (by simp)⟩

end

theorem read_lays {previous : Option Token} {offset : Nat} {tokens : List Token}
    (h : Lays grouping) (follows : Follows previous grouping)
    (adjacent : ∀ last, previous = some last → offset = last.span.stop)
    (contiguous : Contiguous offset tokens) (hr : grouping.read previous tokens = .ok next)
    (clean : ∀ finding ∈ next.findings, finding.fault.isBracket = false) :
    Lays next := by
  induction tokens generalizing grouping previous offset with
  | nil =>
    cases hr
    exact h
  | cons token rest ih =>
    obtain ⟨start, _, contiguous⟩ := contiguous
    obtain ⟨middle, hs, hr⟩ := read_cons hr
    -- Findings are only added, so what the last state does not show no state before it does.
    have earlier : ∀ finding ∈ middle.findings, finding.fault.isBracket = false :=
      fun finding member => clean finding ((read_findings hr).subset member)
    obtain ⟨lays, follows⟩ := h.step follows (fun last same => start.trans (adjacent last same)) hs
      earlier
    exact ih lays follows (by rintro last ⟨⟩; rfl) contiguous hr

/-- A line whose brackets are all in place is laid out whole, and what is found in it are the stray
commas of its calls and slots. -/
theorem ofTokens_lays {tokens : List Token} (unbroken : Unbroken tokens)
    (hr : ofTokens tokens = .ok grouping)
    (clean : ∀ finding ∈ grouping.findings, finding.fault.isBracket = false) :
    itemsPlaced grouping.items ∧ itemTokens grouping.items = content tokens ∧
      grouping.findings = strayIn (itemLists grouping.items) := by
  have kept := ofTokens_keeps hr clean
  obtain ⟨offset, contiguous⟩ := unbroken.contiguous
  obtain ⟨last, hread, calls, rfl⟩ := ofTokens_cases hr
  have none : last.groups = [] :=
    calls_eq_nil calls fun finding member => clean finding (List.mem_append_right _ member)
  have start : Lays initial := ⟨⟨trivial, by simp [initial]⟩, rfl⟩
  have lays := read_lays start (by rintro last ⟨⟩) (by rintro last ⟨⟩) contiguous hread
    fun finding member => clean finding (List.mem_append_left _ member)
  refine ⟨lays.placed.items, kept, ?_⟩
  simpa [lists, none] using lays.findings

end Grouping

end TermOutline
