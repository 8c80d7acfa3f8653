import TermOutline.Tree.Build

/-! # Events and nests

The nests that lines stand for, defined by recursion on items and as a fold over lines. The builder
writes them down as events, start and end of every branch in place, whatever markers are still open
around them; it fails on none.
-/
namespace TermOutline

mutual

/-- What an item puts into its nest: a call puts its parts there, a text is one node. -/
def Item.elements : Item → List Element
  | .token token => [.token token]
  | .call head opening items closing =>
    let (chain, others) := chains items
    .token head :: .token opening :: (chain ++ others ++ [.token closing])
  | .text opening pieces closing =>
    [.node .text (.token opening :: (pieceElements pieces ++ [.token closing]))]

def Piece.element : Piece → Element
  | .cut token => .token token
  | .slot opening items closing =>
    let (chain, others) := chains items
    .node .slot (.token opening :: (chain ++ others ++ [.token closing]))

def pieceElements : List Piece → List Element
  | [] => []
  | piece :: rest => piece.element :: pieceElements rest

/-- The nest of the first chain of a list, if the chain has any item, and what comes after it. -/
def chains : List Item → List Element × List Element
  | [] => ([], [])
  | item :: rest =>
    let (chain, others) := chains rest
    match item.comma? with
    | some comma => ([], .token comma :: (chain ++ others))
    | none => ([.node .nest (item.elements ++ chain)], others)

end

/-- The nests and commas of a list of items. -/
def listElements (items : List Item) : List Element :=
  (chains items).1 ++ (chains items).2

/-- What the items of a line put into its nest. -/
def lineElements : List Item → List Element
  | [] => []
  | head :: rest => head.elements ++ listElements rest

/-- Puts a line before the nests of the lines after it. Those that are deeper become its
children. -/
def nestLine (line : ClampedLine) (after : List (Nat × Element)) : List (Nat × Element) :=
  let deeper (entry : Nat × Element) : Bool := decide (line.depth < entry.1)
  let children := (after.takeWhile deeper).map Prod.snd
  (line.depth, .node .nest (lineElements line.line.items ++ children)) :: after.dropWhile deeper

/-- The nests of the outermost lines. -/
def nestLines (lines : List ClampedLine) : List Element :=
  (lines.foldr nestLine []).map Prod.snd

mutual

def Element.events : Element → List Event
  | .token token => [.token token.kind]
  | .node kind children => .start (.node kind) :: (elementEvents children ++ [.finish])

def elementEvents : List Element → List Event
  | [] => []
  | element :: rest => element.events ++ elementEvents rest

end

@[simp] theorem elementEvents_append (front back : List Element) :
    elementEvents (front ++ back) = elementEvents front ++ elementEvents back := by
  induction front with
  | nil => rfl
  | cons element rest ih => simp [elementEvents, ih]

mutual

/-- Items whose terms, brackets and cuts are of the right kinds. -/
def Item.Kinded : Item → Prop
  | .token _ => True
  | .call head opening items closing =>
    head.kind = .term ∧ opening.kind = .parenOpen ∧ closing.kind = .parenClose ∧ itemsKinded items
  | .text opening pieces closing =>
    opening.kind = .textOpen ∧ closing.kind = .textClose ∧ piecesKinded pieces

def Piece.Kinded : Piece → Prop
  | .cut token => token.kind = .textCut
  | .slot opening items closing =>
    opening.kind = .slotOpen ∧ closing.kind = .slotClose ∧ itemsKinded items

def itemsKinded : List Item → Prop
  | [] => True
  | item :: rest => item.Kinded ∧ itemsKinded rest

def piecesKinded : List Piece → Prop
  | [] => True
  | piece :: rest => piece.Kinded ∧ piecesKinded rest

end

namespace Builder

/-- The builder with events behind those it has. -/
def extend (builder : Builder) (events : List Event) : Builder :=
  { builder with events := builder.events ++ events.toArray }

@[simp] theorem extend_extend (builder : Builder) (front back : List Event) :
    (builder.extend front).extend back = builder.extend (front ++ back) := by
  simp [extend]

@[simp] theorem extend_nil (builder : Builder) : builder.extend [] = builder := by
  simp [extend]

theorem push_eq_extend (builder : Builder) (event : Event) :
    builder.push event = builder.extend [event] := by
  simp [extend, push]

theorem start_eq_extend (builder : Builder) : builder.start = builder.extend [.placeholder] :=
  push_eq_extend builder _

theorem token_eq_extend (builder : Builder) (kind : TokenKind) :
    builder.token kind = builder.extend [.token kind] := push_eq_extend builder _

/-- A marker finds the placeholder it was made for, behind which anything may have been written. -/
theorem complete_marker (builder : Builder) (branch : Branch) (events : List Event) :
    (builder.extend (.placeholder :: events)).complete builder.marker branch =
      .ok (builder.extend (.start branch :: (events ++ [.finish]))) := by
  obtain ⟨before, lines⟩ := builder
  have found : (before ++ (Event.placeholder :: events).toArray)[before.size]? =
      some .placeholder := by
    rw [Array.getElem?_append_right (Nat.le_refl _)]
    simp
  simp only [complete, marker, extend, found, Except.ok.injEq, Builder.mk.injEq, and_true]
  apply Array.toList_inj.1
  simp

end Builder

theorem comma?_eq_some {item : Item} {comma : Token} (h : item.comma? = some comma) :
    item = .token comma ∧ comma.kind = .comma := by
  cases item with
  | token t =>
    simp only [Item.comma?] at h
    split at h
    · cases h
      exact ⟨rfl, by assumption⟩
    · cases h
  | call => cases h
  | text => cases h

namespace Builder

theorem completeNests_cons (builder : Builder) (marker : Marker) (markers : List Marker) :
    builder.completeNests (marker :: markers) =
      (builder.complete marker (.node .nest)).bind fun next => next.completeNests markers := by
  simp only [completeNests, List.foldlM_cons]
  rfl

mutual

theorem addItem_eq : ∀ (item : Item), item.Kinded → ∀ (builder : Builder),
    builder.addItem item = .ok (builder.extend (elementEvents item.elements))
  | .token token, _, builder => by
    simp [addItem, token_eq_extend, Item.elements, elementEvents, Element.events]
  | .call head opening items closing, h, builder => by
    obtain ⟨hh, ho, hc, hi⟩ := h
    simp only [addItem, addList_eq items hi, bind, Except.bind, pure, Except.pure, completeNests,
      List.foldlM_nil, token_eq_extend, extend_extend]
    simp [Item.elements, elementEvents, Element.events, hh, ho, hc]
  | .text opening pieces closing, h, builder => by
    obtain ⟨ho, hc, hp⟩ := h
    simp only [addItem, addPieces_eq pieces hp, bind, Except.bind, start_eq_extend, token_eq_extend,
      extend_extend, List.cons_append, List.nil_append]
    rw [complete_marker]
    simp [Item.elements, elementEvents, Element.events, ho, hc]

theorem addPiece_eq : ∀ (piece : Piece), piece.Kinded → ∀ (builder : Builder),
    builder.addPiece piece = .ok (builder.extend piece.element.events)
  | .cut token, h, builder => by
    simp [addPiece, token_eq_extend, Piece.element, Element.events,
      show token.kind = .textCut from h]
  | .slot opening items closing, h, builder => by
    obtain ⟨ho, hc, hi⟩ := h
    simp only [addPiece, addList_eq items hi, bind, Except.bind, pure, Except.pure, completeNests,
      List.foldlM_nil, start_eq_extend, token_eq_extend, extend_extend, List.append_assoc,
      List.cons_append, List.nil_append]
    rw [complete_marker]
    simp [Piece.element, elementEvents, Element.events, ho, hc]

theorem addPieces_eq : ∀ (pieces : List Piece), piecesKinded pieces → ∀ (builder : Builder),
    builder.addPieces pieces = .ok (builder.extend (elementEvents (pieceElements pieces)))
  | [], _, builder => by simp [addPieces, pieceElements, elementEvents]
  | piece :: rest, h, builder => by
    simp only [addPieces, addPiece_eq piece h.1, addPieces_eq rest h.2, bind, Except.bind,
      extend_extend]
    simp [pieceElements, elementEvents]

/-- The rest of a chain goes into its open nests before they are completed, and what follows the
chain goes behind them. -/
theorem addList_eq : ∀ (items : List Item), itemsKinded items → ∀ (builder : Builder)
    (chain : List Marker), builder.addList chain items =
      ((builder.extend (elementEvents (chains items).1)).completeNests chain).bind fun next =>
        .ok (next.extend (elementEvents (chains items).2))
  | [], _, builder, chain => by
    simp only [addList, chains, elementEvents, extend_nil]
    cases builder.completeNests chain <;> rfl
  | item :: rest, h, builder, chain => by
    cases hc : item.comma? with
    | some comma =>
      have kind : comma.kind = .comma := (comma?_eq_some hc).2
      simp only [addList, Item.isComma, hc, Option.isSome_some, if_true, addList_eq rest h.2,
        chains, elementEvents, extend_nil]
      cases builder.completeNests chain with
      | error breach => rfl
      | ok next =>
        simp [bind, Except.bind, pure, Except.pure, completeNests, token_eq_extend, Element.events,
          kind]
    | none =>
      simp only [addList, Item.isComma, hc, Option.isSome_none, Bool.false_eq_true, if_false,
        addItem_eq item h.1, bind, Except.bind, addList_eq rest h.2, chains, completeNests_cons,
        start_eq_extend, extend_extend, List.cons_append, List.nil_append]
      rw [complete_marker]
      simp [elementEvents, Element.events]

end

theorem addList_nil {items : List Item} (h : itemsKinded items) (builder : Builder) :
    builder.addList [] items = .ok (builder.extend (elementEvents (listElements items))) := by
  rw [addList_eq items h]
  simp [completeNests, Except.bind, pure, Except.pure, listElements]

end Builder

/-- Lines that the builder can write down. -/
def Line.Kinded (line : Line) : Prop := line.items ≠ [] ∧ itemsKinded line.items

namespace Builder

def withLines (builder : Builder) (lines : List Marker) : Builder := { builder with lines := lines }

theorem complete_withLines (builder : Builder) (lines : List Marker) (marker : Marker)
    (branch : Branch) : (builder.withLines lines).complete marker branch =
      (builder.complete marker branch).map fun next => next.withLines lines := by
  simp only [complete, withLines]
  split <;> rfl

theorem completeNests_withLines (builder : Builder) (lines markers : List Marker) :
    (builder.withLines lines).completeNests markers =
      (builder.completeNests markers).map fun next => next.withLines lines := by
  induction markers generalizing builder with
  | nil => rfl
  | cons marker markers ih =>
    rw [completeNests_cons, completeNests_cons, complete_withLines]
    cases builder.complete marker (.node .nest) with
    | error breach => rfl
    | ok next => exact ih next

/-- Completes open lines from the innermost one on, each behind the nests that are deeper than
it. -/
def drain (builder : Builder) : List Marker → List (Nat × Element) → Except Breach Builder
  | [], after => .ok (builder.extend (elementEvents (after.map Prod.snd)))
  | marker :: outer, after => do
    let deeper (entry : Nat × Element) : Bool := decide (outer.length < entry.1)
    let children := (after.takeWhile deeper).map Prod.snd
    let builder ← (builder.extend (elementEvents children)).complete marker (.node .nest)
    drain builder outer (after.dropWhile deeper)

theorem drain_nil (builder : Builder) (markers : List Marker) :
    builder.drain markers [] = builder.completeNests markers := by
  induction markers generalizing builder with
  | nil => simp [drain, elementEvents, completeNests, pure, Except.pure]
  | cons marker outer ih =>
    simp only [drain, List.takeWhile_nil, List.map_nil, elementEvents, extend_nil,
      List.dropWhile_nil, completeNests_cons]
    cases builder.complete marker (.node .nest) with
    | error breach => rfl
    | ok next => exact ih next

/-- A nest completes the open lines that are no shallower than itself. -/
theorem drain_close (builder : Builder) (markers : List Marker) (depth : Nat) (element : Element)
    (after : List (Nat × Element)) : builder.drain markers ((depth, element) :: after) =
      (builder.completeNests (markers.take (markers.length - depth))).bind fun next =>
        next.drain (markers.drop (markers.length - depth)) ((depth, element) :: after) := by
  induction markers generalizing builder with
  | nil => simp [completeNests, pure, Except.pure, Except.bind]
  | cons marker outer ih =>
    by_cases h : outer.length < depth
    · have none : (marker :: outer).length - depth = 0 := by
        simp only [List.length_cons]
        omega
      rw [none]
      rfl
    · have more : (marker :: outer).length - depth = outer.length - depth + 1 := by
        simp only [List.length_cons]
        omega
      rw [more, List.take_succ_cons, List.drop_succ_cons, completeNests_cons]
      simp only [drain, List.takeWhile_cons, List.dropWhile_cons, h, decide_false,
        Bool.false_eq_true, if_false, List.map_nil, elementEvents, extend_nil]
      cases builder.complete marker (.node .nest) with
      | error breach => rfl
      | ok next => exact ih next

theorem drain_cons {builder : Builder} {markers : List Marker} {depth : Nat}
    (h : markers.length ≤ depth) (element : Element) (after : List (Nat × Element)) :
    builder.drain markers ((depth, element) :: after) =
      (builder.extend element.events).drain markers after := by
  cases markers with
  | nil => simp [drain, elementEvents]
  | cons marker outer =>
    have deeper : outer.length < depth := by
      simp only [List.length_cons] at h
      omega
    simp [drain, deeper, elementEvents]

theorem addLine_eq {line : Line} (h : line.Kinded) (maxDepth : Nat) (builder : Builder) :
    builder.addLine maxDepth line =
      (builder.closeLines (min line.depth (min builder.lines.length maxDepth))).bind fun closed =>
        .ok ((closed.extend (.placeholder :: elementEvents (lineElements line.items))).withLines
          (closed.marker :: closed.lines)) := by
  obtain ⟨ne, kinded⟩ := h
  simp only [addLine]
  cases hi : line.items with
  | nil => exact absurd hi ne
  | cons head rest =>
    rw [hi] at kinded
    cases builder.closeLines (min line.depth (min builder.lines.length maxDepth)) with
    | error breach => rfl
    | ok closed =>
      simp [bind, Except.bind, pure, Except.pure, addItem_eq head kinded.1, addList_nil kinded.2,
        start_eq_extend, withLines, extend, lineElements]

theorem closeLines_eq (builder : Builder) (depth : Nat) :
    builder.closeLines depth =
      (builder.completeNests (builder.lines.take (builder.lines.length - depth))).bind fun next =>
        .ok (next.withLines (builder.lines.drop (builder.lines.length - depth))) := rfl

/-- The builder puts the nests of lines behind the open lines they belong to. -/
theorem addLines_eq (maxDepth : Nat) {lines : List Line} (h : ∀ line ∈ lines, line.Kinded)
    (builder : Builder) :
    ((lines.foldlM (addLine maxDepth) builder).bind fun last => last.closeLines 0) =
      (builder.withLines []).drain builder.lines
        ((clampDepths maxDepth (min builder.lines.length maxDepth) lines).foldr nestLine []) := by
  induction lines generalizing builder with
  | nil =>
    simp only [List.foldlM_nil, clampDepths, List.foldr_nil, drain_nil, completeNests_withLines]
    simp only [pure, Except.pure, Except.bind, closeLines_eq, Nat.sub_zero, List.take_length,
      List.drop_length]
    cases builder.completeNests builder.lines <;> rfl
  | cons line rest ih =>
    have ⟨first, others⟩ := List.forall_mem_cons.1 h
    rw [List.foldlM_cons, addLine_eq first, closeLines_eq, clampDepths, List.foldr_cons, nestLine]
    dsimp only
    generalize hd : min line.depth (min builder.lines.length maxDepth) = depth
    generalize ha : (clampDepths maxDepth (min (depth + 1) maxDepth) rest).foldr nestLine [] = after
    have remaining : (builder.lines.drop (builder.lines.length - depth)).length = depth := by
      rw [List.length_drop]
      omega
    rw [drain_close, completeNests_withLines]
    generalize builder.lines.drop (builder.lines.length - depth) = outer at remaining
    cases builder.completeNests (builder.lines.take (builder.lines.length - depth)) with
    | error breach => rfl
    | ok closed =>
      let opened := closed.extend (.placeholder :: elementEvents (lineElements line.items))
      let next := opened.withLines (closed.marker :: outer)
      have limit : min next.lines.length maxDepth = min (depth + 1) maxDepth := by
        simp [next, withLines, remaining]
      change ((rest.foldlM (addLine maxDepth) next).bind fun last => last.closeLines 0) =
        (closed.withLines []).drain outer _
      rw [ih others next, limit, ha, drain_cons (Nat.le_of_eq remaining)]
      generalize hb : closed.withLines [] = base
      have written : next.withLines [] =
          base.extend (.placeholder :: elementEvents (lineElements line.items)) := by
        rw [← hb]
        rfl
      have marked : next.lines = base.marker :: outer := by
        rw [← hb]
        rfl
      rw [written, marked, drain]
      simp only [remaining, extend_extend, List.cons_append]
      rw [complete_marker]
      simp [bind, Except.bind, Element.events]

/-- The events of lines are those of their nests, between the start and the end of the root. -/
theorem build_eq (maxDepth : Nat) {lines : List Line} (h : ∀ line ∈ lines, line.Kinded) :
    build maxDepth lines = .ok (.start .root ::
      (elementEvents (nestLines (clampDepths maxDepth 0 lines)) ++ [.finish])).toArray := by
  have all := addLines_eq maxDepth h (empty.extend [.placeholder])
  have none : (empty.extend [.placeholder]).lines = [] := rfl
  rw [none, List.length_nil, Nat.zero_min, drain] at all
  simp only [build, start_eq_extend, bind, Except.bind] at all ⊢
  cases written : lines.foldlM (addLine maxDepth) (empty.extend [.placeholder]) with
  | error breach =>
    rw [written] at all
    cases all
  | ok last =>
    rw [written] at all
    dsimp only at all ⊢
    have base : (empty.extend [.placeholder]).withLines [] = empty.extend [.placeholder] := rfl
    rw [all, base, extend_extend, List.singleton_append]
    dsimp only
    rw [complete_marker]
    simp [pure, Except.pure, extend, empty, nestLines]

end Builder

end TermOutline
