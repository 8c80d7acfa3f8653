import TermOutline.Proofs.Keeping

/-! # Items and their tokens

A line in which grouping finds nothing is made into items that hold its tokens in order, each once;
and the tokens of such items group into the same items again, whatever spaces lie between them.
-/
namespace TermOutline

mutual

/-- Items as grouping makes them where it finds no fault: brackets of the right kinds, a parenthesis
directly after the term it belongs to, and no stray comma in a call or a slot. -/
def Item.Sound : Item → Prop
  | .token token => token.kind = .term ∨ token.kind.isValue = true ∨ token.kind = .comma
  | .call head opening items closing =>
    head.kind = .term ∧ opening.kind = .parenOpen ∧ closing.kind = .parenClose ∧
      opening.start = head.span.stop ∧ strayCommas true items = [] ∧ itemsSound items
  | .text opening pieces closing =>
    opening.kind = .textOpen ∧ closing.kind = .textClose ∧ piecesSound pieces

def Piece.Sound : Piece → Prop
  | .cut token => token.kind = .textCut
  | .slot opening items closing =>
    opening.kind = .slotOpen ∧ closing.kind = .slotClose ∧ strayCommas true items = [] ∧
      itemsSound items

def itemsSound : List Item → Prop
  | [] => True
  | item :: rest => item.Sound ∧ itemsSound rest

def piecesSound : List Piece → Prop
  | [] => True
  | piece :: rest => piece.Sound ∧ piecesSound rest

end

@[simp] theorem itemsSound_append (front back : List Item) :
    itemsSound (front ++ back) ↔ itemsSound front ∧ itemsSound back := by
  induction front with
  | nil => simp [itemsSound]
  | cons item rest ih => simp [itemsSound, ih, and_assoc]

@[simp] theorem piecesSound_append (front back : List Piece) :
    piecesSound (front ++ back) ↔ piecesSound front ∧ piecesSound back := by
  induction front with
  | nil => simp [piecesSound]
  | cons piece rest ih => simp [piecesSound, ih, and_assoc]

namespace OpenGroup

def Sound : OpenGroup → Prop
  | .call head opening items =>
    opening.kind = .parenOpen ∧ itemsSound items ∧
      ∃ term, head = some term ∧ term.kind = .term ∧ opening.start = term.span.stop
  | .text opening pieces => opening.kind = .textOpen ∧ piecesSound pieces
  | .slot opening items => opening.kind = .slotOpen ∧ itemsSound items

end OpenGroup

namespace Grouping

structure Sound (grouping : Grouping) : Prop where
  items : itemsSound grouping.items
  groups : ∀ group ∈ grouping.groups, group.Sound

theorem innermost_sound {grouping : Grouping} {held : List Item} (h : grouping.Sound)
    (hi : grouping.innermost = .ok held) : itemsSound held := by
  obtain ⟨items, groups⟩ := h
  rcases grouping with ⟨_, _ | ⟨_ | _ | _, outer⟩, findings⟩ <;> cases hi
  · exact items
  · exact (List.forall_mem_cons.1 groups).1.2.1
  · exact (List.forall_mem_cons.1 groups).1.2

theorem setInnermost_sound {grouping : Grouping} {held : List Item} (h : grouping.Sound)
    (hs : itemsSound held) : (grouping.setInnermost held).Sound := by
  obtain ⟨items, groups⟩ := h
  rcases grouping with ⟨_, _ | ⟨_ | _ | _, outer⟩, findings⟩ <;>
    simp only [setInnermost, List.forall_mem_cons] at groups ⊢
  · exact ⟨hs, groups⟩
  · exact ⟨items, List.forall_mem_cons.2 ⟨⟨groups.1.1, hs, groups.1.2.2⟩, groups.2⟩⟩
  · exact ⟨items, List.forall_mem_cons.2 groups⟩
  · exact ⟨items, List.forall_mem_cons.2 ⟨⟨groups.1.1, hs⟩, groups.2⟩⟩

section Steps

variable {grouping next : Grouping} {token : Token}

theorem place_sound {items : List Item} (h : grouping.Sound) (hs : itemsSound items)
    (hp : grouping.place items = .ok next) : next.Sound := by
  obtain ⟨held, hi, rfl⟩ := place_cases hp
  apply setInnermost_sound h
  exact (itemsSound_append _ _).2 ⟨innermost_sound h hi, hs⟩

theorem openGroup_sound {group : OpenGroup} (h : grouping.Sound) (hs : group.Sound) :
    (grouping.openGroup group).Sound :=
  ⟨h.items, List.forall_mem_cons.2 ⟨hs, h.groups⟩⟩

theorem closeParen_sound (h : grouping.Sound) (hk : token.kind = .parenClose)
    (hp : grouping.closeParen token = .ok next) (clean : next.findings = []) : next.Sound := by
  unfold closeParen at hp
  split at hp
  · next head opening held outer hg =>
    have groups := h.groups
    rw [hg] at groups
    obtain ⟨⟨ho, hheld, term, rfl, hterm, adjacent⟩, houter⟩ := List.forall_mem_cons.1 groups
    have quiet : grouping.findings = [] ∧ strayCommas true held = [] := by
      have before := (place_findings hp).symm.trans clean
      simpa [reportCommas] using before
    have closed : Sound ({ grouping with groups := outer }.reportCommas (strayCommas true held)) :=
      ⟨h.items, houter⟩
    refine place_sound closed ?_ hp
    exact ⟨⟨hterm, ho, hk, adjacent, quiet.2, hheld⟩, trivial⟩
  · rw [Except.ok.injEq] at hp
    subst hp
    simp [report] at clean

theorem closeSlot_sound (h : grouping.Sound) (hk : token.kind = .slotClose)
    (hp : grouping.closeSlot token = .ok next) (clean : next.findings = []) : next.Sound := by
  obtain ⟨calls, rest, hg, hcalls,
      ⟨_, rfl⟩ | ⟨opening, held, textOpening, pieces, outer, rfl, rfl⟩⟩ :=
    closeSlot_cases hp
  · simp [report] at clean
  · simp only [reportCommas, List.append_eq_nil_iff, List.map_eq_nil_iff] at clean
    obtain ⟨⟨_, unclosed⟩, commas⟩ := clean
    obtain rfl := calls_eq_nil hcalls (by simp [unclosed])
    have groups := h.groups
    rw [hg] at groups
    obtain ⟨⟨hslot, hheld⟩, groups⟩ := List.forall_mem_cons.1 groups
    obtain ⟨⟨htext, hpieces⟩, houter⟩ := List.forall_mem_cons.1 groups
    refine ⟨h.items, List.forall_mem_cons.2 ⟨⟨htext, ?_⟩, houter⟩⟩
    exact (piecesSound_append _ _).2 ⟨hpieces, ⟨hslot, hk, commas, hheld⟩, trivial⟩

theorem addCut_sound (h : grouping.Sound) (hk : token.kind = .textCut)
    (hp : grouping.addCut token = .ok next) : next.Sound := by
  obtain ⟨opening, pieces, outer, hg, rfl⟩ := addCut_cases hp
  have groups := h.groups
  rw [hg] at groups
  obtain ⟨⟨htext, hpieces⟩, houter⟩ := List.forall_mem_cons.1 groups
  refine ⟨h.items, List.forall_mem_cons.2 ⟨⟨htext, ?_⟩, houter⟩⟩
  exact (piecesSound_append _ _).2 ⟨hpieces, hk, trivial⟩

theorem closeText_sound (h : grouping.Sound) (hk : token.kind = .textClose)
    (hp : grouping.closeText token = .ok next) : next.Sound := by
  obtain ⟨opening, pieces, outer, hg, hp⟩ := closeText_cases hp
  have groups := h.groups
  rw [hg] at groups
  obtain ⟨⟨htext, hpieces⟩, houter⟩ := List.forall_mem_cons.1 groups
  have closed : Sound { grouping with groups := outer } := ⟨h.items, houter⟩
  have text : itemsSound [.text opening pieces token] := ⟨⟨htext, hk, hpieces⟩, trivial⟩
  exact place_sound closed text hp

theorem place_token_follows (hp : grouping.place [.token token] = .ok next) :
    Follows (some token) next := by
  rintro t ⟨⟩ _
  obtain ⟨held, hi, rfl⟩ := place_cases hp
  exact ⟨held, innermost_setInnermost (code_of_innermost hi) _⟩

theorem openParen_sound {previous : Option Token} (h : grouping.Sound)
    (follows : Follows previous grouping)
    (adjacent : ∀ t, previous = some t → token.start = t.span.stop)
    (hk : token.kind = .parenOpen) (hp : grouping.step previous token = .ok next)
    (clean : next.findings = []) : next.Sound := by
  simp only [step, hk] at hp
  split at hp
  · next hprev =>
    obtain ⟨term, rfl, hterm⟩ := (Option.any_eq_true _ _).1 hprev
    rw [decide_eq_true_eq] at hterm
    obtain ⟨held, hheld⟩ := follows term rfl hterm
    rw [openCall_eq hheld hterm, Except.ok.injEq] at hp
    subst hp
    have inside := innermost_sound h hheld
    rw [itemsSound_append] at inside
    refine openGroup_sound (setInnermost_sound h inside.1) ?_
    exact ⟨hk, trivial, term, rfl, hterm, adjacent term rfl⟩
  · rw [Except.ok.injEq] at hp
    subst hp
    simp [openGroup, report] at clean

/-- One step on a token, when nothing is found in it, leaves items as they have to be. -/
theorem step_sound {previous : Option Token} (h : grouping.Sound)
    (follows : Follows previous grouping)
    (adjacent : ∀ t, previous = some t → token.start = t.span.stop)
    (hp : grouping.step previous token = .ok next) (clean : next.findings = []) :
    next.Sound ∧ Follows (some token) next := by
  have other : token.kind ≠ .term → Follows (some token) next := by
    rintro ne t ⟨⟩ hk
    exact absurd hk ne
  cases hk : token.kind <;> rw [hk] at other
  case parenOpen => exact ⟨openParen_sound h follows adjacent hk hp clean, other (by simp)⟩
  all_goals simp only [step, hk] at hp
  case space | line =>
    cases hp
    exact ⟨h, other (by simp)⟩
  case tab | badEscape | textBrace | unknown => cases hp
  case term | size | decimal | code | comma =>
    have word : itemsSound [.token token] :=
      ⟨by simp [Item.Sound, hk, TokenKind.isValue], trivial⟩
    exact ⟨place_sound h word hp, place_token_follows hp⟩
  case parenClose => exact ⟨closeParen_sound h hk hp clean, other (by simp)⟩
  case slotClose => exact ⟨closeSlot_sound h hk hp clean, other (by simp)⟩
  case textOpen =>
    refine ⟨?_, other (by simp)⟩
    cases hp
    exact openGroup_sound h ⟨hk, trivial⟩
  case textCut => exact ⟨addCut_sound h hk hp, other (by simp)⟩
  case textClose => exact ⟨closeText_sound h hk hp, other (by simp)⟩
  case slotOpen =>
    refine ⟨?_, other (by simp)⟩
    rw [openSlot_cases hp]
    exact openGroup_sound h ⟨hk, trivial⟩

end Steps

theorem read_sound {grouping last : Grouping} {previous : Option Token} {offset : Nat}
    {tokens : List Token} (h : grouping.Sound) (follows : Follows previous grouping)
    (adjacent : ∀ t, previous = some t → offset = t.span.stop)
    (contiguous : Contiguous offset tokens) (hr : grouping.read previous tokens = .ok last)
    (clean : last.findings = []) : last.Sound := by
  induction tokens generalizing grouping previous offset with
  | nil =>
    cases hr
    exact h
  | cons token rest ih =>
    obtain ⟨start, _, contiguous⟩ := contiguous
    obtain ⟨next, hs, hr⟩ := read_cons hr
    have quiet : next.findings = [] := List.prefix_nil.1 (clean ▸ read_findings hr)
    obtain ⟨sound, follows⟩ := step_sound h follows
      (fun t ht => start.trans (adjacent t ht)) hs quiet
    exact ih sound follows (by rintro t ⟨⟩; rfl) contiguous hr

/-- Where grouping finds nothing, its items are made of the line's tokens, each used once. -/
theorem ofTokens_conserves {tokens : List Token} {grouping : Grouping} (h : Unbroken tokens)
    (hr : ofTokens tokens = .ok grouping) (clean : grouping.findings = []) :
    itemsSound grouping.items ∧ itemTokens grouping.items = content tokens := by
  have kept := ofTokens_keeps hr (by simp [clean])
  obtain ⟨offset, contiguous⟩ := h.contiguous
  obtain ⟨last, hread, _, rfl⟩ := ofTokens_cases hr
  have start : initial.Sound := ⟨trivial, by simp [initial]⟩
  have sound := read_sound start (by rintro t ⟨⟩) (by rintro t ⟨⟩) contiguous hread
    (List.append_eq_nil_iff.1 clean).1
  exact ⟨sound.items, kept⟩

end Grouping

theorem content_cons {tokens : List Token} {token : Token} {others : List Token}
    (h : content tokens = token :: others) :
    ∃ lead rest, tokens = lead ++ token :: rest ∧ content lead = [] ∧ content rest = others := by
  obtain ⟨lead, rest, rfl, hl, _, hr⟩ := List.filter_eq_cons_iff.1 h
  exact ⟨lead, rest, rfl, List.filter_eq_nil_iff.2 hl, hr⟩

theorem content_append_split {tokens front back : List Token}
    (h : content tokens = front ++ back) :
    ∃ left right, tokens = left ++ right ∧ content left = front ∧ content right = back :=
  List.filter_eq_append_iff.1 h

theorem contiguous_start_lt {offset : Nat} {front rest : List Token} {token : Token}
    (h : Contiguous offset (front ++ token :: rest)) (ne : front ≠ []) : offset < token.start := by
  have place := (contiguous_append_iff.1 h).2.1
  obtain ⟨first, others, rfl⟩ := List.exists_cons_of_ne_nil ne
  have size := byteLength_pos h.2.1
  rw [List.flatMap_cons, Source.byteLength_append] at place
  omega

namespace Grouping

theorem read_append {grouping next : Grouping} {previous : Option Token} {front : List Token}
    (h : grouping.read previous front = .ok next) (back : List Token) :
    grouping.read previous (front ++ back) = next.read (front.getLast?.or previous) back := by
  induction front generalizing grouping previous with
  | nil =>
    rw [read, Except.ok.injEq] at h
    subst h
    rfl
  | cons token rest ih =>
    obtain ⟨middle, hs, hr⟩ := read_cons h
    have last : (token :: rest).getLast?.or previous = rest.getLast?.or (some token) := by
      rw [List.getLast?_cons]
      cases rest.getLast? <;> rfl
    rw [List.cons_append, read, hs, last]
    exact ih hr

theorem read_trivia {tokens : List Token} (h : content tokens = []) (grouping : Grouping)
    (previous : Option Token) : grouping.read previous tokens = .ok grouping := by
  induction tokens generalizing previous with
  | nil => rfl
  | cons token rest ih =>
    have ⟨first, others⟩ := List.forall_mem_cons.1 (List.filter_eq_nil_iff.1 h)
    have same : grouping.step previous token = .ok grouping := by
      cases hk : token.kind <;> simp_all [step, Token.isTrivia, TokenKind.isTrivia]
    rw [read, same]
    exact ih (List.filter_eq_nil_iff.2 others) (some token)

theorem read_lead {grouping next : Grouping} {previous : Option Token} {lead rest : List Token}
    {token : Token} (hl : content lead = [])
    (hs : ∀ previous, grouping.step previous token = .ok next) :
    grouping.read previous (lead ++ token :: rest) = next.read (some token) rest := by
  rw [read_append (read_trivia hl grouping previous), read, hs]
  rfl

theorem read_token {grouping : Grouping} {held : List Item} {token : Token} {tokens : List Token}
    (hs : Item.Sound (.token token)) (hi : grouping.innermost = .ok held)
    (hc : content tokens = [token]) (previous : Option Token) :
    grouping.read previous tokens = .ok (grouping.setInnermost (held ++ [.token token])) := by
  obtain ⟨lead, trail, rfl, hl, ht⟩ := content_cons hc
  have placed : ∀ previous, grouping.step previous token =
      .ok (grouping.setInnermost (held ++ [.token token])) := by
    intro previous
    rw [← place_eq hi]
    cases hk : token.kind <;> simp_all [Item.Sound, step, TokenKind.isValue]
  rw [read_lead hl placed]
  exact read_trivia ht _ _

theorem read_group {grouping opened filled next : Grouping} {opening closing : Token}
    {tokens inside : List Token} {offset : Nat}
    (hc : content tokens = opening :: (inside ++ [closing])) (contiguous : Contiguous offset tokens)
    (first : ∀ previous, grouping.step previous opening = .ok opened)
    (second : ∀ {inner : List Token} {offset : Nat}, content inner = inside →
      Contiguous offset inner → opened.read (some opening) inner = .ok filled)
    (third : ∀ previous, filled.step previous closing = .ok next) (previous : Option Token) :
    grouping.read previous tokens = .ok next := by
  obtain ⟨lead, rest, rfl, hl, hopen⟩ := content_cons hc
  obtain ⟨inner, close, rfl, hinner, hclose⟩ := content_append_split hopen
  obtain ⟨space, trail, rfl, hs, ht⟩ := content_cons hclose
  obtain ⟨_, contiguous⟩ := contiguous_append_iff.1 contiguous
  have inside := second hinner (contiguous_append_iff.1 contiguous.2.2).1
  rw [read_lead hl first, read_append inside, read_lead hs third]
  exact read_trivia ht _ _

mutual

/-- Grouping reads back the tokens of a sound item, with any trivia between them that leaves its
calls together. -/
theorem read_item : ∀ (item : Item), item.Sound → ∀ {grouping : Grouping} {held : List Item}
    {offset : Nat} {tokens : List Token}, grouping.innermost = .ok held →
    content tokens = item.tokens → Contiguous offset tokens → ∀ previous,
    grouping.read previous tokens = .ok (grouping.setInnermost (held ++ [item]))
  | .token token, hs, grouping, held, offset, tokens, hi, hc, contiguous, previous =>
    read_token hs hi hc previous
  | .call head opening items closing, hs, grouping, held, offset, tokens, hi, hc, contiguous,
      previous => by
    obtain ⟨hh, ho, hcl, adjacent, commas, sound⟩ := hs
    obtain ⟨lead, afterLead, rfl, hl, hhead⟩ := content_cons hc
    obtain ⟨gap, afterGap, rfl, _, hopen⟩ := content_cons hhead
    obtain ⟨_, contiguous⟩ := contiguous_append_iff.1 contiguous
    have together : gap = [] := by
      by_contra ne
      have := contiguous_start_lt contiguous.2.2 ne
      omega
    subst together
    obtain ⟨inner, close, rfl, hinner, hclose⟩ := content_append_split hopen
    obtain ⟨space, trail, rfl, hspace, htrail⟩ := content_cons hclose
    have code := code_of_innermost hi
    have first : ∀ previous, grouping.step previous head =
        .ok (grouping.setInnermost (held ++ [.token head])) := by
      intro previous
      rw [← place_eq hi, step, hh]
    have second : (grouping.setInnermost (held ++ [.token head])).step (some head) opening =
        .ok (grouping.openGroup (.call (some head) opening [])) := by
      rw [step, ho]
      simp only [Option.any_some, hh, decide_true, if_true]
      rw [openCall_eq (innermost_setInnermost code _) hh, setInnermost_setInnermost,
        setInnermost_self hi]
    have inside : (grouping.openGroup (.call (some head) opening [])).innermost = .ok [] := rfl
    have third := read_items items sound inside hinner
      (contiguous_append_iff.1 contiguous.2.2.2.2).1
      (some opening)
    have fourth : ∀ previous, (grouping.openGroup (.call (some head) opening items)).step previous
        closing = .ok (grouping.setInnermost (held ++ [.call head opening items closing])) := by
      intro previous
      rw [step, hcl]
      simp only [closeParen, openGroup, commas, reportCommas, List.map_nil, List.append_nil]
      exact place_eq hi _
    rw [read_lead hl first, List.nil_append, read, second]
    change read (some opening) _ _ = _
    rw [read_append third]
    exact (read_lead hspace fourth).trans (read_trivia htrail _ _)
  | .text opening pieces closing, hs, grouping, held, offset, tokens, hi, hc, contiguous,
      previous => by
    obtain ⟨ho, hcl, sound⟩ := hs
    have first : ∀ previous, grouping.step previous opening =
        .ok (grouping.openGroup (.text opening [])) := by
      intro previous
      rw [step, ho]
    have inside : (grouping.openGroup (.text opening [])).groups =
        .text opening [] :: grouping.groups := rfl
    have third : ∀ previous, (grouping.openGroup (.text opening pieces)).step previous closing =
        .ok (grouping.setInnermost (held ++ [.text opening pieces closing])) := by
      intro previous
      rw [step, hcl]
      exact place_eq hi _
    refine read_group hc contiguous first ?_ third previous
    intro inner start hinner together
    exact read_pieces pieces sound inside hinner together (some opening)

theorem read_piece : ∀ (piece : Piece), piece.Sound → ∀ {grouping : Grouping} {opening : Token}
    {pieces : List Piece} {outer : List OpenGroup} {offset : Nat} {tokens : List Token},
    grouping.groups = .text opening pieces :: outer →
    content tokens = piece.tokens → Contiguous offset tokens → ∀ previous,
    grouping.read previous tokens =
      .ok { grouping with groups := .text opening (pieces ++ [piece]) :: outer }
  | .cut token, hs, grouping, opening, pieces, outer, offset, tokens, hg, hc, contiguous,
      previous => by
    obtain ⟨lead, trail, rfl, hl, ht⟩ := content_cons hc
    have first : ∀ previous, grouping.step previous token =
        .ok { grouping with groups := .text opening (pieces ++ [.cut token]) :: outer } := by
      intro previous
      rw [step, show token.kind = .textCut from hs]
      simp only [addCut, hg]
    rw [read_lead hl first]
    exact read_trivia ht _ _
  | .slot slotOpening items closing, hs, grouping, opening, pieces, outer, offset, tokens, hg, hc,
      contiguous, previous => by
    obtain ⟨ho, hcl, commas, sound⟩ := hs
    have first : ∀ previous, grouping.step previous slotOpening =
        .ok (grouping.openGroup (.slot slotOpening [])) := by
      intro previous
      rw [step, ho]
      simp only [openSlot, hg]
    have inside : (grouping.openGroup (.slot slotOpening [])).innermost = .ok [] := rfl
    have third : ∀ previous, (grouping.openGroup (.slot slotOpening items)).step previous closing =
        .ok { grouping with
          groups := .text opening (pieces ++ [.slot slotOpening items closing]) :: outer } := by
      intro previous
      rw [step, hcl]
      simp [closeSlot, callsInSlot?, openGroup, hg, OpenGroup.isCall, OpenGroup.isSlot, commas,
        reportCommas]
    refine read_group hc contiguous first ?_ third previous
    intro inner start hinner together
    exact read_items items sound inside hinner together (some slotOpening)

theorem read_pieces : ∀ (more : List Piece), piecesSound more → ∀ {grouping : Grouping}
    {opening : Token} {pieces : List Piece} {outer : List OpenGroup} {offset : Nat}
    {tokens : List Token}, grouping.groups = .text opening pieces :: outer →
    content tokens = pieceTokens more → Contiguous offset tokens → ∀ previous,
    grouping.read previous tokens =
      .ok { grouping with groups := .text opening (pieces ++ more) :: outer }
  | [], _, grouping, opening, pieces, outer, offset, tokens, hg, hc, contiguous, previous => by
    rw [read_trivia hc, List.append_nil, ← hg]
  | piece :: rest, hs, grouping, opening, pieces, outer, offset, tokens, hg, hc, contiguous,
      previous => by
    obtain ⟨left, right, rfl, hl, hr⟩ := content_append_split hc
    obtain ⟨cl, cr⟩ := contiguous_append_iff.1 contiguous
    rw [read_append (read_piece piece hs.1 hg hl cl previous), read_pieces rest hs.2 rfl hr cr,
      List.append_assoc, List.singleton_append]

theorem read_items : ∀ (items : List Item), itemsSound items → ∀ {grouping : Grouping}
    {held : List Item} {offset : Nat} {tokens : List Token}, grouping.innermost = .ok held →
    content tokens = itemTokens items → Contiguous offset tokens → ∀ previous,
    grouping.read previous tokens = .ok (grouping.setInnermost (held ++ items))
  | [], _, grouping, held, offset, tokens, hi, hc, contiguous, previous => by
    rw [read_trivia hc, List.append_nil, setInnermost_self hi]
  | item :: rest, hs, grouping, held, offset, tokens, hi, hc, contiguous, previous => by
    obtain ⟨left, right, rfl, hl, hr⟩ := content_append_split hc
    obtain ⟨cl, cr⟩ := contiguous_append_iff.1 contiguous
    rw [read_append (read_item item hs.1 hi hl cl previous),
      read_items rest hs.2 (innermost_setInnermost (code_of_innermost hi) _) hr cr,
      setInnermost_setInnermost, List.append_assoc, List.singleton_append]

end

theorem ofTokens_items {items : List Item} (sound : itemsSound items) {tokens : List Token}
    (h : content tokens = itemTokens items) {offset : Nat} (contiguous : Contiguous offset tokens) :
    ofTokens tokens = .ok ⟨items, [], []⟩ := by
  have root : initial.innermost = .ok [] := rfl
  rw [ofTokens, read_items items sound root h contiguous none]
  rfl

end Grouping

end TermOutline
