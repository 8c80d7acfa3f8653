import TermOutline.Proofs.Conservation

/-! # Where findings are

Grouping holds no other tokens than those it has read, and everything it finds stands at one of
them. So every finding in a line is at a token of the line. The texts that scanning finds open are
at tokens too.
-/
namespace TermOutline

/-- Spans of tokens. -/
def AtTokens (tokens : List Token) (span : Span) : Prop := ∃ token ∈ tokens, span = token.span

theorem AtTokens.mono {tokens more : List Token} {span : Span} (h : AtTokens tokens span)
    (subset : ∀ token ∈ tokens, token ∈ more) : AtTokens more span := by
  obtain ⟨token, member, same⟩ := h
  exact ⟨token, subset token member, same⟩

/-- A finding of grouping at one of the tokens. -/
structure Finding.At (tokens : List Token) (finding : Finding) : Prop where
  category : finding.fault.category = .structural
  place : AtTokens tokens finding.span

theorem Finding.At.mono {tokens more : List Token} {finding : Finding} (h : finding.At tokens)
    (subset : ∀ token ∈ tokens, token ∈ more) : finding.At more :=
  ⟨h.category, h.place.mono subset⟩

theorem strayComma_at {tokens : List Token} {spans : List Span}
    (h : ∀ span ∈ spans, AtTokens tokens span) :
    ∀ finding ∈ spans.map fun span => (⟨.strayComma, span⟩ : Finding), finding.At tokens := by
  intro finding member
  obtain ⟨span, inside, rfl⟩ := List.mem_map.1 member
  exact ⟨rfl, h span inside⟩

theorem itemTokens_of_mem {item : Item} {items : List Item} (h : item ∈ items) {token : Token}
    (member : token ∈ item.tokens) : token ∈ itemTokens items := by
  obtain ⟨front, back, rfl⟩ := List.append_of_mem h
  rw [itemTokens_append, itemTokens]
  exact List.mem_append_right _ (List.mem_append_left _ member)

theorem comma_atTokens {item : Item} {items : List Item} (h : item ∈ items) {comma : Token}
    (hc : item.comma? = some comma) : AtTokens (itemTokens items) comma.span := by
  cases item with
  | token t =>
    simp only [Item.comma?] at hc
    split at hc
    · cases hc
      exact ⟨comma, itemTokens_of_mem h (List.mem_singleton_self comma), rfl⟩
    · cases hc
  | call => cases hc
  | text => cases hc

theorem repeatedCommas_atTokens {afterComma : Bool} {items : List Item} :
    ∀ span ∈ repeatedCommas afterComma items, AtTokens (itemTokens items) span := by
  induction items generalizing afterComma with
  | nil => simp [repeatedCommas]
  | cons item rest ih =>
    have later : ∀ {b span}, span ∈ repeatedCommas b rest →
        AtTokens (itemTokens (item :: rest)) span := by
      intro b span member
      exact (ih span member).mono fun token h => List.mem_append_right _ h
    intro span member
    rw [repeatedCommas] at member
    cases hc : item.comma? with
    | none =>
      rw [hc] at member
      exact later member
    | some comma =>
      rw [hc] at member
      cases afterComma with
      | false => exact later member
      | true =>
        rcases List.mem_cons.1 member with rfl | member
        · exact comma_atTokens List.mem_cons_self hc
        · exact later member

theorem finalComma_atTokens {items : List Item} :
    ∀ span ∈ finalComma items, AtTokens (itemTokens items) span := by
  intro span member
  rw [finalComma] at member
  split at member
  · next last before front hr =>
    have inside : last ∈ items := by
      rw [← List.mem_reverse, hr]
      exact List.mem_cons_self
    split at member
    · next comma hc =>
      split at member
      · cases member
      · rw [List.mem_singleton.1 member]
        exact comma_atTokens inside hc
    · cases member
  · cases member

theorem strayCommas_atTokens {afterComma : Bool} {items : List Item} :
    ∀ span ∈ strayCommas afterComma items, AtTokens (itemTokens items) span := by
  intro span member
  rcases List.mem_append.1 member with member | member
  · exact repeatedCommas_atTokens span member
  · exact finalComma_atTokens span member

theorem lineStrayCommas_atTokens {items : List Item} :
    ∀ span ∈ lineStrayCommas items, AtTokens (itemTokens items) span := by
  cases items with
  | nil => simp [lineStrayCommas]
  | cons head rest =>
    have later : ∀ {b span}, span ∈ strayCommas b rest →
        AtTokens (itemTokens (head :: rest)) span := by
      intro b span member
      exact (strayCommas_atTokens span member).mono fun token h => List.mem_append_right _ h
    intro span member
    rw [lineStrayCommas] at member
    cases hc : head.comma? with
    | none =>
      rw [hc] at member
      exact later member
    | some comma =>
      rw [hc] at member
      rcases List.mem_cons.1 member with rfl | member
      · exact comma_atTokens List.mem_cons_self hc
      · exact later member

namespace Grouping

/-- Everything that is held is among the tokens, and everything found is at one of them. -/
structure Located (tokens : List Token) (grouping : Grouping) : Prop where
  items : ∀ token ∈ itemTokens grouping.items, token ∈ tokens
  groups : ∀ group ∈ grouping.groups, ∀ token ∈ group.tokens, token ∈ tokens
  found : ∀ finding ∈ grouping.findings, finding.At tokens

variable {tokens : List Token} {grouping next : Grouping}

theorem Located.innermost {held : List Item} (h : grouping.Located tokens)
    (hi : grouping.innermost = .ok held) : ∀ token ∈ itemTokens held, token ∈ tokens := by
  obtain ⟨items, groups, _⟩ := h
  rcases grouping with ⟨_, _ | ⟨⟨head, opening, held⟩ | _ | ⟨opening, held⟩, outer⟩, findings⟩ <;>
    cases hi
  · exact items
  · intro token member
    apply (List.forall_mem_cons.1 groups).1
    exact List.mem_append_right _ (List.mem_cons_of_mem _ member)
  · intro token member
    exact (List.forall_mem_cons.1 groups).1 token (List.mem_cons_of_mem _ member)

theorem Located.setInnermost {held : List Item} (h : grouping.Located tokens)
    (hs : ∀ token ∈ itemTokens held, token ∈ tokens) :
    (grouping.setInnermost held).Located tokens := by
  obtain ⟨items, groups, found⟩ := h
  rcases grouping with ⟨_, _ | ⟨⟨head, opening, old⟩ | _ | ⟨opening, old⟩, outer⟩, findings⟩
  · exact ⟨hs, groups, found⟩
  · obtain ⟨first, others⟩ := List.forall_mem_cons.1 groups
    refine ⟨items, List.forall_mem_cons.2 ⟨?_, others⟩, found⟩
    intro token member
    rcases List.mem_append.1 member with member | member
    · exact first token (List.mem_append_left _ member)
    · rcases List.mem_cons.1 member with rfl | member
      · exact first token (List.mem_append_right _ List.mem_cons_self)
      · exact hs token member
  · exact ⟨items, groups, found⟩
  · obtain ⟨first, others⟩ := List.forall_mem_cons.1 groups
    refine ⟨items, List.forall_mem_cons.2 ⟨?_, others⟩, found⟩
    intro token member
    rcases List.mem_cons.1 member with rfl | member
    · exact first token List.mem_cons_self
    · exact hs token member

theorem Located.openGroup {group : OpenGroup} (h : grouping.Located tokens)
    (hg : ∀ token ∈ group.tokens, token ∈ tokens) : (grouping.openGroup group).Located tokens :=
  ⟨h.items, List.forall_mem_cons.2 ⟨hg, h.groups⟩, h.found⟩

theorem Located.add {findings : List Finding} (h : grouping.Located tokens)
    (hf : ∀ finding ∈ findings, finding.At tokens) :
    { grouping with findings := grouping.findings ++ findings }.Located tokens :=
  ⟨h.items, h.groups, List.forall_mem_append.2 ⟨h.found, hf⟩⟩

theorem Located.report {token : Token} (h : grouping.Located tokens) (member : token ∈ tokens)
    {fault : Fault} (hf : fault.category = .structural) :
    (grouping.report fault token.span).Located tokens := by
  refine h.add ?_
  intro finding only
  rw [List.mem_singleton.1 only]
  exact ⟨hf, token, member, rfl⟩

theorem Located.reportCommas {held : List Item} {afterComma : Bool} (h : grouping.Located tokens)
    (hs : ∀ token ∈ itemTokens held, token ∈ tokens) :
    (grouping.reportCommas (strayCommas afterComma held)).Located tokens := by
  refine h.add (strayComma_at ?_)
  intro span inside
  exact (strayCommas_atTokens span inside).mono hs

theorem Located.place {items : List Item} (h : grouping.Located tokens)
    (hs : ∀ token ∈ itemTokens items, token ∈ tokens) (hp : grouping.place items = .ok next) :
    next.Located tokens := by
  obtain ⟨held, hi, rfl⟩ := place_cases hp
  apply h.setInnermost
  rw [itemTokens_append]
  exact List.forall_mem_append.2 ⟨h.innermost hi, hs⟩

theorem Located.openCall {opening : Token} (h : grouping.Located tokens) (member : opening ∈ tokens)
    (hp : grouping.openCall opening = .ok next) : next.Located tokens := by
  cases hi : grouping.innermost with
  | error breach => simp [Grouping.openCall, hi, bind, Except.bind] at hp
  | ok held =>
    simp only [Grouping.openCall, hi, bind, Except.bind, pure, Except.pure, throw, throwThe,
      MonadExceptOf.throw] at hp
    split at hp
    · next head hlast =>
      split at hp
      · rw [Except.ok.injEq] at hp
        subst hp
        obtain ⟨front, rfl⟩ := List.getLast?_eq_some_iff.1 hlast
        have inside := h.innermost hi
        rw [itemTokens_append] at inside
        obtain ⟨before, last⟩ := List.forall_mem_append.1 inside
        rw [List.dropLast_concat]
        apply (h.setInnermost before).openGroup
        simpa [OpenGroup.tokens, itemTokens, member] using
          last head (itemTokens_of_mem List.mem_cons_self (List.mem_singleton_self head))
      · cases hp
    · cases hp

theorem Located.closeParen {closing : Token} (h : grouping.Located tokens)
    (member : closing ∈ tokens) (hp : grouping.closeParen closing = .ok next) :
    next.Located tokens := by
  unfold Grouping.closeParen at hp
  split at hp
  · next head opening held outer hg =>
    have groups := h.groups
    rw [hg] at groups
    obtain ⟨first, others⟩ := List.forall_mem_cons.1 groups
    have inside : ∀ token ∈ itemTokens held, token ∈ tokens := by
      intro token hm
      exact first token (List.mem_append_right _ (List.mem_cons_of_mem _ hm))
    have closed : ({ grouping with groups := outer }.reportCommas
        (strayCommas true held)).Located tokens :=
      Located.reportCommas ⟨h.items, others, h.found⟩ inside
    cases head with
    | none => exact closed.place inside hp
    | some head =>
      refine closed.place ?_ hp
      have opened := first opening (List.mem_append_right _ List.mem_cons_self)
      have called := first head (List.mem_append_left _ (by simp))
      simpa [itemTokens, Item.tokens, opened, called, or_imp, forall_and, member] using inside
  · rw [Except.ok.injEq] at hp
    subst hp
    exact h.report member rfl

theorem unclosed?_at {groups : List OpenGroup}
    (h : ∀ group ∈ groups, ∀ token ∈ group.tokens, token ∈ tokens) :
    ∀ finding ∈ groups.filterMap OpenGroup.unclosed?, finding.At tokens := by
  intro finding member
  obtain ⟨group, inside, reported⟩ := List.mem_filterMap.1 member
  cases group with
  | call head opening items =>
    cases reported
    exact ⟨rfl, opening, h _ inside opening (List.mem_append_right _ List.mem_cons_self), rfl⟩
  | text => cases reported
  | slot => cases reported

theorem Located.closeSlot {closing : Token} (h : grouping.Located tokens)
    (member : closing ∈ tokens) (hp : grouping.closeSlot closing = .ok next) :
    next.Located tokens := by
  unfold Grouping.closeSlot at hp
  split at hp
  · rw [Except.ok.injEq] at hp
    subst hp
    exact h.report member rfl
  · next calls _ =>
    dsimp only at hp
    split at hp
    · next opening held text pieces outer hd =>
      rw [Except.ok.injEq] at hp
      subst hp
      have dropped : ∀ group ∈ grouping.groups.drop calls, ∀ token ∈ group.tokens, token ∈ tokens :=
        fun group hm => h.groups group (List.mem_of_mem_drop hm)
      rw [hd] at dropped
      obtain ⟨slot, dropped⟩ := List.forall_mem_cons.1 dropped
      obtain ⟨around, others⟩ := List.forall_mem_cons.1 dropped
      have inside : ∀ token ∈ itemTokens held, token ∈ tokens :=
        fun token hm => slot token (List.mem_cons_of_mem _ hm)
      have opened := slot opening List.mem_cons_self
      refine Located.reportCommas ⟨h.items, List.forall_mem_cons.2 ⟨?_, others⟩, ?_⟩ inside
      · have pieces := around
        simp only [OpenGroup.tokens, List.mem_cons, forall_eq_or_imp] at pieces
        simpa [OpenGroup.tokens, pieceTokens, Piece.tokens, or_imp, forall_and, opened, member,
          pieces.1] using ⟨pieces.2, inside⟩
      · refine List.forall_mem_append.2 ⟨h.found, unclosed?_at ?_⟩
        intro group hm
        exact h.groups group (List.mem_of_mem_take (List.mem_reverse.1 hm))
    · cases hp
    · cases hp

theorem Located.addCut {cut : Token} (h : grouping.Located tokens) (member : cut ∈ tokens)
    (hp : grouping.addCut cut = .ok next) : next.Located tokens := by
  unfold Grouping.addCut at hp
  split at hp
  · next opening pieces outer hg =>
    rw [Except.ok.injEq] at hp
    subst hp
    have groups := h.groups
    rw [hg] at groups
    obtain ⟨first, others⟩ := List.forall_mem_cons.1 groups
    refine ⟨h.items, List.forall_mem_cons.2 ⟨?_, others⟩, h.found⟩
    simpa [OpenGroup.tokens, pieceTokens, Piece.tokens, or_imp, forall_and, member] using first
  · cases hp

theorem Located.closeText {closing : Token} (h : grouping.Located tokens)
    (member : closing ∈ tokens) (hp : grouping.closeText closing = .ok next) :
    next.Located tokens := by
  unfold Grouping.closeText at hp
  split at hp
  · next opening pieces outer hg =>
    have groups := h.groups
    rw [hg] at groups
    obtain ⟨first, others⟩ := List.forall_mem_cons.1 groups
    have closed : { grouping with groups := outer }.Located tokens := ⟨h.items, others, h.found⟩
    refine closed.place ?_ hp
    simpa [OpenGroup.tokens, itemTokens, Item.tokens, or_imp, forall_and, member] using first
  · cases hp

theorem Located.openSlot {opening : Token} (h : grouping.Located tokens) (member : opening ∈ tokens)
    (hp : grouping.openSlot opening = .ok next) : next.Located tokens := by
  unfold Grouping.openSlot at hp
  split at hp
  · rw [Except.ok.injEq] at hp
    subst hp
    exact h.openGroup (by simpa [OpenGroup.tokens, itemTokens] using member)
  · cases hp

/-- One step holds and finds nothing elsewhere. -/
theorem step_located {previous : Option Token} {token : Token} (h : grouping.Located tokens)
    (member : token ∈ tokens) (hs : grouping.step previous token = .ok next) :
    next.Located tokens := by
  have word : ∀ t ∈ itemTokens [.token token], t ∈ tokens := by
    simpa [itemTokens, Item.tokens] using member
  cases hk : token.kind <;> simp only [step, hk] at hs
  case tab | badEscape | textBrace | unknown => cases hs
  case space | line =>
    cases hs
    exact h
  case term | size | decimal | code | comma => exact h.place word hs
  case parenOpen =>
    split at hs
    · exact h.openCall member hs
    · cases hs
      exact (h.report member rfl).openGroup (by simpa [OpenGroup.tokens, itemTokens] using member)
  case parenClose => exact h.closeParen member hs
  case textOpen =>
    cases hs
    exact h.openGroup (by simpa [OpenGroup.tokens, pieceTokens] using member)
  case textCut => exact h.addCut member hs
  case textClose => exact h.closeText member hs
  case slotOpen => exact h.openSlot member hs
  case slotClose => exact h.closeSlot member hs

theorem read_located {previous : Option Token} {read : List Token} (h : grouping.Located tokens)
    (members : ∀ token ∈ read, token ∈ tokens) (hr : grouping.read previous read = .ok next) :
    next.Located tokens := by
  induction read generalizing grouping previous with
  | nil =>
    cases hr
    exact h
  | cons token rest ih =>
    have ⟨first, others⟩ := List.forall_mem_cons.1 members
    obtain ⟨middle, hs, hr⟩ := read_cons hr
    exact ih (step_located h first hs) others hr

theorem ofTokens_located (hr : ofTokens tokens = .ok grouping) : grouping.Located tokens := by
  simp only [ofTokens, bind, Except.bind] at hr
  split at hr
  · cases hr
  · next last hread =>
    have start : initial.Located tokens := ⟨by simp [initial, itemTokens], by simp [initial],
      by simp [initial]⟩
    have located := read_located start (fun _ h => h) hread
    simp only [finish] at hr
    split at hr
    · cases hr
      refine located.add (unclosed?_at ?_)
      intro group member
      exact located.groups group (List.mem_reverse.1 member)
    · cases hr

end Grouping

theorem mem_of_mem_trimTrivia {tokens : List Token} {token : Token}
    (h : token ∈ trimTrivia tokens) : token ∈ tokens := by
  obtain ⟨lead, trail, split, _, _⟩ := trimTrivia_split tokens
  rw [split]
  exact List.mem_append_left _ (List.mem_append_right _ h)

theorem indentFindings_at {tokens within : List Token} {unit : Nat}
    (spaces : ∀ token ∈ tokens, token.kind = .space → token ∈ within) :
    ∀ finding ∈ indentFindings (indentSpan tokens) unit, finding.At within := by
  intro finding member
  rw [indentFindings] at member
  split at member
  · cases member
  · next odd =>
    rw [List.mem_singleton.1 member]
    cases tokens with
    | nil => exact absurd (Nat.zero_mod unit) odd
    | cons token rest =>
      rw [indentSpan] at odd ⊢
      split at odd
      · next space =>
        rw [if_pos space]
        exact ⟨rfl, token, spaces token List.mem_cons_self space, rfl⟩
      · exact absurd (by simp [Span.emptyAt, Span.length]) odd

/-- Everything found in a line is at one of its spaces or between its first and its last token that
is not trivia. -/
theorem ofTokens?_at {settings : Settings} {tokens within : List Token} {line : Line}
    {findings : List Finding} (core : ∀ token ∈ trimTrivia tokens, token ∈ within)
    (spaces : ∀ token ∈ tokens, token.kind = .space → token ∈ within)
    (h : Line.ofTokens? settings tokens = .ok (some (line, findings))) :
    ∀ finding ∈ findings, finding.At within := by
  obtain ⟨_, ⟨⟩⟩ | ⟨first, rest, grouping, trimmed, hg, made⟩ := Line.ofTokens?_cases h
  cases made
  rw [trimmed] at core
  have located := Grouping.ofTokens_located hg
  refine List.forall_mem_append.2 ⟨List.forall_mem_append.2 ⟨indentFindings_at spaces,
    fun finding member => (located.found finding member).mono core⟩, strayComma_at ?_⟩
  intro span comma
  exact (lineStrayCommas_atTokens span comma).mono fun token hm =>
    core token (located.items token hm)

theorem forall₂_mem_right {α β : Type} {R : α → β → Prop} {as : List α} {bs : List β}
    (h : List.Forall₂ R as bs) {b : β} (member : b ∈ bs) : ∃ a ∈ as, R a b := by
  induction h with
  | nil => cases member
  | cons related _ ih =>
    rcases List.mem_cons.1 member with rfl | member
    · exact ⟨_, List.mem_cons_self, related⟩
    · obtain ⟨a, inside, related⟩ := ih member
      exact ⟨a, List.mem_cons_of_mem _ inside, related⟩

/-- Everything found in the lines of tokens is at one of their spaces or inside one of them. -/
theorem readLines_at {settings : Settings} {tokens within : List Token}
    {pairs : List (Line × List Finding)}
    (core : ∀ line ∈ splitLines tokens, ∀ token ∈ trimTrivia line, token ∈ within)
    (spaces : ∀ token ∈ tokens, token.kind = .space → token ∈ within)
    (h : readLines settings tokens = .ok pairs) :
    ∀ finding ∈ pairs.flatMap Prod.snd, finding.At within := by
  obtain ⟨results, each, rfl⟩ := readLines_cases h
  intro finding member
  obtain ⟨⟨line, findings⟩, pair, inside⟩ := List.mem_flatMap.1 member
  obtain ⟨_, result, rfl⟩ := List.mem_filterMap.1 pair
  obtain ⟨body, found, made⟩ := forall₂_mem_right each result
  refine ofTokens?_at (core body found) ?_ made finding inside
  intro token hm
  apply spaces
  rw [← splitLines_flatten tokens]
  exact List.mem_flatten_of_mem found hm

theorem readLines_atTokens {settings : Settings} {tokens : List Token}
    {pairs : List (Line × List Finding)} (h : readLines settings tokens = .ok pairs) :
    ∀ finding ∈ pairs.flatMap Prod.snd, AtTokens tokens finding.span := by
  intro finding member
  refine (readLines_at ?_ (fun _ inside _ => inside) h finding member).place
  intro line found token inside
  rw [← splitLines_flatten tokens]
  exact List.mem_flatten_of_mem found (mem_of_mem_trimTrivia inside)

/-- The scanner remembers spans of tokens only. -/
structure Scanner.Located (tokens : List Token) (scanner : Scanner) : Prop where
  openings : ∀ span, .text span ∈ scanner.openings → AtTokens tokens span
  abandoned : ∀ span ∈ scanner.abandoned, AtTokens tokens span

theorem Scanner.Located.abandon {tokens : List Token} {scanner : Scanner}
    (h : scanner.Located tokens) : scanner.abandon.Located tokens := by
  refine ⟨by simp [Scanner.abandon], List.forall_mem_append.2 ⟨h.abandoned, ?_⟩⟩
  intro span member
  rw [Scanner.outermost] at member
  split at member
  · next last hl =>
    rw [List.mem_singleton.1 member]
    exact h.openings last (List.mem_of_getLast? hl)
  · cases member

theorem Scanner.Located.step {tokens : List Token} {scanner : Scanner} {token : Token}
    (h : scanner.Located tokens) (member : token.kind = .textOpen → token ∈ tokens) :
    (scanner.step token).Located tokens := by
  cases hk : token.kind <;> simp only [Scanner.step, hk] <;> try exact h
  case line => exact h.abandon
  case textOpen =>
    refine ⟨?_, h.abandoned⟩
    intro span inside
    rcases List.mem_cons.1 inside with first | inside
    · cases first
      exact ⟨token, member hk, rfl⟩
    · exact h.openings span inside
  case slotOpen =>
    refine ⟨?_, h.abandoned⟩
    intro span inside
    rcases List.mem_cons.1 inside with first | inside
    · cases first
    · exact h.openings span inside
  case textClose =>
    exact ⟨fun span inside => h.openings span (List.mem_of_mem_tail inside), h.abandoned⟩
  case slotClose =>
    split
    · next outer ho =>
      refine ⟨fun span inside => h.openings span ?_, h.abandoned⟩
      rw [ho]
      exact List.mem_cons_of_mem _ inside
    · exact h

theorem foldl_step_located {tokens read : List Token} {scanner : Scanner}
    (h : scanner.Located tokens)
    (members : ∀ token ∈ read, token.kind = .textOpen → token ∈ tokens) :
    (read.foldl Scanner.step scanner).Located tokens := by
  induction read generalizing scanner with
  | nil => exact h
  | cons token rest ih =>
    obtain ⟨first, others⟩ := List.forall_mem_cons.1 members
    exact ih (h.step first) others

theorem unclosedTexts_atTokens {tokens : List Token} :
    ∀ span ∈ unclosedTexts tokens,
      AtTokens (tokens.filter fun token => token.kind = .textOpen) span := by
  have start : Scanner.initial.Located (tokens.filter fun token => token.kind = .textOpen) :=
    ⟨by simp [Scanner.initial], by simp [Scanner.initial]⟩
  refine (foldl_step_located start ?_).abandon.abandoned
  intro token member opens
  exact List.mem_filter.2 ⟨member, by simpa using opens⟩

end TermOutline
