import TermOutline.Proofs.Tracking

/-! # What grouping keeps

Grouping moves tokens between lists: a term is taken back when a parenthesis follows it, a list goes
into a call or a slot when that closes, and into the list around it when its parenthesis belongs to
no term. As long as no bracket is found out of place, the open groups and the items of the line hold
every token read, in order. This needs nothing of the tokens: they may come from no text at all.
-/
namespace TermOutline

@[simp] theorem itemTokens_append (front back : List Item) :
    itemTokens (front ++ back) = itemTokens front ++ itemTokens back := by
  induction front with
  | nil => rfl
  | cons item rest ih => simp [itemTokens, ih]

@[simp] theorem pieceTokens_append (front back : List Piece) :
    pieceTokens (front ++ back) = pieceTokens front ++ pieceTokens back := by
  induction front with
  | nil => rfl
  | cons piece rest ih => simp [pieceTokens, ih]

def Fault.isBracket : Fault → Bool
  | .unmatchedParen | .openParen | .detachedParen | .unmatchedBrace => true
  | _ => false

namespace OpenGroup

def tokens : OpenGroup → List Token
  | .call head opening items => head.toList ++ opening :: itemTokens items
  | .text opening pieces => opening :: pieceTokens pieces
  | .slot opening items => opening :: itemTokens items

/-- A call belongs to a term. -/
def Headed : OpenGroup → Prop
  | .call head _ _ => head.isSome = true
  | _ => True

end OpenGroup

namespace Grouping

variable {grouping next last : Grouping} {previous : Option Token} {token : Token}

/-- Everything read so far, apart from trivia, as long as no bracket is out of place. -/
def tokens (grouping : Grouping) : List Token :=
  itemTokens grouping.items ++ grouping.groups.reverse.flatMap OpenGroup.tokens

theorem openGroup_tokens (grouping : Grouping) (group : OpenGroup) :
    (grouping.openGroup group).tokens = grouping.tokens ++ group.tokens := by
  simp [tokens, openGroup]

/-! ## What one step can do -/

theorem place_cases {items : List Item} (hp : grouping.place items = .ok next) :
    ∃ held, grouping.innermost = .ok held ∧ next = grouping.setInnermost (held ++ items) := by
  cases hi : grouping.innermost with
  | error breach => simp [place, hi, bind, Except.bind] at hp
  | ok held =>
    rw [place_eq hi, Except.ok.injEq] at hp
    exact ⟨held, rfl, hp.symm⟩

theorem place_findings {items : List Item} (hp : grouping.place items = .ok next) :
    next.findings = grouping.findings := by
  obtain ⟨held, _, rfl⟩ := place_cases hp
  exact setInnermost_findings _ _

theorem openCall_cases {opening : Token} (hp : grouping.openCall opening = .ok next) :
    ∃ held head, grouping.innermost = .ok (held ++ [.token head]) ∧ head.kind = .term ∧
      next = (grouping.setInnermost held).openGroup (.call (some head) opening []) := by
  cases hi : grouping.innermost with
  | error breach => simp [Grouping.openCall, hi, bind, Except.bind] at hp
  | ok held =>
    simp only [Grouping.openCall, hi, bind, Except.bind, pure, Except.pure, throw, throwThe,
      MonadExceptOf.throw] at hp
    split at hp
    · next head hlast =>
      obtain ⟨front, rfl⟩ := List.getLast?_eq_some_iff.1 hlast
      split at hp
      · next kind =>
        rw [Except.ok.injEq, List.dropLast_concat] at hp
        exact ⟨front, head, rfl, kind, hp.symm⟩
      · cases hp
    · cases hp

/-- A brace ends the innermost slot together with the calls that are open in it. It is reported when
there are only calls, or a text around them. -/
theorem closeSlot_cases (hp : grouping.closeSlot token = .ok next) :
    ∃ calls rest, grouping.groups = calls ++ rest ∧ (∀ group ∈ calls, group.isCall = true) ∧
      ((rest = [] ∨ ∃ opening pieces outer, rest = .text opening pieces :: outer) ∧
          next = grouping.report .unmatchedBrace token.span ∨
        ∃ opening held textOpening pieces outer,
          rest = .slot opening held :: .text textOpening pieces :: outer ∧
          next = { grouping with
            groups := .text textOpening (pieces ++ [Piece.slot opening held token]) :: outer
            findings := grouping.findings ++ calls.reverse.filterMap OpenGroup.unclosed?
            }.reportCommas (strayCommas true held)) := by
  obtain ⟨calls, rest, hg, hcalls, hrest, hc⟩ := callsInSlot?_split grouping.groups
  refine ⟨calls, rest, hg, hcalls, ?_⟩
  rw [closeSlot, hc] at hp
  rcases rest with _ | ⟨⟨head, opening, held⟩ | ⟨opening, pieces⟩ | ⟨opening, held⟩, outer⟩
  · cases hp
    exact Or.inl ⟨Or.inl rfl, rfl⟩
  · cases hrest _ _ rfl
  · cases hp
    exact Or.inl ⟨Or.inr ⟨_, _, _, rfl⟩, rfl⟩
  · simp only [hg, List.head?_cons, Option.any_some, OpenGroup.isSlot, if_true, List.drop_left,
      List.take_left] at hp
    split at hp
    · next same =>
      cases same
      cases hp
      exact Or.inr ⟨_, _, _, _, _, rfl, rfl⟩
    · cases hp
    · cases hp

theorem addCut_cases (hp : grouping.addCut token = .ok next) :
    ∃ opening pieces outer, grouping.groups = .text opening pieces :: outer ∧
      next = { grouping with groups := .text opening (pieces ++ [Piece.cut token]) :: outer } := by
  unfold addCut at hp
  split at hp
  · next opening pieces outer hg =>
    cases hp
    exact ⟨opening, pieces, outer, hg, rfl⟩
  · cases hp

theorem closeText_cases (hp : grouping.closeText token = .ok next) :
    ∃ opening pieces outer, grouping.groups = .text opening pieces :: outer ∧
      { grouping with groups := outer }.place [.text opening pieces token] = .ok next := by
  unfold closeText at hp
  split at hp
  · next opening pieces outer hg => exact ⟨opening, pieces, outer, hg, hp⟩
  · cases hp

theorem openSlot_cases (hp : grouping.openSlot token = .ok next) :
    next = grouping.openGroup (.slot token []) := by
  unfold openSlot at hp
  split at hp
  · cases hp
    rfl
  · cases hp

theorem read_cons {rest : List Token} (hr : grouping.read previous (token :: rest) = .ok last) :
    ∃ next, grouping.step previous token = .ok next ∧ next.read (some token) rest = .ok last := by
  simp only [read, bind, Except.bind] at hr
  split at hr
  · cases hr
  · exact ⟨_, ‹_›, hr⟩

theorem ofTokens_cases {tokens : List Token} (hr : ofTokens tokens = .ok grouping) :
    ∃ last, initial.read none tokens = .ok last ∧ (∀ group ∈ last.groups, group.isCall = true) ∧
      grouping = { last with
        findings := last.findings ++ last.groups.reverse.filterMap OpenGroup.unclosed? } := by
  simp only [ofTokens, bind, Except.bind] at hr
  split at hr
  · cases hr
  · next last hread =>
    rw [finish] at hr
    split at hr
    · next calls =>
      cases hr
      exact ⟨last, hread, List.all_eq_true.1 calls, rfl⟩
    · cases hr

theorem step_findings (hp : grouping.step previous token = .ok next) :
    grouping.findings <+: next.findings := by
  cases hk : token.kind <;> simp only [step, hk] at hp
  case tab | badEscape | textBrace | unknown => cases hp
  case space | line | textOpen =>
    rw [Except.ok.injEq] at hp
    subst hp
    exact List.prefix_rfl
  case term | size | decimal | code | comma =>
    exact ⟨[], by rw [place_findings hp, List.append_nil]⟩
  case parenOpen =>
    split at hp
    · obtain ⟨held, head, _, _, rfl⟩ := openCall_cases hp
      exact ⟨[], by simp [openGroup]⟩
    · rw [Except.ok.injEq] at hp
      subst hp
      exact List.prefix_append _ _
  case parenClose =>
    unfold closeParen at hp
    split at hp
    · dsimp only at hp
      split at hp <;> rw [place_findings hp] <;> exact List.prefix_append _ _
    · rw [Except.ok.injEq] at hp
      subst hp
      exact List.prefix_append _ _
  case slotClose =>
    obtain ⟨calls, rest, _, _, ⟨_, rfl⟩ | ⟨opening, held, textOpening, pieces, outer, _, rfl⟩⟩ :=
      closeSlot_cases hp
    · exact List.prefix_append _ _
    · exact (List.prefix_append _ _).trans (List.prefix_append _ _)
  case textCut =>
    obtain ⟨opening, pieces, outer, _, rfl⟩ := addCut_cases hp
    exact List.prefix_rfl
  case textClose =>
    obtain ⟨opening, pieces, outer, _, placed⟩ := closeText_cases hp
    exact ⟨[], by rw [place_findings placed, List.append_nil]⟩
  case slotOpen =>
    rw [openSlot_cases hp]
    exact List.prefix_rfl

theorem read_findings {tokens : List Token} (hr : grouping.read previous tokens = .ok last) :
    grouping.findings <+: last.findings := by
  induction tokens generalizing grouping previous with
  | nil =>
    rw [read, Except.ok.injEq] at hr
    exact ⟨[], by rw [hr, List.append_nil]⟩
  | cons token rest ih =>
    obtain ⟨next, hs, hr⟩ := read_cons hr
    exact (step_findings hs).trans (ih hr)

/-! ## What one step keeps -/

theorem setInnermost_headed (h : ∀ group ∈ grouping.groups, group.Headed) (held : List Item) :
    ∀ group ∈ (grouping.setInnermost held).groups, group.Headed := by
  rcases grouping with ⟨_, _ | ⟨_ | _ | _, outer⟩, findings⟩
  · exact h
  · obtain ⟨first, others⟩ := List.forall_mem_cons.1 h
    exact List.forall_mem_cons.2 ⟨first, others⟩
  · exact h
  · obtain ⟨first, others⟩ := List.forall_mem_cons.1 h
    exact List.forall_mem_cons.2 ⟨first, others⟩

theorem setInnermost_tokens {held : List Item} (hi : grouping.innermost = .ok held) :
    ∃ before, ∀ items, (grouping.setInnermost items).tokens = before ++ itemTokens items := by
  rcases grouping with ⟨root, _ | ⟨⟨head, opening, _⟩ | _ | ⟨opening, _⟩, outer⟩, findings⟩ <;>
    cases hi
  · exact ⟨[], fun items => by simp [setInnermost, tokens]⟩
  · refine ⟨itemTokens root ++ outer.reverse.flatMap OpenGroup.tokens ++ (head.toList ++ [opening]),
      fun items => ?_⟩
    simp [setInnermost, tokens, OpenGroup.tokens]
  · refine ⟨itemTokens root ++ outer.reverse.flatMap OpenGroup.tokens ++ [opening],
      fun items => ?_⟩
    simp [setInnermost, tokens, OpenGroup.tokens]

/-- Every call that is open belongs to a term, and what is held is what was held and the tokens
`added`. -/
structure Keeps (grouping : Grouping) (added : List Token) (next : Grouping) : Prop where
  headed : ∀ group ∈ next.groups, group.Headed
  tokens : next.tokens = grouping.tokens ++ added

theorem Keeps.openGroup (h : ∀ group ∈ grouping.groups, group.Headed) (group : OpenGroup)
    (headed : group.Headed) : Keeps grouping group.tokens (grouping.openGroup group) :=
  ⟨List.forall_mem_cons.2 ⟨headed, h⟩, openGroup_tokens grouping group⟩

theorem place_keeps (h : ∀ group ∈ grouping.groups, group.Headed) {items : List Item}
    (hp : grouping.place items = .ok next) : Keeps grouping (itemTokens items) next := by
  obtain ⟨held, hi, rfl⟩ := place_cases hp
  obtain ⟨before, tokens⟩ := setInnermost_tokens hi
  have same := tokens held
  rw [setInnermost_self hi] at same
  refine ⟨setInnermost_headed h _, ?_⟩
  rw [tokens, same, itemTokens_append, List.append_assoc]

/-- The term that a parenthesis follows leaves the list that it was added to for the call. -/
theorem openCall_keeps (h : ∀ group ∈ grouping.groups, group.Headed)
    (hp : grouping.openCall token = .ok next) :
    Keeps grouping [token] next := by
  obtain ⟨held, head, hi, _, rfl⟩ := openCall_cases hp
  obtain ⟨before, tokens⟩ := setInnermost_tokens hi
  have same := tokens (held ++ [.token head])
  rw [setInnermost_self hi] at same
  refine ⟨List.forall_mem_cons.2 ⟨rfl, setInnermost_headed h held⟩, ?_⟩
  rw [openGroup_tokens, tokens, same]
  simp [OpenGroup.tokens, itemTokens, Item.tokens]

theorem closeParen_keeps (h : ∀ group ∈ grouping.groups, group.Headed)
    (hp : grouping.closeParen token = .ok next)
    (clean : ∀ finding ∈ next.findings, finding.fault.isBracket = false) :
    Keeps grouping [token] next := by
  unfold closeParen at hp
  split at hp
  · next head opening held outer hg =>
    rw [hg] at h
    obtain ⟨headed, around⟩ := List.forall_mem_cons.1 h
    cases head with
    | none => cases headed
    | some head =>
      have placed := place_keeps around hp
      refine ⟨placed.headed, ?_⟩
      rw [placed.tokens]
      simp [tokens, reportCommas, hg, OpenGroup.tokens, itemTokens, Item.tokens]
  · cases hp
    have unmatched := clean ⟨.unmatchedParen, token.span⟩ (by simp [report])
    cases unmatched

theorem calls_eq_nil {calls : List OpenGroup} (h : ∀ group ∈ calls, group.isCall = true)
    (clean : ∀ finding ∈ calls.reverse.filterMap OpenGroup.unclosed?,
      finding.fault.isBracket = false) : calls = [] := by
  rw [List.eq_nil_iff_forall_not_mem]
  intro group member
  have call := h group member
  cases group with
  | call head opening held =>
    have unclosed := clean ⟨.openParen, opening.span⟩
      (List.mem_filterMap.2 ⟨_, List.mem_reverse.2 member, rfl⟩)
    cases unclosed
  | text => cases call
  | slot => cases call

theorem closeSlot_keeps (h : ∀ group ∈ grouping.groups, group.Headed)
    (hp : grouping.closeSlot token = .ok next)
    (clean : ∀ finding ∈ next.findings, finding.fault.isBracket = false) :
    Keeps grouping [token] next := by
  obtain ⟨calls, rest, hg, hcalls,
      ⟨_, rfl⟩ | ⟨opening, held, textOpening, pieces, outer, rfl, rfl⟩⟩ :=
    closeSlot_cases hp
  · have unmatched := clean ⟨.unmatchedBrace, token.span⟩ (by simp [report])
    cases unmatched
  · obtain rfl : calls = [] := by
      refine calls_eq_nil hcalls fun finding member => clean finding ?_
      exact List.mem_append_left _ (List.mem_append_right _ member)
    rw [hg] at h
    obtain ⟨_, around⟩ := List.forall_mem_cons.1 h
    refine ⟨List.forall_mem_cons.2 ⟨trivial, (List.forall_mem_cons.1 around).2⟩, ?_⟩
    simp [tokens, reportCommas, hg, OpenGroup.tokens, pieceTokens, Piece.tokens]

theorem addCut_keeps (h : ∀ group ∈ grouping.groups, group.Headed)
    (hp : grouping.addCut token = .ok next) :
    Keeps grouping [token] next := by
  obtain ⟨opening, pieces, outer, hg, rfl⟩ := addCut_cases hp
  rw [hg] at h
  refine ⟨List.forall_mem_cons.2 ⟨trivial, (List.forall_mem_cons.1 h).2⟩, ?_⟩
  simp [tokens, hg, OpenGroup.tokens, pieceTokens, Piece.tokens]

theorem closeText_keeps (h : ∀ group ∈ grouping.groups, group.Headed)
    (hp : grouping.closeText token = .ok next) :
    Keeps grouping [token] next := by
  obtain ⟨opening, pieces, outer, hg, hp⟩ := closeText_cases hp
  rw [hg] at h
  have placed := place_keeps (List.forall_mem_cons.1 h).2 hp
  refine ⟨placed.headed, ?_⟩
  rw [placed.tokens]
  simp [tokens, hg, OpenGroup.tokens, itemTokens, Item.tokens]

/-- One step loses and reorders nothing, unless it finds a bracket out of place. -/
theorem step_keeps (h : ∀ group ∈ grouping.groups, group.Headed)
    (hp : grouping.step previous token = .ok next)
    (clean : ∀ finding ∈ next.findings, finding.fault.isBracket = false) :
    Keeps grouping (content [token]) next := by
  have said : token.kind.isTrivia = false → content [token] = [token] :=
    fun hk => content_significant hk []
  cases hk : token.kind <;> rw [hk] at said <;> simp only [step, hk] at hp
  case space | line =>
    cases hp
    refine ⟨h, ?_⟩
    simp [content, Token.isTrivia, hk, TokenKind.isTrivia]
  case tab | badEscape | textBrace | unknown => cases hp
  case term | size | decimal | code | comma =>
    rw [said rfl]
    exact place_keeps h hp
  case parenOpen =>
    rw [said rfl]
    split at hp
    · exact openCall_keeps h hp
    · cases hp
      have detached := clean ⟨.detachedParen, token.span⟩ (by simp [report, openGroup])
      cases detached
  case parenClose =>
    rw [said rfl]
    exact closeParen_keeps h hp clean
  case slotClose =>
    rw [said rfl]
    exact closeSlot_keeps h hp clean
  case textOpen =>
    cases hp
    rw [said rfl]
    exact .openGroup h (.text token []) trivial
  case textCut =>
    rw [said rfl]
    exact addCut_keeps h hp
  case textClose =>
    rw [said rfl]
    exact closeText_keeps h hp
  case slotOpen =>
    rw [said rfl, openSlot_cases hp]
    exact .openGroup h (.slot token []) trivial

/-! ## What a line keeps -/

theorem read_keeps {tokens : List Token} (h : ∀ group ∈ grouping.groups, group.Headed)
    (hr : grouping.read previous tokens = .ok last)
    (clean : ∀ finding ∈ last.findings, finding.fault.isBracket = false) :
    Keeps grouping (content tokens) last := by
  induction tokens generalizing grouping previous with
  | nil =>
    cases hr
    exact ⟨h, by simp [content]⟩
  | cons token rest ih =>
    obtain ⟨next, hs, hr⟩ := read_cons hr
    -- Findings are only added, so what the last state does not show no state before it does.
    have first := step_keeps h hs fun finding member =>
      clean finding ((read_findings hr).subset member)
    have others := ih first.headed hr
    refine ⟨others.headed, ?_⟩
    rw [others.tokens, first.tokens, List.append_assoc, ← content_append, List.singleton_append]

/-- A line whose brackets are all in place is made into items of its tokens, each used once. -/
theorem ofTokens_keeps {tokens : List Token} (hr : ofTokens tokens = .ok grouping)
    (clean : ∀ finding ∈ grouping.findings, finding.fault.isBracket = false) :
    itemTokens grouping.items = content tokens := by
  obtain ⟨last, hread, calls, rfl⟩ := ofTokens_cases hr
  have none : last.groups = [] :=
    calls_eq_nil calls fun finding member => clean finding (List.mem_append_right _ member)
  have start : ∀ group ∈ initial.groups, group.Headed := by
    simp [initial]
  have kept := (read_keeps start hread fun finding member =>
    clean finding (List.mem_append_left _ member)).tokens
  simpa [Grouping.tokens, none, initial, itemTokens] using kept

end Grouping

/-! ## What the lines of a document are -/

theorem forall₂_of_mapM {α β : Type} {f : α → Except Breach β} {inputs : List α} {results : List β}
    (h : inputs.mapM f = .ok results) :
    List.Forall₂ (fun input result => f input = .ok result) inputs results := by
  induction inputs generalizing results with
  | nil =>
    cases h
    exact .nil
  | cons input rest ih =>
    rw [List.mapM_cons] at h
    cases hf : f input with
    | error breach =>
      rw [hf] at h
      cases h
    | ok first =>
      cases hr : rest.mapM f with
      | error breach =>
        rw [hf, hr] at h
        cases h
      | ok others =>
        rw [hf, hr] at h
        cases h
        exact .cons hf (ih hr)

theorem Line.ofTokens?_cases {settings : Settings} {tokens : List Token}
    {result : Option (Line × List Finding)} (h : Line.ofTokens? settings tokens = .ok result) :
    (trimTrivia tokens = [] ∧ result = none) ∨
      ∃ first rest grouping, trimTrivia tokens = first :: rest ∧
        Grouping.ofTokens (first :: rest) = .ok grouping ∧
        result = some (⟨(indentSpan tokens).length / settings.indentWidth, indentSpan tokens,
            tokenSpan first rest, grouping.items⟩,
          indentFindings (indentSpan tokens) settings.indentWidth ++ grouping.findings ++
            (lineStrayCommas grouping.items).map fun span => ⟨.strayComma, span⟩) := by
  rw [Line.ofTokens?] at h
  split at h
  · next blank =>
    cases h
    exact Or.inl ⟨blank, rfl⟩
  · next first rest trimmed =>
    cases hg : Grouping.ofTokens (first :: rest) with
    | error breach =>
      rw [hg] at h
      cases h
    | ok grouping =>
      rw [hg] at h
      cases h
      exact Or.inr ⟨first, rest, grouping, trimmed, hg, rfl⟩

theorem readLines_cases {settings : Settings} {tokens : List Token}
    {pairs : List (Line × List Finding)} (h : readLines settings tokens = .ok pairs) :
    ∃ results, List.Forall₂ (fun each result => Line.ofTokens? settings each = .ok result)
      (splitLines tokens) results ∧ pairs = results.filterMap id := by
  rw [readLines] at h
  cases hm : (splitLines tokens).mapM (Line.ofTokens? settings) with
  | error breach =>
    rw [hm] at h
    cases h
  | ok results =>
    rw [hm] at h
    cases h
    exact ⟨results, forall₂_of_mapM hm, rfl⟩

end TermOutline
