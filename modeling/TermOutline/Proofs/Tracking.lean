import TermOutline.Proofs.Lines

/-! # Scanner and grouping agree

The scanner and the grouping of a line keep their open texts and slots separately. The two stay in
step on every line of a text without lexical faults, also where calls are open or out of place, so
grouping never meets a token that it has no place for.
-/
namespace TermOutline

namespace OpenGroup

/-- What the scanner keeps of an open group. -/
def opening? : OpenGroup → Option Opening
  | .call .. => none
  | .text opening _ => some (.text opening.span)
  | .slot .. => some .slot

end OpenGroup

/-- Whether a text is innermost. -/
def inText : List OpenGroup → Bool
  | .text .. :: _ => true
  | _ => false

/-- Groups as they lie in one another, innermost first: slots, and only slots, lie directly in a
text. -/
def Nested : List OpenGroup → Prop
  | [] => True
  | .slot _ _ :: outer => inText outer = true ∧ Nested outer
  | .call _ _ _ :: outer => inText outer = false ∧ Nested outer
  | .text _ _ :: outer => inText outer = false ∧ Nested outer

/-- The scanner and the grouping agree on the texts and slots that are open. -/
structure Tracks (scanner : Scanner) (grouping : Grouping) : Prop where
  openings : grouping.groups.filterMap OpenGroup.opening? = scanner.openings
  nested : Nested grouping.groups

/-- A term directly before is the last of the innermost list. -/
def Follows (previous : Option Token) (grouping : Grouping) : Prop :=
  ∀ token, previous = some token → token.kind = .term →
    ∃ held, grouping.innermost = .ok (held ++ [.token token])

theorem tracks_mode {scanner : Scanner} {grouping : Grouping} (h : Tracks scanner grouping) :
    scanner.mode = if inText grouping.groups then .text else .code := by
  obtain ⟨openings, nested⟩ := h
  unfold Scanner.mode
  rw [← openings]
  clear openings
  generalize grouping.groups = groups at nested ⊢
  induction groups with
  | nil => rfl
  | cons group outer ih =>
    cases group with
    | call head opening held =>
      have := ih nested.2
      rw [nested.1] at this
      exact this
    | text opening pieces => rfl
    | slot opening held => rfl

namespace Grouping

theorem innermost_of_code {grouping : Grouping} (h : inText grouping.groups = false) :
    ∃ held, grouping.innermost = .ok held := by
  unfold innermost
  split
  · exact ⟨_, rfl⟩
  · exact ⟨_, rfl⟩
  · exact ⟨_, rfl⟩
  · next hg => simp [hg, inText] at h

theorem code_of_innermost {grouping : Grouping} {held : List Item}
    (h : grouping.innermost = .ok held) : inText grouping.groups = false := by
  unfold innermost at h
  split at h
  · next hg => simp [hg, inText]
  · next hg => simp [hg, inText]
  · next hg => simp [hg, inText]
  · cases h

@[simp] theorem setInnermost_findings (grouping : Grouping) (held : List Item) :
    (grouping.setInnermost held).findings = grouping.findings := by
  rcases grouping with ⟨items, _ | ⟨_ | _ | _, outer⟩, findings⟩ <;> rfl

@[simp] theorem setInnermost_openings (grouping : Grouping) (held : List Item) :
    (grouping.setInnermost held).groups.filterMap OpenGroup.opening? =
      grouping.groups.filterMap OpenGroup.opening? := by
  rcases grouping with ⟨items, _ | ⟨_ | _ | _, outer⟩, findings⟩ <;> rfl

@[simp] theorem setInnermost_inText (grouping : Grouping) (held : List Item) :
    inText (grouping.setInnermost held).groups = inText grouping.groups := by
  rcases grouping with ⟨items, _ | ⟨_ | _ | _, outer⟩, findings⟩ <;> rfl

@[simp] theorem setInnermost_nested (grouping : Grouping) (held : List Item) :
    Nested (grouping.setInnermost held).groups ↔ Nested grouping.groups := by
  rcases grouping with ⟨items, _ | ⟨_ | _ | _, outer⟩, findings⟩ <;> rfl

@[simp] theorem setInnermost_setInnermost (grouping : Grouping) (held items : List Item) :
    (grouping.setInnermost held).setInnermost items = grouping.setInnermost items := by
  rcases grouping with ⟨_, _ | ⟨_ | _ | _, outer⟩, findings⟩ <;> rfl

theorem innermost_setInnermost {grouping : Grouping} (h : inText grouping.groups = false)
    (items : List Item) : (grouping.setInnermost items).innermost = .ok items := by
  rcases grouping with ⟨_, _ | ⟨_ | _ | _, outer⟩, findings⟩
  · rfl
  · rfl
  · cases h
  · rfl

theorem setInnermost_self {grouping : Grouping} {held : List Item}
    (h : grouping.innermost = .ok held) : grouping.setInnermost held = grouping := by
  rcases grouping with ⟨_, _ | ⟨_ | _ | _, outer⟩, findings⟩ <;> cases h <;> rfl

theorem place_eq {grouping : Grouping} {held : List Item} (h : grouping.innermost = .ok held)
    (items : List Item) : grouping.place items = .ok (grouping.setInnermost (held ++ items)) := by
  simp [place, h, bind, Except.bind, pure, Except.pure]

theorem openCall_eq {grouping : Grouping} {held : List Item} {head : Token}
    (h : grouping.innermost = .ok (held ++ [.token head])) (hk : head.kind = .term)
    (opening : Token) :
    grouping.openCall opening =
      .ok ((grouping.setInnermost held).openGroup (.call (some head) opening [])) := by
  simp [openCall, h, hk, bind, Except.bind, pure, Except.pure]

theorem place_tracks {scanner : Scanner} {grouping : Grouping} (h : Tracks scanner grouping)
    (code : inText grouping.groups = false) (items : List Item) :
    ∃ held, grouping.innermost = .ok held ∧
      grouping.place items = .ok (grouping.setInnermost (held ++ items)) ∧
      Tracks scanner (grouping.setInnermost (held ++ items)) := by
  obtain ⟨held, hheld⟩ := innermost_of_code code
  refine ⟨held, hheld, place_eq hheld items, ?_, ?_⟩
  · rw [setInnermost_openings, h.openings]
  · rw [setInnermost_nested]
    exact h.nested

/-- What lies outside the innermost group, when that is a call or a text, is not a text. -/
theorem closeParen_tracks {scanner : Scanner} {grouping : Grouping} (h : Tracks scanner grouping)
    (closing : Token) : ∃ next, grouping.closeParen closing = .ok next ∧ Tracks scanner next := by
  unfold closeParen
  split
  · next head opening held outer hg =>
    have nested := h.nested
    rw [hg] at nested
    have closed : Tracks scanner ({ grouping with groups := outer }.reportCommas
        (strayCommas true held)) := by
      refine ⟨?_, nested.2⟩
      rw [← h.openings, hg]
      rfl
    cases head with
    | some head =>
      obtain ⟨_, _, hp, ht⟩ := place_tracks closed nested.1 [.call head opening held closing]
      exact ⟨_, hp, ht⟩
    | none =>
      obtain ⟨_, _, hp, ht⟩ := place_tracks closed nested.1 held
      exact ⟨_, hp, ht⟩
  · exact ⟨_, rfl, h.openings, h.nested⟩

theorem callsInSlot?_split (groups : List OpenGroup) :
    ∃ calls rest, groups = calls ++ rest ∧ (∀ group ∈ calls, group.isCall = true) ∧
      (∀ group outer, rest = group :: outer → group.isCall = false) ∧
      callsInSlot? groups =
        if rest.head?.any OpenGroup.isSlot then some calls.length else none := by
  refine ⟨groups.takeWhile OpenGroup.isCall, groups.dropWhile OpenGroup.isCall,
    List.takeWhile_append_dropWhile.symm, fun _ h => List.mem_takeWhile_imp h, ?_, ?_⟩
  · intro group outer h
    have := List.head?_dropWhile_not OpenGroup.isCall groups
    rw [h] at this
    simpa using this
  · have front : groups[(groups.takeWhile OpenGroup.isCall).length]? =
        (groups.dropWhile OpenGroup.isCall).head? := by
      have split := List.takeWhile_append_dropWhile (p := OpenGroup.isCall) (l := groups)
      generalize groups.takeWhile OpenGroup.isCall = calls at split ⊢
      generalize groups.dropWhile OpenGroup.isCall = rest at split ⊢
      subst split
      rw [List.getElem?_append_right (Nat.le_refl _), Nat.sub_self, List.head?_eq_getElem?]
    simp only [callsInSlot?, front]

theorem calls_openings {calls rest : List OpenGroup} (h : ∀ group ∈ calls, group.isCall = true) :
    (calls ++ rest).filterMap OpenGroup.opening? = rest.filterMap OpenGroup.opening? := by
  have none : calls.filterMap OpenGroup.opening? = [] := by
    rw [List.filterMap_eq_nil_iff]
    intro group hg
    have := h group hg
    cases group with
    | call => rfl
    | text => cases this
    | slot => cases this
  rw [List.filterMap_append, none, List.nil_append]

theorem nested_append {front back : List OpenGroup} (h : Nested (front ++ back)) : Nested back := by
  induction front with
  | nil => exact h
  | cons group outer ih => cases group <;> exact ih h.2

theorem closeSlot_tracks {scanner : Scanner} {grouping : Grouping} (h : Tracks scanner grouping)
    {closing : Token} (hk : closing.kind = .slotClose) :
    ∃ next, grouping.closeSlot closing = .ok next ∧ Tracks (scanner.step closing) next := by
  obtain ⟨calls, rest, hg, hcalls, hrest, hc⟩ := callsInSlot?_split grouping.groups
  have openings := h.openings
  rw [hg, calls_openings hcalls] at openings
  have nested : Nested rest := nested_append (hg ▸ h.nested)
  cases rest with
  | nil =>
    refine ⟨grouping.report .unmatchedBrace closing.span, by simp [closeSlot, hc], ?_, h.nested⟩
    simp [Scanner.step, hk, report, h.openings, ← openings]
  | cons group outer =>
    cases group with
    | call => cases hrest _ _ rfl
    | text opening pieces =>
      refine ⟨grouping.report .unmatchedBrace closing.span, ?_, ?_, h.nested⟩
      · simp [closeSlot, hc, OpenGroup.isSlot]
      · simp [Scanner.step, hk, report, h.openings, ← openings, OpenGroup.opening?]
    | slot opening held =>
      rcases outer with _ | ⟨_ | ⟨textOpening, pieces⟩ | _, outer⟩
      · cases nested.1
      · cases nested.1
      · rw [closeSlot, hc]
        simp only [hg, List.head?_cons, Option.any_some, OpenGroup.isSlot, if_true, List.drop_left]
        refine ⟨_, rfl, ?_, nested.2⟩
        simp [Scanner.step, hk, reportCommas, ← openings, OpenGroup.opening?]
      · cases nested.1

theorem place_token_tracks {scanner : Scanner} {grouping : Grouping} (h : Tracks scanner grouping)
    (code : inText grouping.groups = false) (token : Token) :
    ∃ next, grouping.place [.token token] = .ok next ∧ Tracks scanner next ∧
      Follows (some token) next := by
  obtain ⟨held, _, hp, ht⟩ := place_tracks h code [.token token]
  refine ⟨_, hp, ht, ?_⟩
  rintro t ⟨⟩ _
  exact ⟨held, innermost_setInnermost code _⟩

theorem openParen_tracks {scanner : Scanner} {grouping : Grouping} {previous : Option Token}
    {token : Token} (h : Tracks scanner grouping) (follows : Follows previous grouping)
    (code : inText grouping.groups = false) (hk : token.kind = .parenOpen) :
    ∃ next, grouping.step previous token = .ok next ∧ Tracks scanner next := by
  simp only [step, hk]
  split
  · next hp =>
    obtain ⟨term, rfl, hterm⟩ := Option.any_eq_true _ _ |>.1 hp
    obtain ⟨held, hheld⟩ := follows term rfl (by simpa using hterm)
    refine ⟨_, openCall_eq hheld (by simpa using hterm) token, ?_, ?_⟩
    · exact (setInnermost_openings _ _).trans h.openings
    · exact ⟨by rw [setInnermost_inText]; exact code, (setInnermost_nested _ _).2 h.nested⟩
  · exact ⟨_, rfl, h.openings, code, h.nested⟩

theorem inText_cases {groups : List OpenGroup} (h : inText groups = true) :
    ∃ opening pieces outer, groups = .text opening pieces :: outer := by
  rcases groups with _ | ⟨_ | ⟨opening, pieces⟩ | _, outer⟩
  · cases h
  · cases h
  · exact ⟨opening, pieces, outer, rfl⟩
  · cases h

/-- In a text the tokens are cuts, the start of a slot and the end of the text. -/
theorem textStep_tracks {scanner : Scanner} {grouping : Grouping} {previous : Option Token}
    {token : Token} (h : Tracks scanner grouping) (text : inText grouping.groups = true)
    (hk : token.kind = .textCut ∨ token.kind = .slotOpen ∨ token.kind = .textClose) :
    ∃ next, grouping.step previous token = .ok next ∧ Tracks (scanner.step token) next := by
  obtain ⟨opening, pieces, outer, hg⟩ := inText_cases text
  have openings := h.openings
  have nested := h.nested
  rw [hg] at openings nested
  rcases hk with hk | hk | hk
  · simp only [step, Scanner.step, hk, addCut, hg]
    exact ⟨_, rfl, openings, nested⟩
  · simp only [step, Scanner.step, hk, openSlot, hg]
    refine ⟨_, rfl, ?_, text, h.nested⟩
    simp [openGroup, OpenGroup.opening?, h.openings]
  · have closed : Tracks (scanner.step token) { grouping with groups := outer } := by
      refine ⟨?_, nested.2⟩
      simp [Scanner.step, hk, ← openings, OpenGroup.opening?]
    obtain ⟨_, _, hp, ht⟩ := place_tracks closed nested.1 [.text opening pieces token]
    exact ⟨_, by simp only [step, hk, closeText, hg]; exact hp, ht⟩

theorem step_tracks {scanner : Scanner} {grouping : Grouping} {previous : Option Token}
    {token : Token} (h : Tracks scanner grouping) (follows : Follows previous grouping)
    (admitted : scanner.mode.admits token.kind = true) (sound : token.kind.isFault = false)
    (unbroken : token.kind ≠ .line) :
    ∃ next, grouping.step previous token = .ok next ∧ Tracks (scanner.step token) next ∧
      Follows (some token) next := by
  have code : Mode.admits .text token.kind = false → inText grouping.groups = false := by
    intro ht
    rw [tracks_mode h] at admitted
    cases hc : inText grouping.groups with
    | false => rfl
    | true => simp [hc, ht] at admitted
  have text : Mode.admits .code token.kind = false → inText grouping.groups = true := by
    intro ht
    rw [tracks_mode h] at admitted
    cases hc : inText grouping.groups with
    | false => simp [hc, ht] at admitted
    | true => rfl
  have other : token.kind ≠ .term →
      (∃ next, grouping.step previous token = .ok next ∧ Tracks (scanner.step token) next) →
      ∃ next, grouping.step previous token = .ok next ∧ Tracks (scanner.step token) next ∧
        Follows (some token) next := by
    rintro ne ⟨next, hs, ht⟩
    refine ⟨next, hs, ht, ?_⟩
    rintro t ⟨⟩ hk
    exact absurd hk ne
  have word : Mode.admits .text token.kind = false → scanner.step token = scanner →
      (∀ g, step previous g token = g.place [.token token]) →
      ∃ next, grouping.step previous token = .ok next ∧ Tracks (scanner.step token) next ∧
        Follows (some token) next := by
    intro hm hs hp
    rw [hs, hp]
    exact place_token_tracks h (code hm) token
  cases hk : token.kind <;> rw [hk] at code text other word sound
  case space =>
    exact other (by simp)
      ⟨grouping, by simp only [step, hk], by simpa only [Scanner.step, hk] using h⟩
  case line => exact absurd hk unbroken
  case tab | badEscape | textBrace | unknown => cases sound
  case term | size | decimal | code | comma =>
    exact word rfl (by simp only [Scanner.step, hk]) fun g => by simp only [step, hk]
  case parenOpen =>
    apply other (by simp)
    simpa only [Scanner.step, hk] using openParen_tracks h follows (code rfl) hk
  case parenClose =>
    apply other (by simp)
    simpa only [Scanner.step, step, hk] using closeParen_tracks h token
  case textOpen =>
    apply other (by simp)
    simp only [step, Scanner.step, hk]
    refine ⟨_, rfl, ?_, code rfl, h.nested⟩
    simp [openGroup, OpenGroup.opening?, h.openings]
  case textCut => exact other (by simp) (textStep_tracks h (text rfl) (Or.inl hk))
  case slotOpen => exact other (by simp) (textStep_tracks h (text rfl) (Or.inr (Or.inl hk)))
  case textClose => exact other (by simp) (textStep_tracks h (text rfl) (Or.inr (Or.inr hk)))
  case slotClose =>
    apply other (by simp)
    simpa only [step, hk] using closeSlot_tracks h hk

theorem read_tracks {scanner : Scanner} {grouping : Grouping} {previous : Option Token}
    {tokens : List Token} (h : Tracks scanner grouping) (follows : Follows previous grouping)
    (admitted : Admitted scanner tokens)
    (kinds : ∀ t ∈ tokens, t.kind.isFault = false ∧ t.kind ≠ .line) :
    ∃ last, grouping.read previous tokens = .ok last ∧
      Tracks (tokens.foldl Scanner.step scanner) last := by
  induction tokens generalizing scanner grouping previous with
  | nil => exact ⟨grouping, rfl, h⟩
  | cons token rest ih =>
    have ⟨first, others⟩ := List.forall_mem_cons.1 kinds
    obtain ⟨next, hs, ht, hf⟩ := step_tracks h follows admitted.1 first.1 first.2
    obtain ⟨last, hr, hl⟩ := ih ht hf admitted.2 others
    exact ⟨last, by simp [read, hs, hr, bind, Except.bind], hl⟩

theorem all_isCall_iff (groups : List OpenGroup) :
    groups.all OpenGroup.isCall = true ↔ groups.filterMap OpenGroup.opening? = [] := by
  rw [List.all_eq_true, List.filterMap_eq_nil_iff]
  have each : ∀ group : OpenGroup, group.isCall = true ↔ group.opening? = none := by
    intro group
    cases group <;> simp [OpenGroup.isCall, OpenGroup.opening?]
  simp only [each]

theorem finish_tracks {scanner : Scanner} {grouping : Grouping} (h : Tracks scanner grouping) :
    (∃ last, grouping.finish = .ok last) ↔ scanner.openings = [] := by
  rw [← h.openings, ← all_isCall_iff, finish]
  constructor
  · rintro ⟨last, hl⟩
    split at hl
    · assumption
    · cases hl
  · intro calls
    rw [if_pos calls]
    exact ⟨_, rfl⟩

/-- Grouping keeps the agreement on every line that the scanner passes on. -/
theorem ofTokens_of_unbroken {tokens : List Token} (h : Unbroken tokens) :
    ∃ grouping, ofTokens tokens = .ok grouping := by
  obtain ⟨scanner, start, admitted, closed⟩ := h.closed
  have begin : Tracks scanner initial := ⟨start.symm, trivial⟩
  have fresh : Follows none initial := fun _ absent => nomatch absent
  obtain ⟨last, hr, ht⟩ := read_tracks begin fresh admitted h.kinds
  rw [ofTokens, hr]
  exact (finish_tracks ht).2 closed

end Grouping

end TermOutline
