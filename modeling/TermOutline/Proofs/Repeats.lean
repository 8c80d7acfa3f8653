import TermOutline.Proofs.Counting
import TermOutline.Proofs.Grammar
import TermOutline.Proofs.Histories

/-! # What is found twice

Grouping checks the commas of a list when the list ends. What a parenthesis without a term holds is
handed on to the list around it, so its commas are checked again there, and a stray one is found
twice. Nothing else is: everything that grouping finds, or has yet to find, is charged to the tokens
it has read, and only those commas are charged more than once.
-/
namespace TermOutline

/-! ## Commas of a list -/

def commas (items : List Item) : List Token := items.filterMap Item.comma?

theorem commas_append (front back : List Item) :
    commas (front ++ back) = commas front ++ commas back := List.filterMap_append

theorem strayCommas_sublist : ∀ (afterComma : Bool) (items : List Item),
    (strayCommas afterComma items).Sublist ((commas items).map Token.span)
  | _, [] => .refl _
  | afterComma, [item] => by
    cases hc : item.comma? with
    | none => simp [strayCommas, repeatedCommas, finalComma, commas, hc]
    | some comma =>
      cases afterComma <;> simp [strayCommas, repeatedCommas, finalComma, commas, hc]
  | afterComma, [item, next] => by
    cases hc : item.comma? with
    | none =>
      cases hn : next.comma? <;>
        simp [strayCommas, repeatedCommas, finalComma, commas, Item.isComma, hc, hn]
    | some comma =>
      cases afterComma <;> cases hn : next.comma? <;>
        simp [strayCommas, repeatedCommas, finalComma, commas, Item.isComma, hc, hn]
  | afterComma, item :: next :: other :: rest => by
    have tail (after : Bool) := strayCommas_sublist after (next :: other :: rest)
    cases hc : item.comma? with
    | none =>
      have same : strayCommas afterComma (item :: next :: other :: rest) =
          strayCommas false (next :: other :: rest) := by
        rw [strayCommas, repeatedCommas, finalComma_cons, hc, strayCommas]
      have skipped : commas (item :: next :: other :: rest) = commas (next :: other :: rest) := by
        rw [commas, List.filterMap_cons_none hc, commas]
      rw [same, skipped]
      exact tail false
    | some comma =>
      have first : commas (item :: next :: other :: rest) =
          comma :: commas (next :: other :: rest) := by
        rw [commas, List.filterMap_cons_some hc, commas]
      rw [first, List.map_cons, strayCommas, repeatedCommas, finalComma_cons, hc]
      cases afterComma with
      | false => exact (tail true).cons _
      | true => exact (tail true).cons_cons _

theorem lineStrayCommas_sublist (items : List Item) :
    (lineStrayCommas items).Sublist ((commas items).map Token.span) := by
  cases items with
  | nil => exact .refl _
  | cons head rest =>
    rw [lineStrayCommas]
    cases hc : head.comma? with
    | none =>
      rw [commas, List.filterMap_cons_none hc]
      exact strayCommas_sublist false rest
    | some comma =>
      rw [commas, List.filterMap_cons_some hc]
      exact (strayCommas_sublist true rest).cons_cons _

/-- The marks that stray commas at the given spans would have. -/
def commaMarks (spans : List Span) : List (String × Span) :=
  spans.map fun span => (Fault.strayComma.code, span)

/-- What may yet be found in a list. -/
def heldMarks (items : List Item) : List (String × Span) :=
  commaMarks ((commas items).map Token.span)

theorem heldMarks_append (front back : List Item) :
    heldMarks (front ++ back) = heldMarks front ++ heldMarks back := by
  simp [heldMarks, commaMarks, commas_append]

theorem mem_heldMarks {items : List Item} {mark : String × Span} (h : mark ∈ heldMarks items) :
    ∃ comma ∈ commas items, comma.kind = .comma ∧ mark = (Fault.strayComma.code, comma.span) := by
  obtain ⟨span, member, rfl⟩ := List.mem_map.1 h
  obtain ⟨comma, found, rfl⟩ := List.mem_map.1 member
  obtain ⟨item, _, hc⟩ := List.mem_filterMap.1 found
  exact ⟨comma, found, (comma?_eq_some hc).2, rfl⟩

theorem strayCommas_count (afterComma : Bool) (items : List Item) (mark : String × Span) :
    (commaMarks (strayCommas afterComma items)).count mark ≤ (heldMarks items).count mark :=
  ((strayCommas_sublist afterComma items).map _).count_le mark

/-! ## What grouping has found and may yet find -/

def OpenGroup.opening : OpenGroup → Token
  | .call _ opening _ => opening
  | .text opening _ => opening
  | .slot opening _ => opening

/-- The commas of the list that a group holds. -/
def OpenGroup.commas : OpenGroup → List Token
  | .call _ _ held => TermOutline.commas held
  | .text .. => []
  | .slot _ held => TermOutline.commas held

/-- A parenthesis that follows no term. -/
def OpenGroup.isDetached : OpenGroup → Bool
  | .call none _ _ => true
  | _ => false

/-- What may yet be found in a group. -/
def OpenGroup.pending : OpenGroup → List (String × Span)
  | .call _ opening held => (Fault.openParen.code, opening.span) :: heldMarks held
  | .text .. => []
  | .slot _ held => heldMarks held

namespace Grouping

/-- Everything that has been found or may yet be found in what has been read. -/
def book (grouping : Grouping) : List (String × Span) :=
  grouping.findings.map Finding.mark ++
    (heldMarks grouping.items ++ grouping.groups.flatMap OpenGroup.pending)

variable {grouping next : Grouping} {mark : String × Span}

theorem book_report (fault : Fault) (span : Span) :
    (grouping.report fault span).book.count mark =
      grouping.book.count mark + [(fault.code, span)].count mark := by
  simp only [book, report, List.map_append, List.count_append]
  change _ + [(fault.code, span)].count mark + _ = _
  omega

theorem book_reportCommas (spans : List Span) :
    (grouping.reportCommas spans).book.count mark =
      grouping.book.count mark + (commaMarks spans).count mark := by
  have marks : (spans.map fun span => (⟨.strayComma, span⟩ : Finding)).map Finding.mark =
      commaMarks spans := by
    rw [List.map_map]
    rfl
  simp only [book, reportCommas, List.map_append, List.count_append, marks]
  omega

theorem book_openGroup (group : OpenGroup) :
    (grouping.openGroup group).book.count mark =
      grouping.book.count mark + group.pending.count mark := by
  simp only [book, openGroup, List.flatMap_cons, List.count_append]
  omega

theorem book_setInnermost {held : List Item} (hi : grouping.innermost = .ok held)
    (items : List Item) :
    (grouping.setInnermost items).book.count mark + (heldMarks held).count mark =
      grouping.book.count mark + (heldMarks items).count mark := by
  rcases grouping with ⟨root, _ | ⟨⟨head, opening, old⟩ | _ | ⟨opening, old⟩, outer⟩, findings⟩ <;>
    cases hi <;>
    simp only [book, setInnermost, List.flatMap_cons, OpenGroup.pending, List.count_append,
      List.count_cons] <;>
    omega

theorem book_place {items : List Item} (hp : grouping.place items = .ok next) :
    next.book.count mark = grouping.book.count mark + (heldMarks items).count mark := by
  obtain ⟨held, hi, rfl⟩ := place_cases hp
  have changed := @book_setInnermost _ mark _ hi (held ++ items)
  rw [heldMarks_append, List.count_append] at changed
  omega

end Grouping

/-! ## Where groups were opened -/

/-- A comma between a parenthesis that follows no term and a closing one. -/
def Spilled (line : List Token) (comma : Token) : Prop :=
  ∃ before opening inside closing after,
    line = before ++ opening :: (inside ++ closing :: after) ∧ opening.kind = .parenOpen ∧
      (∀ token ∈ before.getLast?, token.kind ≠ .term) ∧ comma ∈ inside ∧ comma.kind = .comma ∧
      closing.kind = .parenClose

/-- The marks of stray commas that may come up more than once. -/
def Excused (line : List Token) (mark : String × Span) : Prop :=
  mark.1 = Fault.strayComma.code ∧ ∃ comma, Spilled line comma ∧ mark.2 = comma.span

theorem Excused.append {read : List Token} {mark : String × Span} (h : Excused read mark)
    (more : List Token) : Excused (read ++ more) mark := by
  obtain ⟨code, comma, ⟨before, opening, inside, closing, after, rfl, rest⟩, span⟩ := h
  refine ⟨code, comma, ⟨before, opening, inside, closing, after ++ more, ?_, rest⟩, span⟩
  simp

theorem Excused.lead {read : List Token} {mark : String × Span} (h : Excused read mark)
    {lead : List Token} (trivia : ∀ token ∈ lead, token.isTrivia = true) :
    Excused (lead ++ read) mark := by
  obtain ⟨code, comma, spilled, span⟩ := h
  obtain ⟨before, opening, inside, closing, after, rfl, kind, detached, rest⟩ := spilled
  refine ⟨code, comma, ⟨lead ++ before, opening, inside, closing, after, ?_, kind, ?_, rest⟩, span⟩
  · simp
  · intro token last
    rw [List.getLast?_append] at last
    cases before with
    | nil =>
      have blank := trivia token (List.mem_of_getLast? (by simpa using last))
      intro term
      rw [Token.isTrivia, term] at blank
      cases blank
    | cons first others =>
      refine detached token ?_
      simpa [List.getLast?_cons] using last

/-- Open groups, the innermost first, with what has been read: each was opened behind everything
that the groups around it hold, its own commas come later, and before a detached parenthesis there
is no term. -/
def Opened : List Token → List OpenGroup → Prop
  | _, [] => True
  | read, group :: outer => ∃ before inside, read = before ++ group.opening :: inside ∧
      (∀ comma ∈ group.commas, comma ∈ inside) ∧
      (group.isDetached = true → group.opening.kind = .parenOpen ∧
        ∀ token ∈ before.getLast?, token.kind ≠ .term) ∧
      Opened before outer

theorem Opened.append {read : List Token} {groups : List OpenGroup} (h : Opened read groups)
    (more : List Token) : Opened (read ++ more) groups := by
  cases groups with
  | nil => trivial
  | cons group outer =>
    obtain ⟨before, inside, rfl, held, detached, opened⟩ := h
    refine ⟨before, inside ++ more, ?_, ?_, detached, opened⟩
    · simp
    · intro comma member
      exact List.mem_append_left _ (held comma member)

theorem Opened.outer {read : List Token} {group : OpenGroup} {outer : List OpenGroup}
    (h : Opened read (group :: outer)) : Opened read outer := by
  obtain ⟨before, inside, rfl, _, _, opened⟩ := h
  exact opened.append _

theorem Opened.drop {read : List Token} {groups : List OpenGroup} (h : Opened read groups)
    (count : Nat) : Opened read (groups.drop count) := by
  induction count generalizing groups with
  | zero => exact h
  | succ count ih =>
    cases groups with
    | nil => trivial
    | cons group outer => exact ih h.outer

/-- The innermost group holds other commas, all of them from what is read now or before. -/
theorem Opened.replace {read more : List Token} {group changed : OpenGroup}
    {outer : List OpenGroup} (h : Opened read (group :: outer))
    (opening : changed.opening = group.opening) (detached : changed.isDetached = group.isDetached)
    (held : ∀ comma ∈ changed.commas, comma ∈ group.commas ∨ comma ∈ more) :
    Opened (read ++ more) (changed :: outer) := by
  obtain ⟨before, inside, rfl, own, alone, opened⟩ := h
  refine ⟨before, inside ++ more, ?_, ?_, ?_, opened⟩
  · rw [opening]
    simp
  · intro comma member
    rcases held comma member with old | new
    · exact List.mem_append_left _ (own comma old)
    · exact List.mem_append_right _ new
  · rw [opening, detached]
    exact alone

theorem Opened.openGroup {read : List Token} {groups : List OpenGroup} (h : Opened read groups)
    {group : OpenGroup} (none : group.commas = [])
    (detached : group.isDetached = true → group.opening.kind = .parenOpen ∧
      ∀ token ∈ read.getLast?, token.kind ≠ .term) :
    Opened (read ++ [group.opening]) (group :: groups) :=
  ⟨read, [], rfl, by simp [none], detached, h⟩

namespace Grouping

variable {grouping next : Grouping} {read more : List Token}

theorem setInnermost_opened {held items : List Item} (h : Opened read grouping.groups)
    (hi : grouping.innermost = .ok held)
    (commas : ∀ comma ∈ commas items, comma ∈ TermOutline.commas held ∨ comma ∈ more) :
    Opened (read ++ more) (grouping.setInnermost items).groups := by
  rcases grouping with ⟨root, _ | ⟨⟨head, opening, old⟩ | _ | ⟨opening, old⟩, outer⟩, findings⟩ <;>
    cases hi
  · trivial
  · cases head with
    | none => exact h.replace rfl rfl commas
    | some head => exact h.replace rfl rfl commas
  · exact h.replace rfl rfl commas

theorem place_opened {items : List Item} (h : Opened read grouping.groups)
    (hp : grouping.place items = .ok next) (commas : ∀ comma ∈ commas items, comma ∈ more) :
    Opened (read ++ more) next.groups := by
  obtain ⟨held, hi, rfl⟩ := place_cases hp
  refine setInnermost_opened h hi ?_
  intro comma member
  rw [commas_append] at member
  rcases List.mem_append.1 member with old | new
  · exact Or.inl old
  · exact Or.inr (commas comma new)

theorem unclosed_sublist (groups : List OpenGroup) :
    ((groups.filterMap OpenGroup.unclosed?).map Finding.mark).Sublist
      (groups.flatMap OpenGroup.pending) := by
  induction groups with
  | nil => exact .refl _
  | cons group outer ih =>
    rw [List.flatMap_cons]
    cases group with
    | call head opening held => exact (ih.trans (List.sublist_append_right _ _)).cons_cons _
    | text opening pieces => exact ih
    | slot opening held => exact ih.trans (List.sublist_append_right _ _)

theorem unclosed_count (groups : List OpenGroup) (mark : String × Span) :
    ((groups.reverse.filterMap OpenGroup.unclosed?).map Finding.mark).count mark ≤
      (groups.flatMap OpenGroup.pending).count mark := by
  have turned := ((List.reverse_perm groups).filterMap OpenGroup.unclosed?).map Finding.mark
  rw [turned.count_eq]
  exact (unclosed_sublist groups).count_le mark

/-- What grouping has found and may yet find is charged to the tokens it has read. -/
structure Tallied (read : List Token) (grouping : Grouping) : Prop where
  opened : Opened read grouping.groups
  counted : ∀ mark, ¬Excused read mark →
    grouping.book.count mark ≤ (read.map Token.start).count mark.2.start

theorem count_at (code : String) (token : Token) (mark : String × Span) :
    [(code, token.span)].count mark ≤ [token.start].count mark.2.start :=
  @List.count_le_count_map _ _ _ _ _ _ [(code, token.span)] (fun mark => mark.2.start) mark

/-- Marks at one token that differ in their codes. -/
theorem count_two_at {code other : String} (differ : code ≠ other) (token : Token)
    (mark : String × Span) :
    [(code, token.span)].count mark + [(other, token.span)].count mark ≤
      [token.start].count mark.2.start := by
  by_cases first : mark = (code, token.span)
  · subst first
    have second : [(other, token.span)].count (code, token.span) = 0 := by
      refine List.count_eq_zero.2 ?_
      simp [differ]
    rw [second]
    exact count_at code token _
  · have none : [(code, token.span)].count mark = 0 := by
      refine List.count_eq_zero.2 ?_
      simpa using first
    rw [none, Nat.zero_add]
    exact count_at other token mark

section

variable {token : Token} (h : Tallied read grouping)

include h

theorem Tallied.charge (opened : Opened (read ++ [token]) next.groups)
    (counted : ∀ mark, ¬Excused (read ++ [token]) mark →
      next.book.count mark ≤ grouping.book.count mark + [token.start].count mark.2.start) :
    Tallied (read ++ [token]) next := by
  refine ⟨opened, ?_⟩
  intro mark plain
  have before := h.counted mark fun excused => plain (excused.append [token])
  have after := counted mark plain
  rw [List.map_append, List.count_append]
  exact Nat.le_trans after (Nat.add_le_add_right before _)

theorem Tallied.skip : Tallied (read ++ [token]) grouping :=
  h.charge (h.opened.append [token]) fun _ _ => Nat.le_add_right _ _

theorem Tallied.report (fault : Fault) :
    Tallied (read ++ [token]) (grouping.report fault token.span) := by
  refine h.charge (h.opened.append [token]) ?_
  intro mark _
  rw [book_report]
  exact Nat.add_le_add_left (count_at fault.code token mark) _

theorem Tallied.word (hp : grouping.place [.token token] = .ok next) :
    Tallied (read ++ [token]) next := by
  refine h.charge (place_opened h.opened hp ?_) ?_
  · intro comma member
    cases hc : (Item.token token).comma? with
    | none => simp [commas, hc] at member
    | some own =>
      obtain ⟨same, _⟩ := comma?_eq_some hc
      cases same
      simpa [commas, hc] using member
  · intro mark _
    rw [book_place hp]
    refine Nat.add_le_add_left ?_ _
    cases hc : (Item.token token).comma? with
    | none => simp [heldMarks, commas, commaMarks, hc]
    | some own =>
      obtain ⟨same, _⟩ := comma?_eq_some hc
      cases same
      have held : heldMarks [.token token] = [(Fault.strayComma.code, token.span)] := by
        simp [heldMarks, commas, commaMarks, hc]
      rw [held]
      exact count_at _ token mark

theorem Tallied.openGroup {group : OpenGroup} (opening : group.opening = token)
    (none : group.commas = [])
    (detached : group.isDetached = true → group.opening.kind = .parenOpen ∧
      ∀ token ∈ read.getLast?, token.kind ≠ .term)
    (charged : ∀ mark, group.pending.count mark ≤ [token.start].count mark.2.start) :
    Tallied (read ++ [token]) (grouping.openGroup group) := by
  refine h.charge (opening ▸ h.opened.openGroup none detached) ?_
  intro mark _
  rw [book_openGroup]
  exact Nat.add_le_add_left (charged mark) _

theorem Tallied.openCall (hp : grouping.openCall token = .ok next) :
    Tallied (read ++ [token]) next := by
  obtain ⟨held, head, hi, kind, rfl⟩ := openCall_cases hp
  have fewer (mark : String × Span) : (heldMarks held).count mark ≤
      (heldMarks (held ++ [.token head])).count mark := by
    rw [heldMarks_append, List.count_append]
    exact Nat.le_add_right _ _
  have shrunk : Tallied read (grouping.setInnermost held) := by
    refine ⟨?_, ?_⟩
    · rw [← List.append_nil read]
      refine setInnermost_opened h.opened hi ?_
      intro comma member
      rw [commas_append]
      exact Or.inl (List.mem_append_left _ member)
    · intro mark plain
      have changed := @book_setInnermost _ mark _ hi held
      have before := h.counted mark plain
      have less := fewer mark
      omega
  exact shrunk.openGroup rfl rfl nofun fun mark => count_at _ token mark

theorem Tallied.openDetached (previous : ∀ token ∈ read.getLast?, token.kind ≠ .term)
    (kind : token.kind = .parenOpen) :
    Tallied (read ++ [token])
      ((grouping.report .detachedParen token.span).openGroup (.call none token [])) := by
  refine h.charge (@Opened.openGroup _ _ h.opened (.call none token []) rfl
    fun _ => ⟨kind, previous⟩) ?_
  intro mark _
  have both := count_two_at (by decide : Fault.detachedParen.code ≠ Fault.openParen.code) token mark
  rw [book_openGroup, book_report, Nat.add_assoc]
  exact Nat.add_le_add_left both _

/-- What a call holds is looked through once more only when the call is detached. -/
theorem Tallied.closeParen (kind : token.kind = .parenClose)
    (hp : grouping.closeParen token = .ok next) : Tallied (read ++ [token]) next := by
  unfold Grouping.closeParen at hp
  split at hp
  · next head opening held outer hg =>
    have groups := h.opened
    rw [hg] at groups
    obtain ⟨before, inside, split, commas, detached, opened⟩ := groups
    have stray (mark : String × Span) := strayCommas_count true held mark
    have closed (mark : String × Span) :
        ({ grouping with groups := outer }.reportCommas (strayCommas true held)).book.count mark ≤
          grouping.book.count mark := by
      have old : grouping.book.count mark = { grouping with groups := outer }.book.count mark +
          (OpenGroup.call head opening held).pending.count mark := by
        simp only [book, hg, List.flatMap_cons, List.count_append]
        omega
      have less := stray mark
      rw [book_reportCommas, old, OpenGroup.pending, List.count_cons]
      omega
    have whole : read ++ [token] = before ++ (opening :: (inside ++ [token])) := by
      rw [split]
      simp [OpenGroup.opening]
    cases head with
    | some head =>
      refine h.charge ?_ ?_
      · rw [whole]
        exact place_opened opened hp (by simp [TermOutline.commas, Item.comma?])
      · intro mark _
        rw [book_place hp]
        exact Nat.le_add_right_of_le (closed mark)
    | none =>
      refine h.charge ?_ ?_
      · rw [whole]
        refine place_opened opened hp ?_
        intro comma member
        exact List.mem_cons_of_mem _ (List.mem_append_left _ (commas comma member))
      · intro mark plain
        -- The commas that are handed on are all excused.
        have none : (heldMarks held).count mark = 0 := by
          refine List.count_eq_zero.2 ?_
          intro member
          apply plain
          obtain ⟨comma, found, comma_kind, rfl⟩ := mem_heldMarks member
          obtain ⟨opens, alone⟩ := detached rfl
          refine ⟨rfl, comma, ⟨before, opening, inside, token, [], whole, opens, alone, ?_⟩, rfl⟩
          exact ⟨commas comma found, comma_kind, kind⟩
        rw [book_place hp, none]
        exact Nat.le_add_right_of_le (closed mark)
  · rw [Except.ok.injEq] at hp
    subst hp
    exact h.report .unmatchedParen

theorem Tallied.closeSlot (hp : grouping.closeSlot token = .ok next) :
    Tallied (read ++ [token]) next := by
  unfold Grouping.closeSlot at hp
  split at hp
  · rw [Except.ok.injEq] at hp
    subst hp
    exact h.report .unmatchedBrace
  · next calls _ =>
    dsimp only at hp
    split at hp
    · next opening held around pieces outer hd =>
      rw [Except.ok.injEq] at hp
      subst hp
      refine h.charge ?_ ?_
      · have text := (h.opened.drop calls)
        rw [hd] at text
        exact text.outer.replace rfl rfl (by simp [OpenGroup.commas])
      · intro mark _
        have unclosed := unclosed_count (grouping.groups.take calls) mark
        have stray := strayCommas_count true held mark
        have old : (grouping.groups.flatMap OpenGroup.pending).count mark =
            ((grouping.groups.take calls).flatMap OpenGroup.pending).count mark +
              ((heldMarks held).count mark + (outer.flatMap OpenGroup.pending).count mark) := by
          conv_lhs => rw [← List.take_append_drop calls grouping.groups, hd]
          simp [OpenGroup.pending]
        rw [book_reportCommas, book, book, List.map_append]
        simp only [List.count_append, List.flatMap_cons, old, OpenGroup.pending, List.count_nil]
        omega
    · cases hp
    · cases hp

theorem Tallied.addCut (hp : grouping.addCut token = .ok next) :
    Tallied (read ++ [token]) next := by
  unfold Grouping.addCut at hp
  split at hp
  · next opening pieces outer hg =>
    rw [Except.ok.injEq] at hp
    subst hp
    have opened := h.opened
    rw [hg] at opened
    refine h.charge (opened.replace rfl rfl (by simp [OpenGroup.commas])) ?_
    intro mark _
    simp [book, hg, OpenGroup.pending]
  · cases hp

theorem Tallied.closeText (hp : grouping.closeText token = .ok next) :
    Tallied (read ++ [token]) next := by
  unfold Grouping.closeText at hp
  split at hp
  · next opening pieces outer hg =>
    have opened := h.opened
    rw [hg] at opened
    refine h.charge (place_opened opened.outer hp (by simp [commas, Item.comma?])) ?_
    intro mark _
    have none : heldMarks [.text opening pieces token] = [] := rfl
    rw [book_place hp, none]
    simp [book, hg, OpenGroup.pending]
  · cases hp

theorem Tallied.openSlot (hp : grouping.openSlot token = .ok next) :
    Tallied (read ++ [token]) next := by
  unfold Grouping.openSlot at hp
  split at hp
  · rw [Except.ok.injEq] at hp
    subst hp
    exact h.openGroup rfl rfl nofun fun _ => Nat.zero_le _
  · cases hp

/-- One step charges nothing but the token it reads. -/
theorem Tallied.step (hs : grouping.step read.getLast? token = .ok next) :
    Tallied (read ++ [token]) next := by
  cases hk : token.kind <;> simp only [Grouping.step, hk] at hs
  case tab | badEscape | textBrace | unknown => cases hs
  case space | line =>
    cases hs
    exact h.skip
  case term | size | decimal | code | comma => exact h.word hs
  case parenOpen =>
    split at hs
    · exact h.openCall hs
    · next detached =>
      cases hs
      refine h.openDetached ?_ hk
      intro before last term
      apply detached
      rw [last]
      simpa using term
  case parenClose => exact h.closeParen hk hs
  case textOpen =>
    cases hs
    exact h.openGroup rfl rfl nofun fun _ => Nat.zero_le _
  case textCut => exact h.addCut hs
  case textClose => exact h.closeText hs
  case slotOpen => exact h.openSlot hs
  case slotClose => exact h.closeSlot hs

end

theorem read_tallied {tokens : List Token} {last : Grouping} (h : Tallied read grouping)
    (hr : grouping.read read.getLast? tokens = .ok last) : Tallied (read ++ tokens) last := by
  induction tokens generalizing grouping read with
  | nil =>
    cases hr
    rw [List.append_nil]
    exact h
  | cons token rest ih =>
    obtain ⟨middle, hs, hr⟩ := read_cons hr
    rw [List.append_cons]
    refine ih (h.step hs) ?_
    rw [List.getLast?_concat]
    exact hr

theorem ofTokens_counted {tokens : List Token} {mark : String × Span}
    (hr : ofTokens tokens = .ok grouping) (plain : ¬Excused tokens mark) :
    (grouping.findings.map Finding.mark).count mark +
        (commaMarks (lineStrayCommas grouping.items)).count mark ≤
      (tokens.map Token.start).count mark.2.start := by
  simp only [ofTokens, bind, Except.bind] at hr
  split at hr
  · cases hr
  · next last hread =>
    have start : Tallied [] initial := ⟨trivial, fun _ _ => Nat.zero_le _⟩
    have tallied := read_tallied start hread
    simp only [finish] at hr
    split at hr
    · cases hr
      have charged := tallied.counted mark plain
      have unclosed := unclosed_count last.groups mark
      -- the commas that the items still hold have not been charged yet
      have stray : (commaMarks (lineStrayCommas last.items)).count mark ≤
          (heldMarks last.items).count mark :=
        ((lineStrayCommas_sublist last.items).map _).count_le mark
      simp only [book, List.nil_append, List.count_append] at charged
      simp only [List.map_append, List.count_append]
      omega
    · cases hr

end Grouping

/-! ## Lines and documents -/

theorem trimTrivia_sublist (tokens : List Token) : (trimTrivia tokens).Sublist tokens := by
  obtain ⟨lead, trail, split, _, _⟩ := trimTrivia_split tokens
  have part := (List.sublist_append_right lead (trimTrivia tokens)).trans
    (List.sublist_append_left _ trail)
  rw [← split] at part
  exact part

theorem Excused.line {tokens : List Token} {mark : String × Span}
    (h : Excused (trimTrivia tokens) mark) : Excused tokens mark := by
  obtain ⟨lead, trail, split, trivia, _⟩ := trimTrivia_split tokens
  rw [split]
  exact (h.lead trivia).append trail

theorem indentFindings_counted (tokens : List Token) (unit : Nat) (mark : String × Span) :
    ((indentFindings (indentSpan tokens) unit).map Finding.mark).count mark +
        ((trimTrivia tokens).map Token.start).count mark.2.start ≤
      (tokens.map Token.start).count mark.2.start := by
  rw [indentFindings]
  by_cases even : (indentSpan tokens).length % unit = 0
  · rw [if_pos even]
    refine Nat.le_trans (Nat.le_of_eq (Nat.zero_add _)) ?_
    exact ((trimTrivia_sublist tokens).map Token.start).count_le _
  · have indented : (indentSpan tokens).length ≠ 0 := by
      intro none
      rw [none] at even
      exact even (Nat.zero_mod unit)
    obtain ⟨space, rest, rfl, trivia, place⟩ := indentSpan_space indented
    have core : trimTrivia (space :: rest) = trimTrivia rest := by
      rw [trimTrivia, List.dropWhile_cons_of_pos trivia, trimTrivia]
    rw [if_neg even, place, core]
    change _ ≤ ([space.start] ++ rest.map Token.start).count mark.2.start
    rw [List.count_append]
    exact Nat.add_le_add (Grouping.count_at _ space mark)
      (((trimTrivia_sublist rest).map Token.start).count_le _)

theorem ofTokens?_counted {settings : Settings} {tokens : List Token} {mark : String × Span}
    {line : Line} {findings : List Finding} (plain : ¬Excused tokens mark)
    (h : Line.ofTokens? settings tokens = .ok (some (line, findings))) :
    Counted findings tokens mark := by
  obtain ⟨_, ⟨⟩⟩ | ⟨first, rest, grouping, trimmed, hg, made⟩ := Line.ofTokens?_cases h
  cases made
  rw [← trimmed] at hg
  have own := Grouping.ofTokens_counted hg fun excused => plain excused.line
  have indent := indentFindings_counted tokens settings.indentWidth mark
  have marks : ((lineStrayCommas grouping.items).map
      fun span => (⟨.strayComma, span⟩ : Finding)).map Finding.mark =
        commaMarks (lineStrayCommas grouping.items) := by
    rw [List.map_map]
    rfl
  rw [Counted, List.map_append, List.map_append, List.count_append, List.count_append, marks]
  omega

theorem lines_counted {settings : Settings} {mark : String × Span} {bodies : List (List Token)}
    {results : List (Option (Line × List Finding))}
    (h : List.Forall₂ (fun body result => Line.ofTokens? settings body = .ok result) bodies results)
    (plain : ∀ body ∈ bodies, ¬Excused body mark) :
    Counted ((results.filterMap id).flatMap Prod.snd) bodies.flatten mark := by
  induction h with
  | nil => exact Nat.le_refl _
  | @cons body result bodies results read _ ih =>
    obtain ⟨first, others⟩ := List.forall_mem_cons.1 plain
    have tail := ih others
    rw [List.flatten_cons]
    cases result with
    | none => exact tail.mono (List.sublist_append_right _ _)
    | some pair => exact (ofTokens?_counted first read).append tail

theorem readLines_counted {settings : Settings} {tokens : List Token} {mark : String × Span}
    {pairs : List (Line × List Finding)} (h : readLines settings tokens = .ok pairs)
    (plain : ∀ line ∈ splitLines tokens, ¬Excused line mark) :
    Counted (pairs.flatMap Prod.snd) tokens mark := by
  obtain ⟨results, each, rfl⟩ := readLines_cases h
  have charged := lines_counted each plain
  rw [splitLines_flatten] at charged
  exact charged

theorem findings_once (document : Document) (settings : Settings) {mark : String × Span}
    (plain : ∀ line ∈ splitLines document.text.tokens, ¬Excused line mark) :
    ((document.findings settings).map Finding.mark).count mark ≤ 1 := by
  have stage := foundBy_findings document settings
  generalize document.findings settings = findings at stage
  cases stage with
  | scanning found => exact (lexicalFindings_counted document.text.tokens mark).once
  | grouping faultless closed read found => exact (readLines_counted read plain).once
  | nesting faultless closed read => exact (treeFindings_counted read document.text mark).once

theorem pairwise_of_count {α β : Type} [BEq β] [LawfulBEq β] {P : β → Prop} {f : α → β}
    {list : List α} (h : ∀ b, ¬P b → (list.map f).count b ≤ 1) :
    list.Pairwise fun one other => f one = f other → P (f one) := by
  induction list with
  | nil => exact .nil
  | cons a rest ih =>
    rw [List.pairwise_cons]
    constructor
    · intro b member same
      by_contra plain
      have once := h (f a) plain
      have again : 0 < (rest.map f).count (f a) := by
        refine List.count_pos_iff.2 ?_
        rw [same]
        exact List.mem_map_of_mem member
      rw [List.map_cons, List.count_cons_self] at once
      omega
    · apply ih
      intro b plain
      exact Nat.le_trans ((List.sublist_cons_self _ _).count_le b) (h b plain)

/-- The report of a refused document names nothing twice, by code and span, but stray commas between
a parenthesis that follows no term and a closing one. -/
theorem report_repeats_spilled {document : Document} {settings : Settings} {failure : Failure}
    (h : document.parse settings = .error failure) :
    ∃ report : Report, failure = .rejected report ∧ report.toList.Pairwise fun one other =>
      one.code = other.code → one.span = other.span → one.code = "stray_comma" ∧
        ∃ line ∈ splitLines document.text.tokens, ∃ comma, Spilled line comma ∧
          one.span = comma.span := by
  obtain ⟨report, same, listed⟩ := parse_refused h
  refine ⟨report, same, ?_⟩
  let mark (diagnostic : Diagnostic) : String × Span := (diagnostic.code, diagnostic.span)
  have counted : ∀ key, ¬(∃ line ∈ splitLines document.text.tokens, Excused line key) →
      (report.toList.map mark).count key ≤ 1 := by
    intro key plain
    have perm := (sortByStart_ordered
      ((document.findings settings).map fun finding => finding.diagnostic document.file)).perm
    rw [listed, (perm.map mark).count_eq, List.map_map]
    exact findings_once document settings fun line member excused => plain ⟨line, member, excused⟩
  refine (pairwise_of_count counted).imp ?_
  intro one other excused code span
  obtain ⟨line, member, stray, comma, spilled, place⟩ := excused (Prod.ext code span)
  exact ⟨stray, line, member, comma, spilled, place⟩

/-- A comma that is alone in a detached parenthesis is named twice. -/
theorem report_names_comma_twice : ∃ report : Report,
    Document.parse ⟨"", ['a', ' ', 'b', ' ', '(', ',', ')']⟩ .default = .error (.rejected report) ∧
      ¬report.toList.Pairwise fun one other =>
        ¬(one.code = other.code ∧ one.span = other.span) := by
  refine ⟨⟨Finding.diagnostic ⟨.detachedParen, ⟨4, 5⟩⟩ "",
    [Finding.diagnostic ⟨.strayComma, ⟨5, 6⟩⟩ "",
      Finding.diagnostic ⟨.strayComma, ⟨5, 6⟩⟩ ""]⟩, ?_, ?_⟩
  · decide +kernel
  · decide

/-- So this comma is between a parenthesis that follows no term and a closing one. -/
theorem report_repeats_spilled_at :
    ∃ line ∈ splitLines (Source.tokens ['a', ' ', 'b', ' ', '(', ',', ')']), ∃ comma,
      Spilled line comma ∧ comma.span = ⟨5, 6⟩ := by
  have refused : Document.parse ⟨"", ['a', ' ', 'b', ' ', '(', ',', ')']⟩ .default =
      .error (.rejected ⟨Finding.diagnostic ⟨.detachedParen, ⟨4, 5⟩⟩ "",
        [Finding.diagnostic ⟨.strayComma, ⟨5, 6⟩⟩ "",
          Finding.diagnostic ⟨.strayComma, ⟨5, 6⟩⟩ ""]⟩) := by
    decide +kernel
  obtain ⟨report, same, repeats⟩ := report_repeats_spilled refused
  cases same
  have twice := (List.pairwise_cons.1 (List.pairwise_cons.1 repeats).2).1 _ List.mem_cons_self
  obtain ⟨_, line, member, comma, spilled, place⟩ := twice rfl rfl
  exact ⟨line, member, comma, spilled, place.symm⟩

end TermOutline
