import TermOutline.Proofs.Brackets
import TermOutline.Proofs.Repeats

/-! # Brackets out of place

Grouping keeps calls, texts and slots on one stack, yet parentheses match as if every slot, and the
line outside of all slots, had a stack of its own. What grouping reports of brackets is what that
matching leaves over: closing parentheses with nothing to close, opening ones that nothing closes,
opening ones that follow no term, and closing braces outside of all slots.
-/
namespace TermOutline

/-- The tokens of a line by where they stand: in the slot that was opened last and is still open, or
outside of all slots; in each of the slots around that one, and outside of them; and in each slot
that has ended. What a slot inside a slot holds belongs to the inner one. -/
structure Contexts where
  own : List Token
  around : List (List Token)
  ended : List (List Token)

namespace Contexts

def step (contexts : Contexts) (token : Token) : Contexts :=
  match token.kind with
  | .slotOpen => ⟨[], contexts.own :: contexts.around, contexts.ended⟩
  | .slotClose =>
    match contexts.around with
    | [] => { contexts with own := contexts.own ++ [token] }
    | outer :: around => ⟨outer, around, contexts.own :: contexts.ended⟩
  | _ => { contexts with own := contexts.own ++ [token] }

def all (contexts : Contexts) : List (List Token) :=
  contexts.own :: (contexts.around ++ contexts.ended)

end Contexts

def contexts (line : List Token) : Contexts := line.foldl Contexts.step ⟨[], [], []⟩

/-- What is wrong with the brackets of a line. -/
inductive BracketProblem (line : List Token) : Finding → Prop where
  | unmatchedParen {context : List Token} {token : Token} (member : context ∈ (contexts line).all)
      (unopened : Brackets.parens.Unopened context token) :
      BracketProblem line ⟨.unmatchedParen, token.span⟩
  | openParen {context : List Token} {token : Token} (member : context ∈ (contexts line).all)
      (unclosed : Brackets.parens.Unclosed context token) :
      BracketProblem line ⟨.openParen, token.span⟩
  | detachedParen {before after : List Token} {token : Token}
      (split : line = before ++ token :: after) (kind : token.kind = .parenOpen)
      (left : ∀ last ∈ before.getLast?, last.kind ≠ .term) :
      BracketProblem line ⟨.detachedParen, token.span⟩
  | unmatchedBrace {token : Token} (unopened : Brackets.slots.Unopened line token) :
      BracketProblem line ⟨.unmatchedBrace, token.span⟩

/-- What a token shows to be wrong with the brackets of a line so far. -/
inductive FoundAt (line : List Token) (token : Token) : Finding → Prop where
  | unmatchedParen (kind : token.kind = .parenClose)
      (none : Brackets.parens.pending (contexts line).own = []) :
      FoundAt line token ⟨.unmatchedParen, token.span⟩
  | openParen {opening : Token} (kind : token.kind = .slotClose)
      (inside : (contexts line).around ≠ [])
      (member : opening ∈ Brackets.parens.pending (contexts line).own) :
      FoundAt line token ⟨.openParen, opening.span⟩
  | detachedParen (kind : token.kind = .parenOpen)
      (left : ∀ last ∈ line.getLast?, last.kind ≠ .term) :
      FoundAt line token ⟨.detachedParen, token.span⟩
  | unmatchedBrace (kind : token.kind = .slotClose) (outside : (contexts line).around = []) :
      FoundAt line token ⟨.unmatchedBrace, token.span⟩

/-- What the tokens of a line show one after the other. -/
def Found (line : List Token) (finding : Finding) : Prop :=
  ∃ before token after, line = before ++ token :: after ∧ FoundAt before token finding

variable {line : List Token} {token : Token}

theorem found_concat {finding : Finding} :
    Found (line ++ [token]) finding ↔ Found line finding ∨ FoundAt line token finding := by
  constructor
  · rintro ⟨before, other, after, split, found⟩
    rcases eq_or_front_of_concat split with ⟨rfl, rfl, _⟩ | ⟨rest, rfl, rfl⟩
    · exact Or.inr found
    · exact Or.inl ⟨before, other, rest, rfl, found⟩
  · rintro (⟨before, other, after, rfl, found⟩ | found)
    · exact ⟨before, other, after ++ [token], by simp, found⟩
    · exact ⟨line, token, [], rfl, found⟩

theorem FoundAt.kind {finding : Finding} (h : FoundAt line token finding) :
    token.kind = .parenOpen ∨ token.kind = .parenClose ∨ token.kind = .slotClose := by
  cases h with
  | detachedParen kind => exact Or.inl kind
  | unmatchedParen kind => exact Or.inr (Or.inl kind)
  | openParen kind | unmatchedBrace kind => exact Or.inr (Or.inr kind)

theorem contexts_concat (line : List Token) (token : Token) :
    contexts (line ++ [token]) = (contexts line).step token := List.foldl_append

theorem contexts_concat_own (opens : token.kind ≠ .slotOpen) (closes : token.kind ≠ .slotClose) :
    contexts (line ++ [token]) = { contexts line with own := (contexts line).own ++ [token] } := by
  rw [contexts_concat, Contexts.step]
  split
  · exact absurd ‹_› opens
  · exact absurd ‹_› closes
  · rfl

theorem contexts_concat_open (opens : token.kind = .slotOpen) :
    contexts (line ++ [token]) =
      ⟨[], (contexts line).own :: (contexts line).around, (contexts line).ended⟩ := by
  rw [contexts_concat, Contexts.step, opens]

theorem contexts_concat_close {outer : List Token} {around : List (List Token)}
    (closes : token.kind = .slotClose) (inside : (contexts line).around = outer :: around) :
    contexts (line ++ [token]) = ⟨outer, around, (contexts line).own :: (contexts line).ended⟩ := by
  rw [contexts_concat, Contexts.step, closes]
  dsimp only
  rw [inside]

/-- Where a slot ends no context is lost. -/
theorem mem_contexts_close {outer context : List Token} {around : List (List Token)}
    (closes : token.kind = .slotClose) (inside : (contexts line).around = outer :: around) :
    context ∈ (contexts (line ++ [token])).all ↔ context ∈ (contexts line).all := by
  rw [contexts_concat_close closes inside, Contexts.all, Contexts.all, inside]
  exact (@List.perm_middle _ _ (outer :: around) _).mem_iff

theorem contexts_concat_stray (closes : token.kind = .slotClose)
    (outside : (contexts line).around = []) :
    contexts (line ++ [token]) = { contexts line with own := (contexts line).own ++ [token] } := by
  rw [contexts_concat, Contexts.step, closes]
  dsimp only
  rw [outside]

theorem contexts_depth (line : List Token) :
    (contexts line).around.length = (Brackets.slots.pending line).length := by
  induction line using List.reverseRecOn with
  | nil => rfl
  | append_singleton line token ih =>
    by_cases opens : token.kind = .slotOpen
    · rw [contexts_concat_open opens, Brackets.pending_concat,
        Brackets.step_opens (by rw [opens]; decide), List.length_cons, List.length_cons, ih]
    by_cases closes : token.kind = .slotClose
    · have proper := Brackets.slots_proper (line ++ [token])
      rw [proper.pending_closes (by rw [closes]; decide), List.length_tail, ← ih]
      cases around : (contexts line).around with
      | nil =>
        rw [contexts_concat_stray closes around, around]
        rfl
      | cons outer around =>
        rw [contexts_concat_close closes ‹_›]
        rfl
    · rw [contexts_concat_own opens closes, Brackets.pending_concat, Brackets.step_other, ih]
      · simpa [Brackets.Opens, Brackets.slots] using opens
      · simpa [Brackets.Closes, Brackets.slots] using closes

/-- Outside of all slots nothing is open that a brace could close. -/
theorem around_eq_nil_iff (line : List Token) :
    (contexts line).around = [] ↔ Brackets.slots.pending line = [] := by
  rw [← List.length_eq_zero_iff, contexts_depth, List.length_eq_zero_iff]

/-! ## What the tokens show -/

theorem found_detached {span : Span} : Found line ⟨.detachedParen, span⟩ ↔
    ∃ before token after, line = before ++ token :: after ∧ token.kind = .parenOpen ∧
      (∀ last ∈ before.getLast?, last.kind ≠ .term) ∧ token.span = span := by
  constructor
  · rintro ⟨before, token, after, split, found⟩
    cases found with
    | detachedParen kind left => exact ⟨before, token, after, split, kind, left, rfl⟩
  · rintro ⟨before, token, after, split, kind, left, rfl⟩
    exact ⟨before, token, after, split, .detachedParen kind left⟩

theorem found_brace {span : Span} : Found line ⟨.unmatchedBrace, span⟩ ↔
    ∃ token, Brackets.slots.Unopened line token ∧ token.span = span := by
  have outside (before : List Token) : (contexts before).around = [] ↔
      ∀ opening, ¬Brackets.slots.Innermost before opening := by
    rw [around_eq_nil_iff]
    exact Brackets.pending_eq_nil_iff (Brackets.slots_proper before)
  constructor
  · rintro ⟨before, token, after, split, found⟩
    cases found with
    | unmatchedBrace kind none =>
      exact ⟨token, ⟨before, after, split, by rw [kind]; decide, (outside before).1 none⟩, rfl⟩
  · rintro ⟨token, ⟨before, after, split, closes, none⟩, rfl⟩
    have kind : token.kind = .slotClose := by simpa [Brackets.Closes, Brackets.slots] using closes
    exact ⟨before, token, after, split, .unmatchedBrace kind ((outside before).2 none)⟩

/-- A closing parenthesis in some context that nothing in the context opens. -/
def UnopenedIn (contexts : List (List Token)) (span : Span) : Prop :=
  ∃ context ∈ contexts, ∃ token, Brackets.parens.Unopened context token ∧ token.span = span

theorem unopenedIn_cons {context : List Token} {others : List (List Token)} {span : Span} :
    UnopenedIn (context :: others) span ↔
      (∃ token, Brackets.parens.Unopened context token ∧ token.span = span) ∨
        UnopenedIn others span := by
  simp [UnopenedIn]

theorem unopenedIn_concat (own : List Token) (others : List (List Token)) (span : Span) :
    UnopenedIn ((own ++ [token]) :: others) span ↔ UnopenedIn (own :: others) span ∨
      token.kind = .parenClose ∧ Brackets.parens.pending own = [] ∧ token.span = span := by
  have closes : Brackets.parens.Closes token.kind ↔ token.kind = .parenClose := by
    simp [Brackets.Closes, Brackets.parens]
  simp only [unopenedIn_cons, Brackets.unopened_concat (Brackets.parens_proper own), closes]
  constructor
  · rintro (⟨closing, old | ⟨rfl, kind, none⟩, place⟩ | later)
    · exact Or.inl (Or.inl ⟨closing, old, place⟩)
    · exact Or.inr ⟨kind, none, place⟩
    · exact Or.inl (Or.inr later)
  · rintro ((⟨closing, old, place⟩ | later) | ⟨kind, none, place⟩)
    · exact Or.inl ⟨closing, Or.inl old, place⟩
    · exact Or.inr later
    · exact Or.inl ⟨token, Or.inr ⟨rfl, kind, none⟩, place⟩

theorem found_unmatched {span : Span} :
    Found line ⟨.unmatchedParen, span⟩ ↔ UnopenedIn (contexts line).all span := by
  have blank : ¬∃ token, Brackets.parens.Unopened [] token ∧ token.span = span := by
    rintro ⟨token, ⟨front, back, split, _⟩, _⟩
    exact absurd split.symm (List.append_ne_nil_of_right_ne_nil _ (List.cons_ne_nil _ _))
  induction line using List.reverseRecOn with
  | nil =>
    constructor
    · rintro ⟨before, token, after, split, _⟩
      exact absurd split.symm (List.append_ne_nil_of_right_ne_nil _ (List.cons_ne_nil _ _))
    · intro none
      rcases unopenedIn_cons.1 none with own | ⟨context, member, _⟩
      · exact absurd own blank
      · cases member
  | append_singleton line token ih =>
    have here : FoundAt line token ⟨.unmatchedParen, span⟩ ↔ token.kind = .parenClose ∧
        Brackets.parens.pending (contexts line).own = [] ∧ token.span = span := by
      constructor
      · intro found
        cases found with
        | unmatchedParen kind none => exact ⟨kind, none, rfl⟩
      · rintro ⟨kind, none, rfl⟩
        exact .unmatchedParen kind none
    rw [found_concat, or_congr ih here]
    by_cases opens : token.kind = .slotOpen
    · rw [contexts_concat_open opens]
      simp only [opens, reduceCtorEq, false_and, or_false, Contexts.all, List.cons_append]
      rw [@unopenedIn_cons [], or_iff_right blank]
    by_cases closes : token.kind = .slotClose
    · cases around : (contexts line).around with
      | nil =>
        rw [contexts_concat_stray closes around]
        exact (unopenedIn_concat _ _ span).symm
      | cons outer others =>
        simp only [closes, reduceCtorEq, false_and, or_false, UnopenedIn]
        refine exists_congr fun context => and_congr_left fun _ => ?_
        exact (mem_contexts_close closes around).symm
    · rw [contexts_concat_own opens closes]
      exact (unopenedIn_concat _ _ span).symm

/-- Parentheses still open where a slot ends have been found. -/
theorem found_open {span : Span} : Found line ⟨.openParen, span⟩ ↔
    ∃ context ∈ (contexts line).ended, ∃ token ∈ Brackets.parens.pending context,
      token.span = span := by
  induction line using List.reverseRecOn with
  | nil =>
    constructor
    · rintro ⟨before, token, after, split, _⟩
      exact absurd split.symm (List.append_ne_nil_of_right_ne_nil _ (List.cons_ne_nil _ _))
    · rintro ⟨context, member, _⟩
      cases member
  | append_singleton line token ih =>
    rw [found_concat, ih]
    have other (h : token.kind ≠ .slotClose ∨ (contexts line).around = []) :
        ¬FoundAt line token ⟨.openParen, span⟩ := by
      intro found
      cases found with
      | openParen kind inside _ => exact h.elim (absurd kind) inside
    by_cases opens : token.kind = .slotOpen
    · rw [contexts_concat_open opens]
      exact or_iff_left (other (Or.inl (by rw [opens]; decide)))
    by_cases closes : token.kind = .slotClose
    · cases around : (contexts line).around with
      | nil =>
        rw [contexts_concat_stray closes around]
        exact or_iff_left (other (Or.inr around))
      | cons outer others =>
        have here : FoundAt line token ⟨.openParen, span⟩ ↔
            ∃ opening ∈ Brackets.parens.pending (contexts line).own, opening.span = span := by
          constructor
          · intro found
            cases found with
            | openParen _ _ member => exact ⟨_, member, rfl⟩
          · rintro ⟨opening, member, rfl⟩
            exact .openParen closes (by rw [around]; exact List.cons_ne_nil _ _) member
        rw [contexts_concat_close closes around, here, List.exists_mem_cons_iff, or_comm]
    · rw [contexts_concat_own opens closes]
      exact or_iff_left (other (Or.inl closes))

/-- On a whole line the brackets out of place are those found on the way and the parentheses that
stay open. -/
theorem bracketProblem_iff (outside : (contexts line).around = []) {finding : Finding} :
    BracketProblem line finding ↔ Found line finding ∨
      ∃ opening ∈ Brackets.parens.pending (contexts line).own,
        finding = ⟨.openParen, opening.span⟩ := by
  have all : (contexts line).all = (contexts line).own :: (contexts line).ended := by
    rw [Contexts.all, outside, List.nil_append]
  constructor
  · intro problem
    cases problem with
    | unmatchedParen member unopened =>
      exact Or.inl (found_unmatched.2 ⟨_, member, _, unopened, rfl⟩)
    | openParen member unclosed =>
      have pending := Brackets.mem_pending_of_unclosed (Brackets.parens_proper _) unclosed
      rw [all] at member
      rcases List.mem_cons.1 member with rfl | ended
      · exact Or.inr ⟨_, pending, rfl⟩
      · exact Or.inl (found_open.2 ⟨_, ended, _, pending, rfl⟩)
    | detachedParen split kind left =>
      exact Or.inl (found_detached.2 ⟨_, _, _, split, kind, left, rfl⟩)
    | unmatchedBrace unopened => exact Or.inl (found_brace.2 ⟨_, unopened, rfl⟩)
  · have unclosed {context : List Token} {token : Token}
        (pending : token ∈ Brackets.parens.pending context) :=
      Brackets.unclosed_of_mem_pending (Brackets.parens_proper _) pending
    rintro (found | ⟨opening, pending, rfl⟩)
    · have shown := found
      obtain ⟨before, token, after, split, here⟩ := found
      cases here with
      | unmatchedParen =>
        obtain ⟨context, member, closing, unopened, place⟩ := found_unmatched.1 shown
        rw [← place]
        exact .unmatchedParen member unopened
      | openParen =>
        obtain ⟨context, member, opening, pending, place⟩ := found_open.1 shown
        rw [← place]
        refine .openParen ?_ (unclosed pending)
        rw [all]
        exact List.mem_cons_of_mem _ member
      | detachedParen kind left => exact .detachedParen split kind left
      | unmatchedBrace =>
        obtain ⟨closing, unopened, place⟩ := found_brace.1 shown
        rw [← place]
        exact .unmatchedBrace unopened
    · refine .openParen ?_ (unclosed pending)
      rw [all]
      exact List.mem_cons_self

/-! ## What grouping finds -/

/-- The opening parentheses of the open calls, by the slot they stand in, the innermost first. -/
def openParens : List OpenGroup → List Token × List (List Token)
  | [] => ([], [])
  | .call _ opening _ :: outer => (opening :: (openParens outer).1, (openParens outer).2)
  | .text .. :: outer => openParens outer
  | .slot .. :: outer => ([], (openParens outer).1 :: (openParens outer).2)

theorem openParens_calls {calls rest : List OpenGroup} (h : ∀ group ∈ calls, group.isCall = true) :
    openParens (calls ++ rest) =
      (calls.map OpenGroup.opening ++ (openParens rest).1, (openParens rest).2) := by
  induction calls with
  | nil => rfl
  | cons group outer ih =>
    obtain ⟨call, others⟩ := List.forall_mem_cons.1 h
    cases group with
    | call head opening held => rw [List.cons_append, openParens, ih others]; rfl
    | text => cases call
    | slot => cases call

theorem unclosed_calls {calls : List OpenGroup} (h : ∀ group ∈ calls, group.isCall = true)
    (finding : Finding) : finding ∈ calls.reverse.filterMap OpenGroup.unclosed? ↔
      ∃ opening ∈ calls.map OpenGroup.opening, finding = ⟨.openParen, opening.span⟩ := by
  have each : ∀ group ∈ calls, group.unclosed? = some ⟨.openParen, group.opening.span⟩ := by
    intro group member
    have call := h group member
    cases group with
    | call head opening held => rfl
    | text => cases call
    | slot => cases call
  rw [List.mem_filterMap]
  constructor
  · rintro ⟨group, member, unclosed⟩
    have inside := List.mem_reverse.1 member
    rw [each group inside] at unclosed
    cases unclosed
    exact ⟨_, List.mem_map_of_mem inside, rfl⟩
  · rintro ⟨opening, member, rfl⟩
    obtain ⟨group, inside, rfl⟩ := List.mem_map.1 member
    exact ⟨group, List.mem_reverse.2 inside, each group inside⟩

namespace Grouping

variable {grouping next : Grouping}

@[simp] theorem setInnermost_openParens (grouping : Grouping) (held : List Item) :
    openParens (grouping.setInnermost held).groups = openParens grouping.groups := by
  rcases grouping with ⟨items, _ | ⟨_ | _ | _, outer⟩, findings⟩ <;> rfl

theorem place_openParens {items : List Item} (hp : grouping.place items = .ok next) :
    openParens next.groups = openParens grouping.groups := by
  obtain ⟨held, _, rfl⟩ := place_cases hp
  exact setInnermost_openParens _ _

/-- Between a text and the calls around it there is a slot. -/
theorem calls_around_text {calls outer : List OpenGroup} {opening : Token} {pieces : List Piece}
    (h : ∀ group ∈ calls, group.isCall = true)
    (nested : Nested (calls ++ .text opening pieces :: outer)) :
    ¬inText (calls ++ .text opening pieces :: outer) = false := by
  induction calls with
  | nil => exact nofun
  | cons group rest ih =>
    obtain ⟨call, others⟩ := List.forall_mem_cons.1 h
    cases group with
    | call head opening held => exact absurd nested.1 (ih others nested.2)
    | text => cases call
    | slot => cases call

/-- Grouping has the parentheses open that the contexts leave open, and has found of brackets what
the tokens show. -/
structure Matched (line : List Token) (grouping : Grouping) : Prop where
  own : (openParens grouping.groups).1 = Brackets.parens.pending (contexts line).own
  around : (openParens grouping.groups).2 = (contexts line).around.map Brackets.parens.pending
  findings : ∀ finding, finding.fault.isBracket = true →
    (finding ∈ grouping.findings ↔ Found line finding)

section

variable (h : Matched line grouping)

include h

theorem Matched.extend {added : List Finding}
    (own : (openParens next.groups).1 = Brackets.parens.pending (contexts (line ++ [token])).own)
    (around : (openParens next.groups).2 =
      (contexts (line ++ [token])).around.map Brackets.parens.pending)
    (findings : next.findings = grouping.findings ++ added)
    (found : ∀ finding, finding.fault.isBracket = true →
      (finding ∈ added ↔ FoundAt line token finding)) : Matched (line ++ [token]) next := by
  refine ⟨own, around, fun finding bracket => ?_⟩
  rw [findings, List.mem_append, found_concat, h.findings finding bracket, found finding bracket]

theorem Matched.other (kind : token.kind ∉ [.parenOpen, .parenClose, .slotOpen, .slotClose])
    (groups : openParens next.groups = openParens grouping.groups)
    (findings : next.findings = grouping.findings) : Matched (line ++ [token]) next := by
  simp only [List.mem_cons, List.not_mem_nil, or_false, not_or] at kind
  have same := @contexts_concat_own line token kind.2.2.1 kind.2.2.2
  refine @Matched.extend _ _ _ _ h [] ?_ ?_ (by rw [findings, List.append_nil]) ?_
  · rw [groups, same, Brackets.pending_concat, Brackets.step_other, h.own]
    · simpa [Brackets.Opens, Brackets.parens] using kind.1
    · simpa [Brackets.Closes, Brackets.parens] using kind.2.1
  · rw [groups, same, h.around]
  · intro finding _
    refine iff_of_false List.not_mem_nil fun found => ?_
    rcases found.kind with own | own | own
    · exact kind.1 own
    · exact kind.2.1 own
    · exact kind.2.2.2 own

theorem Matched.openParen {added : List Finding} (kind : token.kind = .parenOpen)
    (own : (openParens next.groups).1 = token :: (openParens grouping.groups).1)
    (around : (openParens next.groups).2 = (openParens grouping.groups).2)
    (findings : next.findings = grouping.findings ++ added)
    (detached : ∀ finding, finding ∈ added ↔
      (∀ last ∈ line.getLast?, last.kind ≠ .term) ∧ finding = ⟨.detachedParen, token.span⟩) :
    Matched (line ++ [token]) next := by
  have same := @contexts_concat_own line token (by rw [kind]; decide) (by rw [kind]; decide)
  refine h.extend ?_ ?_ findings ?_
  · rw [own, same, Brackets.pending_concat, Brackets.step_opens (by rw [kind]; decide), h.own]
  · rw [around, same, h.around]
  · intro finding _
    rw [detached]
    constructor
    · rintro ⟨left, rfl⟩
      exact .detachedParen kind left
    · intro found
      cases found with
      | detachedParen _ left => exact ⟨left, rfl⟩
      | unmatchedParen other | openParen other | unmatchedBrace other =>
        rw [kind] at other
        cases other

theorem Matched.closeParen (kind : token.kind = .parenClose) (code : inText grouping.groups = false)
    (hp : grouping.closeParen token = .ok next) : Matched (line ++ [token]) next := by
  have same := @contexts_concat_own line token (by rw [kind]; decide) (by rw [kind]; decide)
  have pending : Brackets.parens.pending (contexts (line ++ [token])).own =
      (Brackets.parens.pending (contexts line).own).tail := by
    rw [same]
    exact (Brackets.parens_proper _).pending_closes (by rw [kind]; decide)
  have unmatched : ∀ finding, FoundAt line token finding ↔
      (openParens grouping.groups).1 = [] ∧ finding = ⟨.unmatchedParen, token.span⟩ := by
    intro finding
    rw [h.own]
    constructor
    · intro found
      cases found with
      | unmatchedParen _ none => exact ⟨none, rfl⟩
      | detachedParen other | openParen other | unmatchedBrace other =>
        rw [kind] at other
        cases other
    · rintro ⟨none, rfl⟩
      exact .unmatchedParen kind none
  unfold Grouping.closeParen at hp
  split at hp
  · next head opening held outer hg =>
    have closed : openParens next.groups = openParens outer ∧ next.findings =
        grouping.findings ++ (strayCommas true held).map fun span => ⟨.strayComma, span⟩ := by
      cases head with
      | some head => exact ⟨place_openParens hp, place_findings hp⟩
      | none => exact ⟨place_openParens hp, place_findings hp⟩
    refine h.extend ?_ ?_ closed.2 ?_
    · rw [closed.1, pending, ← h.own, hg]
      rfl
    · rw [closed.1, same, ← h.around, hg]
      rfl
    · intro finding bracket
      rw [unmatched, hg]
      refine iff_of_false ?_ fun none => List.cons_ne_nil _ _ none.1
      intro member
      obtain ⟨span, _, rfl⟩ := List.mem_map.1 member
      cases bracket
  · next calls =>
    cases hp
    have none : (openParens grouping.groups).1 = [] := by
      generalize grouping.groups = groups at calls code
      rcases groups with _ | ⟨_ | _ | _, outer⟩
      · rfl
      · exact absurd rfl (calls _ _ _ _)
      · cases code
      · rfl
    refine @Matched.extend _ _ _ _ h [⟨.unmatchedParen, token.span⟩] ?_ ?_ rfl ?_
    · rw [pending, ← h.own]
      change (openParens grouping.groups).1 = _
      rw [none]
      rfl
    · rw [same]
      exact h.around
    · intro finding _
      rw [List.mem_singleton, unmatched]
      exact ⟨fun own => ⟨none, own⟩, And.right⟩

theorem Matched.openSlot (kind : token.kind = .slotOpen)
    (hp : grouping.openSlot token = .ok next) : Matched (line ++ [token]) next := by
  unfold Grouping.openSlot at hp
  split at hp
  · cases hp
    refine @Matched.extend _ _ _ _ h [] ?_ ?_ (List.append_nil _).symm ?_
    · rw [contexts_concat_open kind]
      rfl
    · rw [contexts_concat_open kind, List.map_cons, ← h.own, ← h.around]
      rfl
    · intro finding _
      refine iff_of_false List.not_mem_nil fun found => ?_
      rcases found.kind with own | own | own <;> rw [kind] at own <;> cases own
  · cases hp

theorem Matched.closeSlot (kind : token.kind = .slotClose) (code : inText grouping.groups = false)
    (nested : Nested grouping.groups) (hp : grouping.closeSlot token = .ok next) :
    Matched (line ++ [token]) next := by
  obtain ⟨calls, rest, hg, hcalls, ended⟩ := closeSlot_cases hp
  have own := h.own
  have around := h.around
  rw [hg, openParens_calls hcalls] at own around
  rcases ended with ⟨none, rfl⟩ | ⟨opening, held, textOpening, pieces, outer, rfl, rfl⟩
  · have outside : (contexts line).around = [] := by
      rcases none with rfl | ⟨opening, pieces, outer, rfl⟩
      · exact List.map_eq_nil_iff.1 around.symm
      · rw [hg] at code nested
        exact absurd code (calls_around_text hcalls nested)
    have same := contexts_concat_stray kind outside
    refine @Matched.extend _ _ _ _ h [⟨.unmatchedBrace, token.span⟩] ?_ ?_ rfl ?_
    · rw [same, Brackets.pending_concat, Brackets.step_other (by rw [kind]; decide)
        (by rw [kind]; decide)]
      exact h.own
    · rw [same]
      exact h.around
    · intro finding _
      rw [List.mem_singleton]
      constructor
      · rintro rfl
        exact .unmatchedBrace kind outside
      · intro found
        cases found with
        | unmatchedBrace => rfl
        | openParen _ inside => exact absurd outside inside
        | detachedParen other | unmatchedParen other =>
          rw [kind] at other
          cases other
  · obtain ⟨inner, others, inside, first, tail⟩ := List.map_eq_cons_iff.1 around.symm
    have left : calls.map OpenGroup.opening = Brackets.parens.pending (contexts line).own := by
      rw [← own]
      exact (List.append_nil _).symm
    have same := contexts_concat_close kind inside
    refine h.extend ?_ ?_ (List.append_assoc _ _ _) ?_
    · rw [same]
      exact first.symm
    · rw [same]
      exact tail.symm
    · intro finding bracket
      rw [List.mem_append, unclosed_calls hcalls, left]
      constructor
      · rintro (⟨opening, member, rfl⟩ | member)
        · exact .openParen kind (by rw [inside]; exact List.cons_ne_nil _ _) member
        · obtain ⟨span, _, rfl⟩ := List.mem_map.1 member
          cases bracket
      · intro found
        cases found with
        | openParen _ _ member => exact Or.inl ⟨_, member, rfl⟩
        | unmatchedBrace _ outside =>
          rw [inside] at outside
          cases outside
        | detachedParen other | unmatchedParen other =>
          rw [kind] at other
          cases other

theorem Matched.step {scanner : Scanner} {previous : Option Token}
    (tracks : Tracks scanner grouping)
    (before : (∃ last ∈ previous, last.kind = .term) ↔ ∃ last ∈ line.getLast?, last.kind = .term)
    (admitted : scanner.mode.admits token.kind = true)
    (hs : grouping.step previous token = .ok next) : Matched (line ++ [token]) next := by
  -- what the scanner does not admit in a text is read outside of texts
  have code : Mode.admits .text token.kind = false → inText grouping.groups = false := by
    intro other
    rw [tracks_mode tracks] at admitted
    cases text : inText grouping.groups with
    | false => rfl
    | true => simp [text, other] at admitted
  cases kind : token.kind <;> simp only [Grouping.step, kind] at hs <;> rw [kind] at code
  case tab | badEscape | textBrace | unknown => cases hs
  case space | line =>
    cases hs
    exact h.other (by rw [kind]; decide) rfl rfl
  case term | size | decimal | code | comma =>
    exact h.other (by rw [kind]; decide) (place_openParens hs) (place_findings hs)
  case parenOpen =>
    split at hs
    · next follows =>
      have term : ∃ last ∈ line.getLast?, last.kind = .term := by
        obtain ⟨last, same, kind⟩ := Option.any_eq_true _ _ |>.1 follows
        exact before.1 ⟨last, same, of_decide_eq_true kind⟩
      obtain ⟨held, head, _, _, rfl⟩ := openCall_cases hs
      refine @Matched.openParen _ _ _ _ h [] kind ?_ ?_ ?_ ?_
      · change token :: (openParens (grouping.setInnermost held).groups).1 = _
        rw [setInnermost_openParens]
      · change (openParens (grouping.setInnermost held).groups).2 = _
        rw [setInnermost_openParens]
      · exact (setInnermost_findings grouping held).trans (List.append_nil _).symm
      · intro finding
        refine iff_of_false List.not_mem_nil fun detached => ?_
        obtain ⟨last, same, kind⟩ := term
        exact detached.1 last same kind
    · next follows =>
      cases hs
      have left : ∀ last ∈ line.getLast?, last.kind ≠ .term := by
        intro last same kind
        obtain ⟨other, same, kind⟩ := before.2 ⟨last, same, kind⟩
        refine follows (Option.any_eq_true _ _ |>.2 ⟨other, same, ?_⟩)
        exact decide_eq_true kind
      refine h.openParen kind rfl rfl rfl ?_
      intro finding
      rw [List.mem_singleton]
      exact ⟨fun own => ⟨left, own⟩, And.right⟩
  case parenClose => exact h.closeParen kind (code rfl) hs
  case textOpen =>
    cases hs
    exact h.other (by rw [kind]; decide) rfl rfl
  case textCut =>
    unfold Grouping.addCut at hs
    split at hs
    · next groups =>
      cases hs
      exact h.other (by rw [kind]; decide) (by rw [groups]; rfl) rfl
    · cases hs
  case textClose =>
    unfold Grouping.closeText at hs
    split at hs
    · next groups =>
      have findings := place_findings hs
      refine h.other (by rw [kind]; decide) ?_ findings
      rw [place_openParens hs, groups]
      rfl
    · cases hs
  case slotOpen => exact h.openSlot kind hs
  case slotClose => exact h.closeSlot kind (code rfl) tracks.nested hs

end

theorem read_matched {scanner : Scanner} {previous : Option Token} {tokens : List Token}
    (h : Matched line grouping) (tracks : Tracks scanner grouping)
    (follows : Follows previous grouping)
    (before : (∃ last ∈ previous, last.kind = .term) ↔ ∃ last ∈ line.getLast?, last.kind = .term)
    (admitted : Admitted scanner tokens)
    (kinds : ∀ token ∈ tokens, token.kind.isFault = false ∧ token.kind ≠ .line)
    (hr : grouping.read previous tokens = .ok next) : Matched (line ++ tokens) next := by
  induction tokens generalizing scanner grouping previous line with
  | nil =>
    cases hr
    rw [List.append_nil]
    exact h
  | cons token rest ih =>
    obtain ⟨first, others⟩ := List.forall_mem_cons.1 kinds
    obtain ⟨middle, hs, hr⟩ := read_cons hr
    obtain ⟨next', hs', tracks', follows'⟩ := step_tracks tracks follows admitted.1 first.1 first.2
    rw [hs] at hs'
    cases hs'
    rw [List.append_cons]
    refine ih (h.step tracks before admitted.1 hs) tracks' follows' ?_ admitted.2 others hr
    rw [List.getLast?_concat]

theorem Matched.trivia {tokens : List Token} (h : Matched line grouping)
    (trivia : ∀ token ∈ tokens, token.isTrivia = true) : Matched (line ++ tokens) grouping := by
  induction tokens generalizing line with
  | nil =>
    rw [List.append_nil]
    exact h
  | cons token rest ih =>
    obtain ⟨first, others⟩ := List.forall_mem_cons.1 trivia
    rw [List.append_cons]
    refine ih (h.other ?_ rfl rfl) others
    rw [Token.isTrivia] at first
    cases kind : token.kind <;> rw [kind] at first <;> first | decide | cases first

theorem Matched.start : Matched [] initial := by
  refine ⟨rfl, rfl, fun finding _ => iff_of_false List.not_mem_nil ?_⟩
  rintro ⟨before, token, after, split, _⟩
  exact absurd split.symm (List.append_ne_nil_of_right_ne_nil _ (List.cons_ne_nil _ _))

theorem no_term_of_trivia {lead : List Token} (leading : ∀ token ∈ lead, token.isTrivia = true) :
    (∃ last ∈ (none : Option Token), last.kind = .term) ↔
      ∃ last ∈ lead.getLast?, last.kind = .term := by
  refine iff_of_false (by simp) ?_
  rintro ⟨last, final, term⟩
  have gap := leading last (List.mem_of_getLast? final)
  rw [Token.isTrivia, term] at gap
  cases gap

/-- When a line has been read, only the parentheses outside of all slots are still open. -/
theorem Matched.outside (matched : Matched line grouping)
    (calls : ∀ group ∈ grouping.groups, group.isCall = true) :
    (contexts line).around = [] ∧
      grouping.groups.map OpenGroup.opening = Brackets.parens.pending (contexts line).own := by
  have levels := @openParens_calls grouping.groups [] calls
  rw [List.append_nil] at levels
  have own := matched.own
  have around := matched.around
  rw [levels] at own around
  refine ⟨List.map_eq_nil_iff.1 around.symm, ?_⟩
  rw [← own]
  exact (List.append_nil _).symm

section

variable {lead trail tokens : List Token} (unbroken : Unbroken tokens)
  (leading : ∀ token ∈ lead, token.isTrivia = true)
  (trailing : ∀ token ∈ trail, token.isTrivia = true)

include unbroken leading trailing

theorem read_line_matched (hr : initial.read none tokens = .ok grouping) :
    Matched (lead ++ tokens ++ trail) grouping := by
  obtain ⟨scanner, start, admitted, closed⟩ := unbroken.closed
  have begin : Tracks scanner initial := ⟨start.symm, trivial⟩
  have fresh : Follows none initial := fun _ absent => nomatch absent
  have read := read_matched (Matched.start.trivia leading) begin fresh (no_term_of_trivia leading)
    admitted unbroken.kinds hr
  exact read.trivia trailing

theorem ofTokens_brackets (hr : ofTokens tokens = .ok grouping) {finding : Finding}
    (bracket : finding.fault.isBracket = true) :
    finding ∈ grouping.findings ↔ BracketProblem (lead ++ tokens ++ trail) finding := by
  obtain ⟨last, hread, calls, rfl⟩ := ofTokens_cases hr
  have matched := read_line_matched unbroken leading trailing hread
  obtain ⟨outside, left⟩ := matched.outside calls
  rw [List.mem_append, matched.findings finding bracket, unclosed_calls calls, left,
    bracketProblem_iff outside]

end

end Grouping

/-! ## Lines and documents -/

theorem mem_ofTokens? {settings : Settings} {line : List Token}
    {result : Option (Line × List Finding)} (h : Line.ofTokens? settings line = .ok result)
    {finding : Finding}
    (indented : finding ∉ indentFindings (indentSpan line) settings.indentWidth) :
    (∃ pair ∈ result, finding ∈ pair.2) ↔
      ∃ grouping, Grouping.ofTokens (trimTrivia line) = .ok grouping ∧
        (finding ∈ grouping.findings ∨
          ∃ span ∈ lineStrayCommas grouping.items, finding = ⟨.strayComma, span⟩) := by
  obtain ⟨blank, rfl⟩ | ⟨first, rest, grouping, trimmed, hg, rfl⟩ := Line.ofTokens?_cases h
  · have empty : Grouping.ofTokens [] = .ok .initial := rfl
    simp [blank, empty, Grouping.initial, lineStrayCommas]
  · rw [trimmed]
    simp [hg, indented, eq_comm]

/-- Everything found in the lines of tokens, odd indentations apart, is found while the tokens of a
line are grouped or is a stray comma of the line. -/
theorem mem_readLines {settings : Settings} {tokens : List Token}
    {pairs : List (Line × List Finding)}
    (h : readLines settings tokens = .ok pairs) {finding : Finding}
    (indented : ∀ width unit, finding.fault ≠ .oddIndent width unit) :
    finding ∈ pairs.flatMap Prod.snd ↔
      ∃ line ∈ splitLines tokens, ∃ grouping, Grouping.ofTokens (trimTrivia line) = .ok grouping ∧
        (finding ∈ grouping.findings ∨
          ∃ span ∈ lineStrayCommas grouping.items, finding = ⟨.strayComma, span⟩) := by
  have even : ∀ line, finding ∉ indentFindings (indentSpan line) settings.indentWidth := by
    intro line member
    rw [indentFindings] at member
    split at member
    · cases member
    · cases List.mem_singleton.1 member
      exact indented _ _ rfl
  obtain ⟨results, each, rfl⟩ := readLines_cases h
  constructor
  · intro member
    obtain ⟨pair, made, inside⟩ := List.mem_flatMap.1 member
    obtain ⟨result, among, same⟩ := List.mem_filterMap.1 made
    obtain ⟨line, found, read⟩ := forall₂_mem_right each among
    exact ⟨line, found, (mem_ofTokens? read (even line)).1 ⟨pair, same, inside⟩⟩
  · rintro ⟨line, found, grouped⟩
    obtain ⟨result, among, read⟩ := forall₂_mem_right each.flip found
    obtain ⟨pair, same, inside⟩ := (mem_ofTokens? read (even line)).2 grouped
    exact List.mem_flatMap.2 ⟨pair, List.mem_filterMap.2 ⟨result, among, same⟩, inside⟩

theorem readLines_brackets {settings : Settings} {text : Source} (faultless : Faultless text.tokens)
    (closed : Closed .initial text.tokens) {pairs : List (Line × List Finding)}
    (h : readLines settings text.tokens = .ok pairs) {finding : Finding}
    (bracket : finding.fault.isBracket = true) :
    finding ∈ pairs.flatMap Prod.snd ↔
      ∃ line ∈ splitLines text.tokens, BracketProblem line finding := by
  have indented : ∀ width unit, finding.fault ≠ .oddIndent width unit := by
    intro width unit odd
    rw [odd] at bracket
    cases bracket
  rw [mem_readLines h indented]
  refine exists_congr fun line => and_congr_right fun member => ?_
  have unbroken := splitLines_unbroken faultless closed member
  obtain ⟨lead, trail, split, leading, trailing⟩ := trimTrivia_split line
  obtain ⟨grouping, grouped⟩ := Grouping.ofTokens_of_unbroken unbroken
  have shown := Grouping.ofTokens_brackets unbroken leading trailing grouped bracket
  rw [← split] at shown
  rw [← shown]
  constructor
  · rintro ⟨other, same, found | ⟨span, _, rfl⟩⟩
    · rw [grouped] at same
      cases same
      exact found
    · cases bracket
  · exact fun found => ⟨grouping, grouped, Or.inl found⟩

def bracketCodes : List String :=
  ["unmatched_paren", "open_paren", "detached_paren", "unmatched_brace"]

theorem Fault.isBracket_iff (fault : Fault) :
    fault.isBracket = true ↔ fault.code ∈ bracketCodes := by
  cases fault <;> simp [isBracket, code, bracketCodes]

theorem readLines_brackets_once {settings : Settings} {text : Source}
    {pairs : List (Line × List Finding)} (h : readLines settings text.tokens = .ok pairs) :
    ((pairs.flatMap Prod.snd).filter fun finding => finding.fault.code ∈ bracketCodes).Nodup := by
  refine List.nodup_iff_count_le_one.2 fun finding => ?_
  by_cases bracket : finding.fault.code ∈ bracketCodes
  · rw [List.count_filter (by simpa using bracket)]
    have plain : ∀ line ∈ splitLines text.tokens, ¬Excused line finding.mark := by
      intro line _ excused
      have stray : finding.fault.code = Fault.strayComma.code := excused.1
      rw [stray] at bracket
      exact absurd bracket (by decide)
    exact Nat.le_trans (List.count_le_count_map) (readLines_counted h plain).once
  · have none : finding ∉ (pairs.flatMap Prod.snd).filter
        fun finding => finding.fault.code ∈ bracketCodes := by
      intro member
      exact bracket (by simpa using (List.mem_filter.1 member).2)
    rw [List.count_eq_zero.2 none]
    exact Nat.zero_le _

/-- Findings that name exactly the brackets out of place, each of them once for each code. -/
structure BracketReport (tokens : List Token) (findings : List Finding) : Prop where
  once : (findings.filter fun finding => finding.fault.code ∈ bracketCodes).Nodup
  complete : ∀ finding, finding.fault.code ∈ bracketCodes →
    (finding ∈ findings ↔ ∃ line ∈ splitLines tokens, BracketProblem line finding)

/-- A result passed on when nothing is found, or else refused with the report of what is found. It
never breaks the agreement between the stages. -/
def Reports {α : Type} (file : String) (findings : List Finding) : Except Failure α → Prop
  | .ok _ => findings = []
  | .error (.rejected report) => report.toList = findings.map fun finding => finding.diagnostic file
  | .error (.broken _) => False

theorem reports_of_reported? {α : Type} {file : String} {findings : List Finding}
    {result : Except Failure α}
    (h : reported? result = some (findings.map fun finding => finding.diagnostic file)) :
    Reports file findings result := by
  rcases result with (report | breach) | value
  · exact Option.some.inj h
  · cases h
  · exact List.map_eq_nil_iff.1 (Option.some.inj h).symm

theorem reports_accept {α : Type} (document : Document) (findings : List Finding) (result : α) :
    ∃ listed : List Finding, listed.Perm findings ∧
      (listed.Pairwise fun one other => one.span.start ≤ other.span.start) ∧
      Reports document.file listed
        ((document.accept findings result).mapError Failure.rejected) := by
  have order := ordered_insertionSort (fun finding : Finding => finding.span.start) findings
  refine ⟨_, order.perm, order.sorted, reports_of_reported? ?_⟩
  rw [reported?_mapError, reported_accept]
  exact congrArg some ((sortByStart_ordered _).unique (Ordered.map _ order))

theorem group_reports {document : Document} {tokens : List Token}
    (h : document.tokenize = .ok tokens) (settings : Settings) :
    tokens = document.text.tokens ∧ ∃ pairs findings, readLines settings tokens = .ok pairs ∧
      findings.Perm (pairs.flatMap Prod.snd) ∧
      Reports document.file findings (document.group settings tokens) := by
  obtain ⟨rfl, pairs, read, _⟩ := readLines_of_tokenize h settings
  have order := ordered_insertionSort (fun finding : Finding => finding.span.start)
    (pairs.flatMap Prod.snd)
  have reports := (group_of_readLines read document.file document.text).1
  rw [(sortByStart_ordered _).unique (Ordered.map _ order)] at reports
  exact ⟨rfl, pairs, _, read, order.perm, reports_of_reported? reports⟩

/-- Of brackets, grouping reports exactly those out of place. -/
theorem group_diagnoses_brackets {document : Document} {tokens : List Token}
    (h : document.tokenize = .ok tokens) (settings : Settings) :
    ∃ findings, BracketReport tokens findings ∧
      Reports document.file findings (document.group settings tokens) := by
  obtain ⟨rfl, pairs, findings, read, perm, reports⟩ := group_reports h settings
  obtain ⟨faultless, closed⟩ := (tokenize_eq_ok_iff document).1 h
  refine ⟨findings, ⟨?_, ?_⟩, reports⟩
  · exact (perm.filter _).nodup_iff.2 (readLines_brackets_once read)
  · intro finding bracket
    rw [perm.mem_iff]
    exact readLines_brackets faultless closed read ((Fault.isBracket_iff _).2 bracket)

theorem group_diagnoses_brackets_at : ∃ findings : List Finding,
    ⟨.unmatchedParen, ⟨0, 1⟩⟩ ∈ findings ∧ ⟨.detachedParen, ⟨1, 2⟩⟩ ∈ findings ∧
      Reports "" findings (Document.group ⟨"", [')', '(']⟩ .default
        [⟨.parenClose, [')'], 0⟩, ⟨.parenOpen, ['('], 1⟩]) := by
  have tokenized : Document.tokenize ⟨"", [')', '(']⟩ =
      .ok [⟨.parenClose, [')'], 0⟩, ⟨.parenOpen, ['('], 1⟩] := by decide
  obtain ⟨findings, report, reports⟩ := group_diagnoses_brackets tokenized .default
  refine ⟨findings, (report.complete _ (by decide)).2 ⟨_, List.mem_cons_self, ?_⟩,
    (report.complete _ (by decide)).2 ⟨_, List.mem_cons_self, ?_⟩, reports⟩
  · refine @BracketProblem.unmatchedParen _ _ ⟨.parenClose, [')'], 0⟩ List.mem_cons_self ?_
    refine ⟨[], _, rfl, by decide, ?_⟩
    exact (Brackets.pending_eq_nil_iff (Brackets.parens_proper [])).1 rfl
  · exact @BracketProblem.detachedParen _ [⟨.parenClose, [')'], 0⟩] [] ⟨.parenOpen, ['('], 1⟩
      rfl rfl (by decide)

end TermOutline
