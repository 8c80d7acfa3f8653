import Mathlib.Data.List.Induction
import Mathlib.Data.Nat.Init
import TermOutline.Token.Basic

/-! # Matching brackets

Brackets match last in, first out. A closing bracket belongs to an opening one when everything
opened between them is closed between them. Reading from left to right with a stack of what is open
finds the same: what is on the stack at the end is what nothing closes, and a closing bracket that
meets an empty stack closes nothing.
-/
namespace TermOutline

theorem eq_or_front_of_concat {α : Type} {list front back : List α} {final element : α}
    (h : list ++ [final] = front ++ element :: back) :
    (front = list ∧ element = final ∧ back = []) ∨
      ∃ rest, back = rest ++ [final] ∧ list = front ++ element :: rest := by
  rcases List.eq_nil_or_concat back with rfl | ⟨rest, last, rfl⟩
  · obtain ⟨rfl, same⟩ := List.append_inj' h rfl
    cases same
    exact Or.inl ⟨rfl, rfl, rfl⟩
  · rw [List.concat_eq_append, ← List.cons_append, ← List.append_assoc] at h
    obtain ⟨rfl, same⟩ := List.append_inj' h rfl
    cases same
    exact Or.inr ⟨rest, List.concat_eq_append, rfl⟩

/-- Kinds of token that open a group, each with the kind that closes it. -/
structure Brackets where
  pairs : List (TokenKind × TokenKind)
  apart : ∀ pair ∈ pairs, ∀ other ∈ pairs, pair.1 ≠ other.2 := by decide

namespace Brackets

def parens : Brackets where
  pairs := [(.parenOpen, .parenClose)]

def slots : Brackets where
  pairs := [(.slotOpen, .slotClose)]

/-- The brackets of texts and of the slots in them. -/
def texts : Brackets where
  pairs := [(.textOpen, .textClose), (.slotOpen, .slotClose)]

def Opens (brackets : Brackets) (kind : TokenKind) : Prop :=
  kind ∈ brackets.pairs.map Prod.fst

def Closes (brackets : Brackets) (kind : TokenKind) : Prop :=
  kind ∈ brackets.pairs.map Prod.snd

instance (brackets : Brackets) (kind : TokenKind) : Decidable (brackets.Opens kind) :=
  inferInstanceAs (Decidable (kind ∈ brackets.pairs.map Prod.fst))

instance (brackets : Brackets) (kind : TokenKind) : Decidable (brackets.Closes kind) :=
  inferInstanceAs (Decidable (kind ∈ brackets.pairs.map Prod.snd))

/-- Tokens that close what they open, and nothing else. -/
inductive Balanced (brackets : Brackets) : List Token → Prop where
  | nil : Balanced brackets []
  | other {token : Token} {rest : List Token} (opens : ¬brackets.Opens token.kind)
      (closes : ¬brackets.Closes token.kind) (tail : Balanced brackets rest) :
      Balanced brackets (token :: rest)
  | group {opening closing : Token} {inner rest : List Token}
      (pair : (opening.kind, closing.kind) ∈ brackets.pairs) (inside : Balanced brackets inner)
      (tail : Balanced brackets rest) :
      Balanced brackets (opening :: (inner ++ closing :: rest))

/-- The innermost of the groups that are open after some tokens begins at `opening`. -/
def Innermost (brackets : Brackets) (tokens : List Token) (opening : Token) : Prop :=
  ∃ front inner, tokens = front ++ opening :: inner ∧ brackets.Opens opening.kind ∧
    brackets.Balanced inner

/-- One bracket is closed by another. -/
def Matches (brackets : Brackets) (tokens : List Token) (opening closing : Token) : Prop :=
  ∃ front inner back, tokens = front ++ opening :: (inner ++ closing :: back) ∧
    (opening.kind, closing.kind) ∈ brackets.pairs ∧ brackets.Balanced inner

/-- A closing bracket where nothing is open. -/
def Unopened (brackets : Brackets) (tokens : List Token) (closing : Token) : Prop :=
  ∃ front back, tokens = front ++ closing :: back ∧ brackets.Closes closing.kind ∧
    ∀ opening, ¬brackets.Innermost front opening

/-- An opening bracket that nothing closes. -/
def Unclosed (brackets : Brackets) (tokens : List Token) (opening : Token) : Prop :=
  ∃ front back, tokens = front ++ opening :: back ∧ brackets.Opens opening.kind ∧
    ∀ inner closing rest, back = inner ++ closing :: rest → brackets.Balanced inner →
      ¬brackets.Closes closing.kind

/-- Reads a token, with the opening brackets that nothing has closed so far, the innermost first. -/
def step (brackets : Brackets) (stack : List Token) (token : Token) : List Token :=
  if brackets.Opens token.kind then token :: stack
  else match stack with
    | [] => []
    | innermost :: outer =>
      if (innermost.kind, token.kind) ∈ brackets.pairs then outer else innermost :: outer

/-- The opening brackets that the tokens leave open, the innermost first. -/
def pending (brackets : Brackets) (tokens : List Token) : List Token :=
  tokens.foldl brackets.step []

variable {brackets : Brackets} {tokens : List Token}

theorem opens_of_pair {opening closing : TokenKind} (h : (opening, closing) ∈ brackets.pairs) :
    brackets.Opens opening := List.mem_map_of_mem h

theorem closes_of_pair {opening closing : TokenKind} (h : (opening, closing) ∈ brackets.pairs) :
    brackets.Closes closing := List.mem_map_of_mem h

theorem not_opens_of_closes {kind : TokenKind} (h : brackets.Closes kind) :
    ¬brackets.Opens kind := by
  intro opens
  obtain ⟨pair, member, rfl⟩ := List.mem_map.1 opens
  obtain ⟨other, member', same⟩ := List.mem_map.1 h
  exact brackets.apart pair member other member' same.symm

theorem step_opens {token : Token} (h : brackets.Opens token.kind) (stack : List Token) :
    brackets.step stack token = token :: stack := if_pos h

theorem step_pair {opening closing : Token} (h : (opening.kind, closing.kind) ∈ brackets.pairs)
    (stack : List Token) : brackets.step (opening :: stack) closing = stack := by
  rw [step, if_neg (not_opens_of_closes (closes_of_pair h))]
  exact if_pos h

theorem step_other {token : Token} (opens : ¬brackets.Opens token.kind)
    (closes : ¬brackets.Closes token.kind) (stack : List Token) :
    brackets.step stack token = stack := by
  cases stack with
  | nil => exact if_neg opens
  | cons innermost outer =>
    rw [step, if_neg opens]
    exact if_neg fun pair => closes (closes_of_pair pair)

theorem step_nil {token : Token} (opens : ¬brackets.Opens token.kind) :
    brackets.step [] token = [] := if_neg opens

theorem pending_append (front back : List Token) :
    brackets.pending (front ++ back) = back.foldl brackets.step (brackets.pending front) :=
  List.foldl_append

theorem pending_concat (front : List Token) (token : Token) :
    brackets.pending (front ++ [token]) = brackets.step (brackets.pending front) token :=
  pending_append front [token]

/-! ## Balanced tokens -/

theorem Balanced.append {front back : List Token} (hf : brackets.Balanced front)
    (hb : brackets.Balanced back) : brackets.Balanced (front ++ back) := by
  induction hf with
  | nil => exact hb
  | other opens closes _ ih => exact .other opens closes ih
  | group pair inside _ _ ih =>
    rw [List.cons_append, List.append_assoc, List.cons_append]
    exact .group pair inside ih

theorem balanced_group {opening closing : Token} {inner : List Token}
    (pair : (opening.kind, closing.kind) ∈ brackets.pairs) (inside : brackets.Balanced inner) :
    brackets.Balanced (opening :: (inner ++ [closing])) := .group pair inside .nil

theorem Balanced.foldl (h : brackets.Balanced tokens) (stack : List Token) :
    tokens.foldl brackets.step stack = stack := by
  induction h generalizing stack with
  | nil => rfl
  | other opens closes _ ih =>
    rw [List.foldl_cons, step_other opens closes]
    exact ih stack
  | group pair _ _ inside tail =>
    rw [List.foldl_cons, step_opens (opens_of_pair pair), List.foldl_append, inside,
      List.foldl_cons, step_pair pair]
    exact tail stack

theorem Balanced.foldl_front (h : brackets.Balanced tokens) {front back : List Token}
    (split : tokens = front ++ back) :
    ∃ more, ∀ stack, front.foldl brackets.step stack = more ++ stack := by
  induction h generalizing front back with
  | nil =>
    obtain ⟨rfl, _⟩ := List.append_eq_nil_iff.1 split.symm
    exact ⟨[], fun _ => rfl⟩
  | @other token rest opens closes _ ih =>
    rcases List.cons_eq_append_iff.1 split with ⟨rfl, _⟩ | ⟨front, rfl, rest_eq⟩
    · exact ⟨[], fun _ => rfl⟩
    · obtain ⟨more, reads⟩ := ih rest_eq
      refine ⟨more, fun stack => ?_⟩
      rw [List.foldl_cons, step_other opens closes]
      exact reads stack
  | @group opening closing inner rest pair inside _ ih tail =>
    rcases List.cons_eq_append_iff.1 split with ⟨rfl, _⟩ | ⟨front, rfl, rest_eq⟩
    · exact ⟨[], fun _ => rfl⟩
    rcases List.append_eq_append_iff.1 rest_eq with ⟨later, rfl, later_eq⟩ | ⟨within, inner_eq, _⟩
    · rcases List.cons_eq_append_iff.1 later_eq with ⟨rfl, _⟩ | ⟨front, rfl, tail_eq⟩
      · refine ⟨[opening], fun stack => ?_⟩
        rw [List.foldl_cons, step_opens (opens_of_pair pair), List.append_nil, inside.foldl]
        rfl
      · obtain ⟨more, reads⟩ := tail tail_eq
        refine ⟨more, fun stack => ?_⟩
        rw [List.foldl_cons, step_opens (opens_of_pair pair), List.foldl_append, inside.foldl,
          List.foldl_cons, step_pair pair]
        exact reads stack
    · obtain ⟨more, reads⟩ := ih inner_eq
      refine ⟨more ++ [opening], fun stack => ?_⟩
      rw [List.foldl_cons, step_opens (opens_of_pair pair), reads, List.append_assoc]
      rfl

theorem Balanced.not_closes (h : brackets.Balanced tokens) {inner rest : List Token}
    {closing : Token}
    (split : tokens = inner ++ closing :: rest) (inside : brackets.Balanced inner) :
    ¬brackets.Closes closing.kind := by
  intro closes
  obtain ⟨pair, member, same⟩ := List.mem_map.1 closes
  -- A group around them, which the bracket would close.
  let opening : Token := ⟨pair.1, [], 0⟩
  have joins : (opening.kind, closing.kind) ∈ brackets.pairs := by
    rw [← same]
    exact member
  rw [List.append_cons] at split
  obtain ⟨more, reads⟩ := h.foldl_front split
  have kept := reads [opening]
  rw [List.foldl_append, inside.foldl, List.foldl_cons, step_pair joins] at kept
  exact absurd kept.symm (List.append_ne_nil_of_right_ne_nil _ (List.cons_ne_nil _ _))

theorem Balanced.closes_opened (h : brackets.Balanced tokens) {front back : List Token}
    {opening : Token} (split : tokens = front ++ opening :: back)
    (opens : brackets.Opens opening.kind) :
    ∃ inner closing rest, back = inner ++ closing :: rest ∧ brackets.Balanced inner ∧
      brackets.Closes closing.kind := by
  induction h generalizing front back with
  | nil => exact absurd split.symm (List.append_ne_nil_of_right_ne_nil _ (List.cons_ne_nil _ _))
  | other free _ _ ih =>
    rcases List.cons_eq_append_iff.1 split with ⟨rfl, first⟩ | ⟨front, rfl, rest_eq⟩
    · cases first
      exact absurd opens free
    · exact ih rest_eq
  | @group own closing inner rest pair inside _ ih tail =>
    rcases List.cons_eq_append_iff.1 split with ⟨rfl, first⟩ | ⟨front, rfl, rest_eq⟩
    · cases first
      exact ⟨inner, closing, rest, rfl, inside, closes_of_pair pair⟩
    rcases List.append_eq_append_iff.1 rest_eq with
      ⟨later, rfl, later_eq⟩ | ⟨within, inner_eq, back_eq⟩
    · rcases List.cons_eq_append_iff.1 later_eq with ⟨_, first⟩ | ⟨front, rfl, tail_eq⟩
      · cases first
        exact absurd opens (not_opens_of_closes (closes_of_pair pair))
      · exact tail tail_eq
    · rcases List.cons_eq_append_iff.1 back_eq with ⟨rfl, first⟩ | ⟨within, rfl, rest_eq⟩
      · cases first
        exact absurd opens (not_opens_of_closes (closes_of_pair pair))
      · obtain ⟨middle, other, more, rfl, balanced, closes⟩ := ih inner_eq
        refine ⟨middle, other, more ++ closing :: rest, ?_, balanced, closes⟩
        rw [rest_eq]
        simp

/-! ## The stack and what is open -/

theorem pending_opens : ∀ opening ∈ brackets.pending tokens, brackets.Opens opening.kind := by
  induction tokens using List.reverseRecOn with
  | nil => simp [pending]
  | append_singleton front token ih =>
    rw [pending_concat]
    by_cases opens : brackets.Opens token.kind
    · rw [step_opens opens]
      exact List.forall_mem_cons.2 ⟨opens, ih⟩
    · cases stack : brackets.pending front with
      | nil => simp [step_nil opens]
      | cons innermost outer =>
        rw [stack] at ih
        rw [step, if_neg opens]
        split
        · exact (List.forall_mem_cons.1 ih).2
        · exact ih

theorem pending_sublist (brackets : Brackets) (tokens : List Token) :
    (brackets.pending tokens).reverse.Sublist tokens := by
  induction tokens using List.reverseRecOn with
  | nil => exact .refl _
  | append_singleton front token ih =>
    rw [pending_concat]
    by_cases opens : brackets.Opens token.kind
    · rw [step_opens opens, List.reverse_cons]
      exact ih.append_right _
    apply List.Sublist.trans _ (ih.trans (List.sublist_append_left _ _))
    cases brackets.pending front with
    | nil => simp [step_nil opens]
    | cons innermost outer =>
      rw [step, if_neg opens]
      split
      · exact (List.sublist_cons_self innermost outer).reverse
      · exact .refl _

/-- Tokens in which a closing bracket never meets an opening one of another kind. -/
def Proper (brackets : Brackets) (tokens : List Token) : Prop :=
  ∀ front token back, tokens = front ++ token :: back → brackets.Closes token.kind →
    ∀ innermost ∈ (brackets.pending front).head?, (innermost.kind, token.kind) ∈ brackets.pairs

theorem proper_nil : brackets.Proper [] := by
  intro front token back split
  exact absurd split.symm (List.append_ne_nil_of_right_ne_nil _ (List.cons_ne_nil _ _))

theorem Proper.front {front back : List Token} (h : brackets.Proper (front ++ back)) :
    brackets.Proper front := by
  intro before token after split
  refine h before token (after ++ back) ?_
  rw [split, List.append_assoc, List.cons_append]

theorem Proper.concat (h : brackets.Proper tokens) {token : Token}
    (last : brackets.Closes token.kind → ∀ innermost ∈ (brackets.pending tokens).head?,
      (innermost.kind, token.kind) ∈ brackets.pairs) : brackets.Proper (tokens ++ [token]) := by
  intro front other back split closes
  rcases eq_or_front_of_concat split with ⟨rfl, rfl, _⟩ | ⟨rest, rfl, rfl⟩
  · exact last closes
  · exact h front other rest rfl closes

theorem Proper.pending_closes {token : Token} (h : brackets.Proper (tokens ++ [token]))
    (closes : brackets.Closes token.kind) :
    brackets.pending (tokens ++ [token]) = (brackets.pending tokens).tail := by
  rw [pending_concat]
  cases stack : brackets.pending tokens with
  | nil => exact step_nil (not_opens_of_closes closes)
  | cons innermost outer =>
    refine step_pair (h tokens token [] rfl closes innermost ?_) outer
    rw [stack]
    rfl

/-- With brackets of one kind there is nothing to confuse. -/
theorem proper_of_single {opening closing : TokenKind} (h : brackets.pairs = [(opening, closing)])
    (tokens : List Token) : brackets.Proper tokens := by
  intro front token back _ closes innermost first
  have opens := pending_opens innermost (List.mem_of_mem_head? first)
  simp only [Opens, Closes, h, List.map_cons, List.map_nil, List.mem_singleton] at opens closes ⊢
  rw [opens, closes]

theorem parens_proper (tokens : List Token) : parens.Proper tokens := proper_of_single rfl tokens

theorem slots_proper (tokens : List Token) : slots.Proper tokens := proper_of_single rfl tokens

/-- What is on top of the stack was opened last, and what came after it is balanced. -/
theorem exists_of_pending (proper : brackets.Proper tokens) {opening : Token} {outer : List Token}
    (h : brackets.pending tokens = opening :: outer) :
    ∃ front inner, tokens = front ++ opening :: inner ∧ brackets.Balanced inner ∧
      brackets.pending front = outer := by
  induction size : tokens.length using Nat.strong_induction_on
    generalizing tokens opening outer with
  | h n ih =>
    rcases List.eq_nil_or_concat tokens with rfl | ⟨before, token, rfl⟩
    · cases h
    rw [List.concat_eq_append] at h proper size ⊢
    rw [pending_concat] at h
    have shorter : before.length < n := by
      rw [← size]
      simp
    by_cases opens : brackets.Opens token.kind
    · rw [step_opens opens] at h
      cases h
      exact ⟨before, [], rfl, .nil, rfl⟩
    cases stack : brackets.pending before with
    | nil =>
      rw [stack, step_nil opens] at h
      cases h
    | cons innermost around =>
      obtain ⟨front, inner, rfl, balanced, below⟩ := ih _ shorter proper.front stack rfl
      rw [stack] at h
      by_cases closes : brackets.Closes token.kind
      · have pair := proper _ token [] rfl closes innermost (by rw [stack]; rfl)
        rw [step_pair pair] at h
        rw [h] at below
        have shortest : front.length < n := by
          rw [List.length_append, List.length_cons] at shorter
          omega
        obtain ⟨outermost, between, rfl, balanced', rest⟩ :=
          ih _ shortest proper.front.front below rfl
        refine ⟨outermost, between ++ innermost :: (inner ++ [token]), by simp, ?_, rest⟩
        exact balanced'.append (balanced_group pair balanced)
      · rw [step_other opens closes] at h
        cases h
        exact ⟨front, inner ++ [token], by simp, balanced.append (.other opens closes .nil), below⟩

theorem innermost_iff (proper : brackets.Proper tokens) (opening : Token) :
    brackets.Innermost tokens opening ↔ (brackets.pending tokens).head? = some opening := by
  constructor
  · rintro ⟨front, inner, rfl, opens, balanced⟩
    rw [pending_append, List.foldl_cons, step_opens opens, balanced.foldl]
    rfl
  · intro top
    obtain ⟨outer, stack⟩ := List.head?_eq_some_iff.1 top
    obtain ⟨front, inner, split, balanced, _⟩ := exists_of_pending proper stack
    refine ⟨front, inner, split, ?_, balanced⟩
    exact pending_opens opening (List.mem_of_mem_head? top)

theorem pending_eq_nil_iff (proper : brackets.Proper tokens) :
    brackets.pending tokens = [] ↔ ∀ opening, ¬brackets.Innermost tokens opening := by
  constructor
  · intro none opening innermost
    rw [innermost_iff proper, none] at innermost
    cases innermost
  · intro none
    cases stack : brackets.pending tokens with
    | nil => rfl
    | cons opening outer =>
      refine absurd ((innermost_iff proper opening).2 ?_) (none opening)
      rw [stack]
      rfl

theorem unopened_concat (proper : brackets.Proper tokens) (token closing : Token) :
    brackets.Unopened (tokens ++ [token]) closing ↔ brackets.Unopened tokens closing ∨
      (closing = token ∧ brackets.Closes token.kind ∧ brackets.pending tokens = []) := by
  constructor
  · rintro ⟨front, back, split, closes, alone⟩
    rcases eq_or_front_of_concat split with ⟨rfl, rfl, _⟩ | ⟨rest, rfl, rfl⟩
    · exact Or.inr ⟨rfl, closes, (pending_eq_nil_iff proper).2 alone⟩
    · exact Or.inl ⟨front, rest, rfl, closes, alone⟩
  · rintro (⟨front, back, rfl, closes, alone⟩ | ⟨rfl, closes, none⟩)
    · exact ⟨front, back ++ [token], by simp, closes, alone⟩
    · exact ⟨tokens, [], rfl, closes, (pending_eq_nil_iff proper).1 none⟩

/-- Tokens that close nothing around them. -/
def Contained (brackets : Brackets) (tokens : List Token) : Prop :=
  ∀ inner closing rest, tokens = inner ++ closing :: rest → brackets.Balanced inner →
    ¬brackets.Closes closing.kind

theorem Contained.front {front back : List Token} (h : brackets.Contained (front ++ back)) :
    brackets.Contained front := by
  intro inner closing rest split
  refine h inner closing (rest ++ back) ?_
  rw [split, List.append_assoc, List.cons_append]

theorem Contained.balanced (h : brackets.Contained tokens) (proper : brackets.Proper tokens)
    (none : brackets.pending tokens = []) : brackets.Balanced tokens := by
  induction size : tokens.length using Nat.strong_induction_on generalizing tokens with
  | h n ih =>
    rcases List.eq_nil_or_concat tokens with rfl | ⟨before, token, rfl⟩
    · exact .nil
    rw [List.concat_eq_append] at h proper none size ⊢
    rw [pending_concat] at none
    have shorter : before.length < n := by
      rw [← size]
      simp
    have opens : ¬brackets.Opens token.kind := by
      intro opens
      rw [step_opens opens] at none
      cases none
    cases stack : brackets.pending before with
    | nil =>
      have balanced := ih _ shorter h.front proper.front stack rfl
      exact balanced.append (.other opens (h before token [] rfl balanced) .nil)
    | cons innermost around =>
      have closes : brackets.Closes token.kind := by
        by_contra other
        rw [stack, step_other opens other] at none
        cases none
      have pair := proper before token [] rfl closes innermost (by rw [stack]; rfl)
      rw [stack, step_pair pair] at none
      obtain ⟨front, inner, rfl, balanced, below⟩ := exists_of_pending proper.front stack
      rw [none] at below
      have shortest : front.length < n := by
        rw [List.length_append, List.length_cons] at shorter
        omega
      have outer := ih _ shortest h.front.front proper.front.front below rfl
      rw [List.append_assoc, List.cons_append]
      exact outer.append (balanced_group pair balanced)

theorem Contained.foldl (h : brackets.Contained tokens) (proper : brackets.Proper tokens)
    (stack : List Token) :
    tokens.foldl brackets.step stack = brackets.pending tokens ++ stack := by
  induction tokens using List.reverseRecOn with
  | nil => rfl
  | append_singleton before token ih =>
    rw [List.foldl_append, ih h.front proper.front, pending_concat, List.foldl_cons, List.foldl_nil]
    by_cases opens : brackets.Opens token.kind
    · rw [step_opens opens, step_opens opens]
      rfl
    cases top : brackets.pending before with
    | nil =>
      have closes := h before token [] rfl (h.front.balanced proper.front top)
      rw [List.nil_append, step_other opens closes, step_nil opens]
      rfl
    | cons innermost outer =>
      rw [List.cons_append, step, step, if_neg opens, if_neg opens]
      split
      · rfl
      · rfl

/-- What comes before such tokens is no concern of their closing brackets. -/
theorem Contained.proper {front back : List Token} (h : brackets.Contained back)
    (proper : brackets.Proper (front ++ back)) : brackets.Proper back := by
  induction back using List.reverseRecOn with
  | nil => exact proper_nil
  | append_singleton before token ih =>
    rw [← List.append_assoc] at proper
    have earlier := ih h.front proper.front
    apply earlier.concat
    intro closes innermost top
    refine proper (front ++ before) token [] rfl closes innermost ?_
    rw [pending_append, h.front.foldl earlier, List.head?_append, Option.mem_def.1 top]
    rfl

theorem mem_pending_of_unclosed (proper : brackets.Proper tokens) {opening : Token}
    (h : brackets.Unclosed tokens opening) : opening ∈ brackets.pending tokens := by
  obtain ⟨front, back, rfl, opens, contained⟩ := h
  rw [List.append_cons] at proper
  have kept := Contained.foldl contained (Contained.proper contained proper)
    (opening :: brackets.pending front)
  rw [pending_append, List.foldl_cons, step_opens opens, kept]
  exact List.mem_append_right _ List.mem_cons_self

theorem unclosed_of_mem_pending (proper : brackets.Proper tokens) {opening : Token}
    (h : opening ∈ brackets.pending tokens) : brackets.Unclosed tokens opening := by
  induction size : tokens.length using Nat.strong_induction_on generalizing tokens with
  | h n ih =>
    have opens := pending_opens opening h
    cases stack : brackets.pending tokens with
    | nil =>
      rw [stack] at h
      cases h
    | cons innermost outer =>
      obtain ⟨front, inner, rfl, balanced, below⟩ := exists_of_pending proper stack
      rw [stack] at h
      rcases List.mem_cons.1 h with rfl | h
      · exact ⟨front, inner, rfl, opens, fun _ _ _ split inside => balanced.not_closes split inside⟩
      · have shorter : front.length < n := by
          rw [List.length_append, List.length_cons] at size
          omega
        rw [← below] at h
        have own : brackets.Opens innermost.kind :=
          pending_opens innermost (by rw [stack]; exact List.mem_cons_self)
        obtain ⟨before, back, rfl, _, contained⟩ := ih _ shorter proper.front h rfl
        refine ⟨before, back ++ innermost :: inner, by simp, opens, ?_⟩
        intro middle closing rest split inside closes
        rcases List.append_eq_append_iff.1 split with
          ⟨later, rfl, later_eq⟩ | ⟨within, rfl, rest_eq⟩
        · rcases List.cons_eq_append_iff.1 later_eq with ⟨_, first⟩ | ⟨later, rfl, inner_eq⟩
          · cases first
            exact not_opens_of_closes closes own
          · -- The group opened last would have to be closed in what came after it.
            obtain ⟨part, other, more, rfl, part_balanced, other_closes⟩ :=
              inside.closes_opened rfl own
            rw [List.append_assoc, List.cons_append] at inner_eq
            exact balanced.not_closes inner_eq part_balanced other_closes
        · rcases List.cons_eq_append_iff.1 rest_eq with ⟨rfl, first⟩ | ⟨within, rfl, _⟩
          · cases first
            exact not_opens_of_closes closes own
          · exact contained middle closing within rfl inside closes

end Brackets

end TermOutline
