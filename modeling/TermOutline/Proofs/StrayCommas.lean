import TermOutline.Proofs.Parentheses

/-! # What stray commas lack

A comma that is reported as stray has no item before it or none behind it in the list that grouping
makes. On the line there may still be something next to it: grouping takes brackets that are out of
place, and calls that nothing closes, out of the list before it looks at the commas. Everything else
that it reports is a comma at the start or at the end of a list or beside another comma.
-/
namespace TermOutline

/-- One bracket closes another of the same context. -/
def Partners (line : List Token) (opening closing : Token) : Prop :=
  ∃ context ∈ (contexts line).all, Brackets.parens.Matches context opening closing

/-- A closing bracket that no item ends in: it closes nothing, or a parenthesis that follows no
term. -/
inductive LeftOut (known : Finding → Prop) (partners : Token → Token → Prop) (closing : Token) :
    Prop where
  | paren (kind : closing.kind = .parenClose) (problem : known ⟨.unmatchedParen, closing.span⟩)
  | brace (kind : closing.kind = .slotClose) (problem : known ⟨.unmatchedBrace, closing.span⟩)
  | partner {opening : Token} (kind : closing.kind = .parenClose) (pair : partners opening closing)
      (problem : known ⟨.detachedParen, opening.span⟩)

theorem content_concat {token : Token} (h : token.isTrivia = false) (tokens : List Token) :
    content (tokens ++ [token]) = content tokens ++ [token] := by
  rw [content_append, content_significant h]
  rfl

/-- Trivia apart, the tokens end in a comma or an opening bracket, or there are none. -/
def StartsList (before : List Token) : Prop :=
  ∀ leaf ∈ (content before).getLast?,
    leaf.kind = .comma ∨ leaf.kind = .parenOpen ∨ leaf.kind = .slotOpen

/-- Trivia apart, the tokens begin with a comma or a closing bracket, or there are none. -/
def EndsList (after : List Token) : Prop :=
  ∀ leaf ∈ (content after).head?,
    leaf.kind = .comma ∨ leaf.kind = .parenClose ∨ leaf.kind = .slotClose

theorem startsList_concat {token : Token} (significant : token.isTrivia = false)
    (kind : token.kind = .comma ∨ token.kind = .parenOpen ∨ token.kind = .slotOpen)
    (tokens : List Token) : StartsList (tokens ++ [token]) := by
  rw [StartsList, content_concat significant, List.getLast?_concat]
  rintro leaf ⟨⟩
  exact kind

/-- The tokens before a comma have no item at their end. -/
inductive NoItemBefore (known : Finding → Prop) (partners : Token → Token → Prop)
    (before : List Token) : Prop where
  | lacks (h : StartsList before)
  | leftOut {leaf : Token} (last : (content before).getLast? = some leaf)
      (out : LeftOut known partners leaf)

/-- The tokens behind a comma have no item in front: at most a parenthesis that follows no term, or
a term with a parenthesis that nothing closes. -/
inductive NoItemAfter (known : Finding → Prop) (after : List Token) : Prop where
  | lacks (h : EndsList after)
  | detached {gap rest : List Token} {opening : Token} (split : after = gap ++ opening :: rest)
      (blank : content gap = []) (problem : known ⟨.detachedParen, opening.span⟩)
  | opened {gap rest : List Token} {head opening : Token}
      (split : after = gap ++ head :: opening :: rest) (blank : content gap = [])
      (kind : head.kind = .term) (problem : known ⟨.openParen, opening.span⟩)

section

variable {known wider : Finding → Prop} {partners others : Token → Token → Prop}
  (findings : ∀ finding, known finding → wider finding)
  (pairs : ∀ opening closing, partners opening closing → others opening closing)

include findings

theorem NoItemAfter.mono {after : List Token} (h : NoItemAfter known after) :
    NoItemAfter wider after := by
  cases h with
  | lacks h => exact .lacks h
  | detached split blank problem => exact .detached split blank (findings _ problem)
  | opened split blank kind problem => exact .opened split blank kind (findings _ problem)

include pairs

theorem LeftOut.mono {closing : Token} (h : LeftOut known partners closing) :
    LeftOut wider others closing := by
  cases h with
  | paren kind problem => exact .paren kind (findings _ problem)
  | brace kind problem => exact .brace kind (findings _ problem)
  | partner kind pair problem => exact .partner kind (pairs _ _ pair) (findings _ problem)

theorem NoItemBefore.mono {before : List Token} (h : NoItemBefore known partners before) :
    NoItemBefore wider others before := by
  cases h with
  | lacks h => exact .lacks h
  | leftOut last out => exact .leftOut last (out.mono findings pairs)

end

section

variable {known : Finding → Prop} {partners : Token → Token → Prop}

theorem LeftOut.kind {closing : Token} (h : LeftOut known partners closing) :
    closing.kind = .parenClose ∨ closing.kind = .slotClose := by
  cases h with
  | paren kind => exact Or.inl kind
  | brace kind => exact Or.inr kind
  | partner kind => exact Or.inl kind

theorem LeftOut.significant {closing : Token} (h : LeftOut known partners closing) :
    closing.isTrivia = false := by
  rcases h.kind with kind | kind <;> rw [Token.isTrivia, kind] <;> rfl

theorem NoItemBefore.append {front before : List Token} (h : NoItemBefore known partners before)
    (start : StartsList front) : NoItemBefore known partners (front ++ before) := by
  cases h with
  | lacks h =>
    refine .lacks fun leaf last => ?_
    rw [content_append, List.getLast?_append] at last
    cases own : (content before).getLast? with
    | none =>
      rw [own] at last
      exact start leaf last
    | some other =>
      rw [own] at last
      cases last
      exact h leaf own
  | leftOut last out =>
    refine .leftOut ?_ out
    rw [content_append, List.getLast?_append, last]
    rfl

theorem NoItemAfter.append {after more : List Token} (h : NoItemAfter known after)
    (next : content after = [] → NoItemAfter known more) : NoItemAfter known (after ++ more) := by
  cases h with
  | lacks h =>
    by_cases blank : content after = []
    · cases next blank with
      | lacks h =>
        refine .lacks ?_
        rw [EndsList, content_append, blank]
        exact h
      | @detached gap rest opening split empty problem =>
        refine @NoItemAfter.detached _ _ (after ++ gap) rest opening ?_ ?_ problem
        · rw [split, List.append_assoc]
        · rw [content_append, blank, empty]
          rfl
      | @opened gap rest head opening split empty kind problem =>
        refine @NoItemAfter.opened _ _ (after ++ gap) rest head opening ?_ ?_ kind problem
        · rw [split, List.append_assoc]
        · rw [content_append, blank, empty]
          rfl
    · refine .lacks ?_
      rw [EndsList, content_append, List.head?_append_of_ne_nil _ blank]
      exact h
  | @detached gap rest opening split blank problem =>
    refine @NoItemAfter.detached _ _ gap (rest ++ more) opening ?_ blank problem
    rw [split, List.append_assoc, List.cons_append]
  | @opened gap rest head opening split blank kind problem =>
    refine @NoItemAfter.opened _ _ gap (rest ++ more) head opening ?_ blank kind problem
    rw [split, List.append_assoc, List.cons_append, List.cons_append]

theorem NoItemAfter.trivia {token : Token} (h : token.isTrivia = true) :
    NoItemAfter known [token] := by
  refine .lacks ?_
  rw [EndsList, content_trivia h]
  exact nofun

theorem NoItemAfter.closing {token : Token} {rest : List Token}
    (significant : token.isTrivia = false)
    (kind : token.kind = .parenClose ∨ token.kind = .slotClose) :
    NoItemAfter known (token :: rest) := by
  refine .lacks ?_
  rw [EndsList, content_significant significant]
  rintro leaf ⟨⟩
  exact Or.inr kind

/-! ## Lists and their tokens -/

/-- The items of a list and the tokens they were made of. Trivia and closing brackets that are left
out belong to no item; a parenthesis that follows no term hands its items on to the list around it.
-/
inductive Laid (known : Finding → Prop) (partners : Token → Token → Prop) :
    List Item → List Token → Prop where
  | nil : Laid known partners [] []
  | trivia {items : List Item} {tokens : List Token} {token : Token}
      (list : Laid known partners items tokens) (trivia : token.isTrivia = true) :
      Laid known partners items (tokens ++ [token])
  | leftOut {items : List Item} {tokens : List Token} {token : Token}
      (list : Laid known partners items tokens) (out : LeftOut known partners token) :
      Laid known partners items (tokens ++ [token])
  | word {items : List Item} {tokens : List Token} {token : Token}
      (list : Laid known partners items tokens) (significant : token.isTrivia = false) :
      Laid known partners (items ++ [.token token]) (tokens ++ [token])
  | group {items : List Item} {tokens cover : List Token} {item : Item} {closing : Token}
      (list : Laid known partners items tokens) (other : item.comma? = none)
      (kind : closing.kind ≠ .term) :
      Laid known partners (items ++ [item]) (tokens ++ (cover ++ [closing]))
  | spill {items held : List Item} {tokens inner : List Token} {opening closing : Token}
      (list : Laid known partners items tokens) (inside : Laid known partners held inner)
      (kind : opening.kind = .parenOpen) (problem : known ⟨.detachedParen, opening.span⟩)
      (out : LeftOut known partners closing) :
      Laid known partners (items ++ held) (tokens ++ opening :: (inner ++ [closing]))

variable {items : List Item} {tokens : List Token}

theorem Laid.noItemBefore (h : Laid known partners items tokens)
    (last : ∀ item ∈ items.getLast?, item.isComma = true) : NoItemBefore known partners tokens := by
  induction h with
  | nil => exact .lacks nofun
  | @trivia items tokens token list trivia ih =>
    have same : content (tokens ++ [token]) = content tokens := by
      rw [content_append, content_trivia trivia]
      exact List.append_nil _
    cases ih last with
    | lacks h =>
      refine .lacks ?_
      rw [StartsList, same]
      exact h
    | leftOut final out =>
      refine .leftOut ?_ out
      rw [same]
      exact final
  | @leftOut items tokens token list out ih =>
    refine .leftOut ?_ out
    rw [content_concat out.significant, List.getLast?_concat]
  | @word items tokens token list significant ih =>
    have comma := last (.token token) List.getLast?_concat
    obtain ⟨comma, own⟩ := Option.isSome_iff_exists.1 comma
    obtain ⟨same, kind⟩ := comma?_eq_some own
    cases same
    exact .lacks (startsList_concat significant (Or.inl kind) tokens)
  | @group items tokens cover item closing list other kind ih =>
    have comma := last item List.getLast?_concat
    rw [Item.isComma, other] at comma
    cases comma
  | @spill items held tokens inner opening closing list inside kind problem out _ _ =>
    refine .leftOut ?_ out
    rw [← List.cons_append, ← List.append_assoc, content_concat out.significant,
      List.getLast?_concat]

theorem Laid.repeated (h : Laid known partners items tokens) {front back : List Item}
    {comma : Token}
    (comma_kind : comma.kind = .comma) (split : items = front ++ .token comma :: back)
    (last : ∀ item ∈ front.getLast?, item.isComma = true) :
    ∃ before after, tokens = before ++ comma :: after ∧ NoItemBefore known partners before := by
  induction h generalizing front back with
  | nil => exact absurd split.symm (List.append_ne_nil_of_right_ne_nil _ (List.cons_ne_nil _ _))
  | @trivia items tokens token _ _ ih | @leftOut items tokens token _ _ ih =>
    obtain ⟨before, after, rfl, lacks⟩ := ih split last
    exact ⟨before, after ++ [token], by simp, lacks⟩
  | @word items tokens token list significant ih =>
    rcases eq_or_front_of_concat split with ⟨rfl, same, _⟩ | ⟨rest, _, rfl⟩
    · cases same
      exact ⟨tokens, [], rfl, list.noItemBefore last⟩
    · obtain ⟨before, after, rfl, lacks⟩ := ih rfl last
      exact ⟨before, after ++ [token], by simp, lacks⟩
  | @group items tokens cover item closing list other kind ih =>
    rcases eq_or_front_of_concat split with ⟨rfl, same, _⟩ | ⟨rest, _, rfl⟩
    · rw [← same, Item.comma?, if_pos comma_kind] at other
      cases other
    · obtain ⟨before, after, rfl, lacks⟩ := ih rfl last
      exact ⟨before, after ++ (cover ++ [closing]), by simp, lacks⟩
  | @spill items held tokens inner opening closing list inside kind problem out ih own =>
    have handedOn {part : List Item} (front_eq : front = items ++ part)
        (held_eq : held = part ++ .token comma :: back) :
        ∃ before after, tokens ++ opening :: (inner ++ [closing]) = before ++ comma :: after ∧
          NoItemBefore known partners before := by
      obtain ⟨before, after, rfl, lacks⟩ := own held_eq fun item final => by
        refine last item ?_
        rw [front_eq, List.getLast?_append, final]
        rfl
      refine ⟨tokens ++ [opening] ++ before, after ++ [closing], by simp, lacks.append ?_⟩
      exact startsList_concat (by rw [Token.isTrivia, kind]; rfl) (Or.inr (Or.inl kind)) tokens
    rcases List.append_eq_append_iff.1 split with ⟨part, front_eq, held_eq⟩ | ⟨part, rfl, back_eq⟩
    · exact handedOn front_eq held_eq
    · rcases List.cons_eq_append_iff.1 back_eq with ⟨rfl, held_eq⟩ | ⟨part, rfl, _⟩
      · exact @handedOn [] (by simp) held_eq
      · obtain ⟨before, after, rfl, lacks⟩ := ih rfl last
        exact ⟨before, after ++ opening :: (inner ++ [closing]), by simp, lacks⟩

theorem Laid.final (h : Laid known partners items tokens) {front : List Item} {comma : Token}
    (comma_kind : comma.kind = .comma) (split : items = front ++ [.token comma]) :
    ∃ before after, tokens = before ++ comma :: after ∧ NoItemAfter known after := by
  induction h generalizing front with
  | nil => exact absurd split.symm (List.append_ne_nil_of_right_ne_nil _ (List.cons_ne_nil _ _))
  | @trivia items tokens token _ blank ih =>
    obtain ⟨before, after, rfl, lacks⟩ := ih split
    exact ⟨before, after ++ [token], by simp, lacks.append fun _ => .trivia blank⟩
  | @leftOut items tokens token _ out ih =>
    obtain ⟨before, after, rfl, lacks⟩ := ih split
    refine ⟨before, after ++ [token], by simp, lacks.append fun _ => ?_⟩
    exact .closing out.significant out.kind
  | @word items tokens token list significant ih =>
    obtain ⟨_, same⟩ := List.append_inj' split rfl
    cases same
    exact ⟨tokens, [], rfl, .lacks nofun⟩
  | @group items tokens cover item closing list other kind ih =>
    obtain ⟨_, same⟩ := List.append_inj' split rfl
    cases same
    rw [Item.comma?, if_pos comma_kind] at other
    cases other
  | @spill items held tokens inner opening closing list inside kind problem out ih own =>
    rcases List.eq_nil_or_concat held with rfl | ⟨held, item, rfl⟩
    · rw [List.append_nil] at split
      obtain ⟨before, after, rfl, lacks⟩ := ih split
      refine ⟨before, after ++ opening :: (inner ++ [closing]), by simp, lacks.append fun _ => ?_⟩
      exact @NoItemAfter.detached _ _ [] _ opening rfl rfl problem
    · rw [List.concat_eq_append, ← List.append_assoc] at split
      obtain ⟨_, same⟩ := List.append_inj' split rfl
      obtain ⟨before, after, rfl, lacks⟩ := @own held (by rw [List.concat_eq_append, same])
      refine ⟨tokens ++ opening :: before, after ++ [closing], by simp, lacks.append fun _ => ?_⟩
      exact .closing out.significant out.kind

theorem mem_repeatedCommas {afterComma : Bool} {span : Span}
    (h : span ∈ repeatedCommas afterComma items) :
    ∃ front comma back, items = front ++ .token comma :: back ∧ comma.kind = .comma ∧
      comma.span = span ∧ (front = [] → afterComma = true) ∧
      ∀ item ∈ front.getLast?, item.isComma = true := by
  induction items generalizing afterComma with
  | nil => cases h
  | cons item rest ih =>
    have later {after : Bool} (first : after = true → item.isComma = true)
        (h : span ∈ repeatedCommas after rest) :
        ∃ front comma back, item :: rest = front ++ .token comma :: back ∧ comma.kind = .comma ∧
          comma.span = span ∧ (front = [] → afterComma = true) ∧
          ∀ item ∈ front.getLast?, item.isComma = true := by
      obtain ⟨front, comma, back, rfl, kind, place, start, last⟩ := ih h
      refine ⟨item :: front, comma, back, rfl, kind, place, ?_, ?_⟩
      · exact fun blank => absurd blank (List.cons_ne_nil _ _)
      cases front with
      | nil =>
        rintro _ ⟨⟩
        exact first (start rfl)
      | cons next others =>
        rw [List.getLast?_cons_cons]
        exact last
    rw [repeatedCommas] at h
    cases own : item.comma? with
    | none =>
      rw [own] at h
      exact later (fun off => absurd off Bool.false_ne_true) h
    | some comma =>
      obtain ⟨rfl, kind⟩ := comma?_eq_some own
      have isComma : (Item.token comma).isComma = true := by
        rw [Item.isComma, own]
        rfl
      rw [own] at h
      cases afterComma with
      | false => exact later (fun _ => isComma) h
      | true =>
        rcases List.mem_cons.1 h with rfl | h
        · refine ⟨[], comma, rest, rfl, kind, rfl, fun _ => rfl, ?_⟩
          rintro _ ⟨⟩
        · exact later (fun _ => isComma) h

theorem mem_finalComma {span : Span} (h : span ∈ finalComma items) :
    ∃ front comma, items = front ++ [.token comma] ∧ comma.kind = .comma ∧ comma.span = span := by
  rw [finalComma] at h
  split at h
  · next last before rest turned =>
    have split : items = (before :: rest).reverse ++ [last] := by
      rw [← List.reverse_cons, ← turned, List.reverse_reverse]
    cases own : last.comma? with
    | none =>
      rw [own] at h
      cases h
    | some comma =>
      obtain ⟨rfl, kind⟩ := comma?_eq_some own
      rw [own] at h
      dsimp only at h
      split at h
      · cases h
      · exact ⟨_, comma, split, kind, (List.mem_singleton.1 h).symm⟩
  · cases h

theorem Laid.stray (h : Laid known partners items tokens) {span : Span}
    (stray : span ∈ strayCommas true items) :
    ∃ before comma after, tokens = before ++ comma :: after ∧ comma.kind = .comma ∧
      comma.span = span ∧ (NoItemBefore known partners before ∨ NoItemAfter known after) := by
  rcases List.mem_append.1 stray with repeated | final
  · obtain ⟨front, comma, back, split, kind, place, _, last⟩ := mem_repeatedCommas repeated
    obtain ⟨before, after, here, lacks⟩ := h.repeated kind split last
    exact ⟨before, comma, after, here, kind, place, Or.inl lacks⟩
  · obtain ⟨front, comma, split, kind, place⟩ := mem_finalComma final
    obtain ⟨before, after, here, lacks⟩ := h.final kind split
    exact ⟨before, comma, after, here, kind, place, Or.inr lacks⟩

theorem lineStrayCommas_subset {span : Span} (h : span ∈ lineStrayCommas items) :
    span ∈ strayCommas true items := by
  cases items with
  | nil => cases h
  | cons head rest =>
    have ends : span ∈ finalComma rest → span ∈ finalComma (head :: rest) := by
      intro final
      rcases rest with _ | ⟨next, _ | ⟨other, rest⟩⟩
      · cases final
      · cases final
      · rw [finalComma_cons]
        exact final
    rw [strayCommas, repeatedCommas]
    rw [lineStrayCommas] at h
    cases own : head.comma? with
    | none =>
      rw [own] at h
      rcases List.mem_append.1 h with repeated | final
      · exact List.mem_append_left _ repeated
      · exact List.mem_append_right _ (ends final)
    | some comma =>
      rw [own] at h
      rcases List.mem_cons.1 h with rfl | h
      · exact List.mem_append_left _ List.mem_cons_self
      rcases List.mem_append.1 h with repeated | final
      · exact List.mem_append_left _ (List.mem_cons_of_mem _ repeated)
      · exact List.mem_append_right _ (ends final)

theorem Laid.dropTerm {head : Token} (h : Laid known partners (items ++ [.token head]) tokens)
    (last : ∃ last ∈ tokens.getLast?, last.kind = .term) :
    ∃ front, tokens = front ++ [head] ∧ Laid known partners items front := by
  obtain ⟨last, final, term⟩ := last
  generalize split : items ++ [.token head] = whole at h
  cases h with
  | nil => cases final
  | @trivia _ tokens token _ blank =>
    rw [List.getLast?_concat] at final
    cases final
    rw [Token.isTrivia, term] at blank
    cases blank
  | @leftOut _ tokens token _ out =>
    rw [List.getLast?_concat] at final
    cases final
    rcases out.kind with kind | kind <;> rw [kind] at term <;> cases term
  | @word _ tokens token list _ =>
    obtain ⟨rfl, same⟩ := List.append_inj' split rfl
    cases same
    exact ⟨tokens, rfl, list⟩
  | @group _ tokens cover item closing _ _ kind =>
    rw [← List.append_assoc, List.getLast?_concat] at final
    cases final
    exact absurd term kind
  | @spill _ _ tokens inner opening closing _ _ _ _ out =>
    rw [← List.cons_append, ← List.append_assoc, List.getLast?_concat] at final
    cases final
    rcases out.kind with kind | kind <;> rw [kind] at term <;> cases term

theorem Laid.ne_nil {item : Item} (h : Laid known partners (items ++ [item]) tokens) :
    tokens ≠ [] := by
  generalize split : items ++ [item] = whole at h
  cases h with
  | nil => exact absurd split (List.append_ne_nil_of_right_ne_nil _ (List.cons_ne_nil _ _))
  | trivia | leftOut | word | spill => simp
  | group => simp

/-! ## Open groups and their tokens -/

/-- The open groups, the innermost first, with what has been read. A list has the tokens from the
bracket that opens it up to the next open group, and a call takes its head with it. -/
def Spread (known : Finding → Prop) (partners : Token → Token → Prop) (root : List Item) :
    List Token → List OpenGroup → Prop
  | read, [] => Laid known partners root read
  | read, .call (some head) opening held :: outer => ∃ before inside,
      read = before ++ head :: opening :: inside ∧ head.kind = .term ∧
        opening.kind = .parenOpen ∧ Laid known partners held inside ∧
        Spread known partners root before outer
  | read, .call none opening held :: outer => ∃ before inside, read = before ++ opening :: inside ∧
      opening.kind = .parenOpen ∧ known ⟨.detachedParen, opening.span⟩ ∧
      Laid known partners held inside ∧ Spread known partners root before outer
  | read, .text opening _ :: outer => ∃ before inside, read = before ++ opening :: inside ∧
      Spread known partners root before outer
  | read, .slot opening held :: outer => ∃ before inside, read = before ++ opening :: inside ∧
      opening.kind = .slotOpen ∧ Laid known partners held inside ∧
      Spread known partners root before outer

end

section

variable {known wider : Finding → Prop} {partners others : Token → Token → Prop}
  (findings : ∀ finding, known finding → wider finding)
  (pairs : ∀ opening closing, partners opening closing → others opening closing)

include findings pairs

theorem Laid.mono {items : List Item} {tokens : List Token} (h : Laid known partners items tokens) :
    Laid wider others items tokens := by
  induction h with
  | nil => exact .nil
  | trivia _ trivia ih => exact .trivia ih trivia
  | leftOut _ out ih => exact .leftOut ih (out.mono findings pairs)
  | word _ significant ih => exact .word ih significant
  | group _ other kind ih => exact .group ih other kind
  | spill _ _ kind problem out ih own =>
    exact .spill ih own kind (findings _ problem) (out.mono findings pairs)

theorem Spread.mono {root : List Item} {read : List Token} {groups : List OpenGroup}
    (h : Spread known partners root read groups) : Spread wider others root read groups := by
  induction groups generalizing read with
  | nil => exact Laid.mono findings pairs h
  | cons group outer ih =>
    rcases group with ⟨_ | head, opening, held⟩ | ⟨opening, pieces⟩ | ⟨opening, held⟩
    · obtain ⟨before, inside, split, kind, problem, list, rest⟩ := h
      exact ⟨before, inside, split, kind, findings _ problem, list.mono findings pairs, ih rest⟩
    · obtain ⟨before, inside, split, term, kind, list, rest⟩ := h
      exact ⟨before, inside, split, term, kind, list.mono findings pairs, ih rest⟩
    · obtain ⟨before, inside, split, rest⟩ := h
      exact ⟨before, inside, split, ih rest⟩
    · obtain ⟨before, inside, split, kind, list, rest⟩ := h
      exact ⟨before, inside, split, kind, list.mono findings pairs, ih rest⟩

end

section

variable {known : Finding → Prop} {partners : Token → Token → Prop} {root : List Item}
  {read : List Token}

theorem Spread.calls {calls rest : List OpenGroup} (h : ∀ group ∈ calls, group.isCall = true)
    (spread : Spread known partners root read (calls ++ rest))
    (problems : ∀ group ∈ calls, known ⟨.openParen, group.opening.span⟩) :
    ∃ part tail, read = part ++ tail ∧ Spread known partners root part rest ∧
      NoItemAfter known tail := by
  induction calls generalizing read with
  | nil => exact ⟨read, [], (List.append_nil _).symm, spread, .lacks nofun⟩
  | cons group outer ih =>
    obtain ⟨call, more⟩ := List.forall_mem_cons.1 h
    obtain ⟨own, others⟩ := List.forall_mem_cons.1 problems
    rcases group with ⟨_ | head, opening, held⟩ | ⟨opening, pieces⟩ | ⟨opening, held⟩
    · obtain ⟨before, inside, rfl, kind, problem, list, spread⟩ := spread
      obtain ⟨part, tail, rfl, spread, lacks⟩ := ih more spread others
      refine ⟨part, tail ++ opening :: inside, List.append_assoc _ _ _, spread, ?_⟩
      exact lacks.append fun _ => @NoItemAfter.detached _ _ [] inside opening rfl rfl problem
    · obtain ⟨before, inside, rfl, term, kind, list, spread⟩ := spread
      obtain ⟨part, tail, rfl, spread, lacks⟩ := ih more spread others
      refine ⟨part, tail ++ head :: opening :: inside, List.append_assoc _ _ _, spread, ?_⟩
      exact lacks.append fun _ => @NoItemAfter.opened _ _ [] inside head opening rfl rfl term own
    · cases call
    · cases call

namespace Grouping

variable {grouping next : Grouping}

theorem spread_setInnermost {held items : List Item} {more : List Token}
    (h : Spread known partners grouping.items read grouping.groups)
    (hi : grouping.innermost = .ok held)
    (grows : ∀ tokens, Laid known partners held tokens →
      Laid known partners items (tokens ++ more)) :
    Spread known partners (grouping.setInnermost items).items (read ++ more)
      (grouping.setInnermost items).groups := by
  rcases grouping with ⟨root, _ | ⟨⟨_ | head, opening, old⟩ | _ | ⟨opening, old⟩, outer⟩, _⟩ <;>
    cases hi
  · exact grows _ h
  · obtain ⟨before, inside, rfl, kind, problem, list, rest⟩ := h
    exact ⟨before, inside ++ more, by simp, kind, problem, grows _ list, rest⟩
  · obtain ⟨before, inside, rfl, term, kind, list, rest⟩ := h
    exact ⟨before, inside ++ more, by simp, term, kind, grows _ list, rest⟩
  · obtain ⟨before, inside, rfl, kind, list, rest⟩ := h
    exact ⟨before, inside ++ more, by simp, kind, grows _ list, rest⟩

theorem spread_place {items : List Item} {more : List Token}
    (h : Spread known partners grouping.items read grouping.groups)
    (hp : grouping.place items = .ok next)
    (grows : ∀ held tokens, Laid known partners held tokens →
      Laid known partners (held ++ items) (tokens ++ more)) :
    Spread known partners next.items (read ++ more) next.groups := by
  obtain ⟨held, hi, rfl⟩ := place_cases hp
  exact spread_setInnermost h hi (grows held)

theorem spread_dropTerm {held : List Item} {head : Token}
    (h : Spread known partners grouping.items read grouping.groups)
    (hi : grouping.innermost = .ok (held ++ [.token head]))
    (last : ∃ last ∈ read.getLast?, last.kind = .term) :
    ∃ front, read = front ++ [head] ∧ Spread known partners (grouping.setInnermost held).items front
      (grouping.setInnermost held).groups := by
  have within {before inside : List Token} {opening : Token}
      (list : Laid known partners (held ++ [.token head]) inside)
      (last : ∃ last ∈ (before ++ opening :: inside).getLast?, last.kind = .term) :
      ∃ front, inside = front ++ [head] ∧ Laid known partners held front := by
    refine list.dropTerm ?_
    obtain ⟨first, rest, same⟩ := List.exists_cons_of_ne_nil list.ne_nil
    rw [same] at last ⊢
    simpa [List.getLast?_cons_cons] using last
  rcases grouping with ⟨root, _ | ⟨⟨_ | term, opening, old⟩ | _ | ⟨opening, old⟩, outer⟩, _⟩ <;>
    cases hi
  · exact Laid.dropTerm h last
  · obtain ⟨before, inside, rfl, kind, problem, list, rest⟩ := h
    obtain ⟨front, rfl, shorter⟩ := within list last
    exact ⟨before ++ opening :: front, by simp, before, front, rfl, kind, problem, shorter, rest⟩
  · obtain ⟨before, inside, rfl, kind, opens, list, rest⟩ := h
    rw [List.append_cons] at last
    obtain ⟨front, rfl, shorter⟩ := within list last
    refine ⟨before ++ term :: opening :: front, by simp, ?_⟩
    exact ⟨before, front, rfl, kind, opens, shorter, rest⟩
  · obtain ⟨before, inside, rfl, kind, list, rest⟩ := h
    obtain ⟨front, rfl, shorter⟩ := within list last
    exact ⟨before ++ opening :: front, by simp, before, front, rfl, kind, shorter, rest⟩

theorem spread_skip {token : Token} (h : Spread known partners grouping.items read grouping.groups)
    (skips : ∀ held tokens, Laid known partners held tokens →
      Laid known partners held (tokens ++ [token])) :
    Spread known partners grouping.items (read ++ [token]) grouping.groups := by
  rcases grouping with ⟨root, _ | ⟨⟨_ | head, opening, held⟩ | _ | ⟨opening, held⟩, outer⟩, _⟩
  · exact skips _ _ h
  · obtain ⟨before, inside, rfl, kind, problem, list, rest⟩ := h
    exact ⟨before, inside ++ [token], by simp, kind, problem, skips _ _ list, rest⟩
  · obtain ⟨before, inside, rfl, term, kind, list, rest⟩ := h
    exact ⟨before, inside ++ [token], by simp, term, kind, skips _ _ list, rest⟩
  · obtain ⟨before, inside, rfl, rest⟩ := h
    exact ⟨before, inside ++ [token], by simp, rest⟩
  · obtain ⟨before, inside, rfl, kind, list, rest⟩ := h
    exact ⟨before, inside ++ [token], by simp, kind, skips _ _ list, rest⟩

end Grouping

end

/-! ## What is read -/

variable {line : List Token} {token : Token}

theorem Found.concat {finding : Finding} (h : Found line finding) (token : Token) :
    Found (line ++ [token]) finding := found_concat.2 (Or.inl h)

theorem contexts_grow {context : List Token} (h : context ∈ (contexts line).all) (token : Token) :
    ∃ longer ∈ (contexts (line ++ [token])).all, context <+: longer := by
  have own (same : contexts (line ++ [token]) =
      { contexts line with own := (contexts line).own ++ [token] }) :
      ∃ longer ∈ (contexts (line ++ [token])).all, context <+: longer := by
    rw [same]
    rcases List.mem_cons.1 h with rfl | other
    · exact ⟨_, List.mem_cons_self, List.prefix_append _ _⟩
    · exact ⟨context, List.mem_cons_of_mem _ other, List.prefix_rfl⟩
  by_cases opens : token.kind = .slotOpen
  · rw [contexts_concat_open opens]
    exact ⟨context, List.mem_cons_of_mem _ h, List.prefix_rfl⟩
  by_cases closes : token.kind = .slotClose
  · cases around : (contexts line).around with
    | nil => exact own (contexts_concat_stray closes around)
    | cons outer others =>
      exact ⟨context, (mem_contexts_close closes around).2 h, List.prefix_rfl⟩
  · exact own (contexts_concat_own opens closes)

theorem Partners.concat {opening closing : Token} (h : Partners line opening closing)
    (token : Token) : Partners (line ++ [token]) opening closing := by
  obtain ⟨context, member, front, inner, back, rfl, pair, balanced⟩ := h
  obtain ⟨longer, inside, more, rfl⟩ := contexts_grow member token
  exact ⟨_, inside, front, inner, back ++ more, by simp, pair, balanced⟩

theorem partners_of_pending {opening closing : Token} {outer : List Token}
    (h : Brackets.parens.pending (contexts line).own = opening :: outer)
    (kind : closing.kind = .parenClose) : Partners (line ++ [closing]) opening closing := by
  have opens : opening.kind = .parenOpen := by
    have opens := Brackets.pending_opens opening (by rw [h]; exact List.mem_cons_self)
    simpa [Brackets.Opens, Brackets.parens] using opens
  obtain ⟨front, inner, split, balanced, _⟩ :=
    Brackets.exists_of_pending (Brackets.parens_proper _) h
  refine ⟨(contexts line).own ++ [closing], ?_, front, inner, [], ?_, ?_, balanced⟩
  · rw [contexts_concat_own (by rw [kind]; decide) (by rw [kind]; decide)]
    exact List.mem_cons_self
  · rw [split]
    simp
  · rw [opens, kind]
    decide

/-- A comma with something behind it, so that what is read later does not change why it is stray. -/
def Explained (line : List Token) (span : Span) : Prop :=
  ∃ before comma after, line = before ++ comma :: after ∧ comma.kind = .comma ∧ comma.span = span ∧
    content after ≠ [] ∧
    (NoItemBefore (Found line) (Partners line) before ∨ NoItemAfter (Found line) after)

theorem Explained.concat {span : Span} (h : Explained line span) (token : Token) :
    Explained (line ++ [token]) span := by
  obtain ⟨before, comma, after, split, kind, place, rest, lacks⟩ := h
  refine ⟨before, comma, after ++ [token], by simp [split], kind, place, ?_, ?_⟩
  · rw [content_append]
    exact List.append_ne_nil_of_left_ne_nil rest _
  · rcases lacks with lacks | lacks
    · refine Or.inl (lacks.mono (fun _ found => found.concat token) ?_)
      exact fun _ _ pair => pair.concat token
    · refine Or.inr ((lacks.mono fun _ found => found.concat token).append ?_)
      exact fun blank => absurd blank rest

theorem Laid.blamed {known : Finding → Prop} {partners : Token → Token → Prop} {items : List Item}
    {front inside rest : List Token} (h : Laid known partners items inside)
    (start : StartsList front)
    (stop : NoItemAfter known rest) {span : Span} (stray : span ∈ strayCommas true items) :
    ∃ before comma after, front ++ inside ++ rest = before ++ comma :: (after ++ rest) ∧
      comma.kind = .comma ∧ comma.span = span ∧
      (NoItemBefore known partners before ∨ NoItemAfter known (after ++ rest)) := by
  obtain ⟨before, comma, after, rfl, kind, place, lacks⟩ := h.stray stray
  refine ⟨front ++ before, comma, after, by simp, kind, place, ?_⟩
  rcases lacks with lacks | lacks
  · exact Or.inl (lacks.append start)
  · exact Or.inr (lacks.append fun _ => stop)

namespace Grouping

variable {grouping next : Grouping}

theorem explained_list {items : List Item} {front inside rest : List Token} {opening : Token}
    (list : Laid (Found (line ++ [token])) (Partners (line ++ [token])) items inside)
    (split : line = front ++ opening :: (inside ++ rest))
    (opens : opening.kind = .parenOpen ∨ opening.kind = .slotOpen)
    (stop : NoItemAfter (Found (line ++ [token])) (rest ++ [token]))
    (significant : token.isTrivia = false) {span : Span} (stray : span ∈ strayCommas true items) :
    Explained (line ++ [token]) span := by
  have own : opening.isTrivia = false := by
    rcases opens with kind | kind <;> rw [Token.isTrivia, kind] <;> rfl
  obtain ⟨before, comma, after, here, kind, place, lacks⟩ :=
    list.blamed (startsList_concat own (Or.inr opens) front) stop stray
  refine ⟨before, comma, after ++ (rest ++ [token]), ?_, kind, place, ?_, lacks⟩
  · rw [← here, split]
    simp
  · -- the bracket that ends the list says something behind the comma
    rw [← List.append_assoc, content_concat significant]
    exact List.append_ne_nil_of_right_ne_nil _ (List.cons_ne_nil _ _)

/-- Every list has its tokens, and every comma found to be stray lacks an item. -/
structure Explains (line : List Token) (grouping : Grouping) : Prop where
  spread : Spread (Found line) (Partners line) grouping.items line grouping.groups
  commas : ∀ span, ⟨.strayComma, span⟩ ∈ grouping.findings → Explained line span

section

variable (h : Explains line grouping)

include h

theorem Explains.reads (token : Token) :
    Spread (Found (line ++ [token])) (Partners (line ++ [token])) grouping.items line
      grouping.groups := by
  refine Spread.mono ?_ ?_ h.spread
  · exact fun _ found => found.concat token
  · exact fun _ _ pair => pair.concat token

theorem Explains.extend {added : List Finding}
    (spread : Spread (Found (line ++ [token])) (Partners (line ++ [token])) next.items
      (line ++ [token]) next.groups)
    (findings : next.findings = grouping.findings ++ added)
    (commas : ∀ span, ⟨.strayComma, span⟩ ∈ added → Explained (line ++ [token]) span) :
    Explains (line ++ [token]) next := by
  refine ⟨spread, fun span member => ?_⟩
  rw [findings] at member
  rcases List.mem_append.1 member with old | new
  · exact (h.commas span old).concat token
  · exact commas span new

theorem Explains.quiet
    (spread : Spread (Found (line ++ [token])) (Partners (line ++ [token])) next.items
      (line ++ [token]) next.groups)
    (findings : next.findings = grouping.findings) : Explains (line ++ [token]) next :=
  @Explains.extend _ _ _ _ h [] spread (by rw [findings, List.append_nil]) nofun

theorem Explains.skip
    (skips : token.isTrivia = true ∨
      LeftOut (Found (line ++ [token])) (Partners (line ++ [token])) token) :
    Spread (Found (line ++ [token])) (Partners (line ++ [token])) grouping.items (line ++ [token])
      grouping.groups := by
  refine spread_skip (h.reads token) fun held tokens list => ?_
  rcases skips with trivia | out
  · exact list.trivia trivia
  · exact list.leftOut out

theorem Explains.word (significant : token.isTrivia = false)
    (hp : grouping.place [.token token] = .ok next) : Explains (line ++ [token]) next := by
  refine h.quiet (spread_place (h.reads token) hp ?_) (place_findings hp)
  exact fun held tokens list => list.word significant

theorem Explains.openCall (kind : token.kind = .parenOpen)
    (last : ∃ last ∈ line.getLast?, last.kind = .term) (hp : grouping.openCall token = .ok next) :
    Explains (line ++ [token]) next := by
  obtain ⟨held, head, hi, term, rfl⟩ := openCall_cases hp
  obtain ⟨front, split, spread⟩ := spread_dropTerm (h.reads token) hi last
  refine h.quiet ⟨front, [], ?_, term, kind, .nil, spread⟩ (setInnermost_findings grouping held)
  rw [split, List.append_assoc]
  rfl

theorem Explains.openDetached (kind : token.kind = .parenOpen)
    (found : Found (line ++ [token]) ⟨.detachedParen, token.span⟩) :
    Explains (line ++ [token])
      ((grouping.report .detachedParen token.span).openGroup (.call none token [])) := by
  refine @Explains.extend _ _ _ _ h [⟨.detachedParen, token.span⟩] ?_ rfl ?_
  · exact ⟨line, [], rfl, kind, found, .nil, h.reads token⟩
  · intro span member
    cases List.mem_singleton.1 member

theorem Explains.closeParen (kind : token.kind = .parenClose) (matched : Matched line grouping)
    (shown : Matched (line ++ [token]) next) (hp : grouping.closeParen token = .ok next) :
    Explains (line ++ [token]) next := by
  have significant : token.isTrivia = false := by
    rw [Token.isTrivia, kind]
    rfl
  have stop : NoItemAfter (Found (line ++ [token])) ([] ++ [token]) :=
    .closing significant (Or.inl kind)
  have spread := h.reads token
  unfold Grouping.closeParen at hp
  split at hp
  · next head opening held outer hg =>
    rw [hg] at spread
    cases head with
    | some head =>
      obtain ⟨before, inside, split, term, opens, list, rest⟩ := spread
      have findings := place_findings hp
      refine h.extend ?_ findings ?_
      · have placed := @spread_place _ _ _ _ _ _ (head :: opening :: inside ++ [token]) rest hp
          fun _ _ list => list.group rfl (by rw [kind]; decide)
        rwa [← List.append_assoc, ← split] at placed
      · intro span member
        obtain ⟨_, stray, same⟩ := List.mem_map.1 member
        cases same
        have place : line = before ++ [head] ++ opening :: (inside ++ []) := by
          rw [split, List.append_nil, List.append_cons]
        exact explained_list list place (Or.inl opens) stop significant stray
    | none =>
      obtain ⟨before, inside, split, opens, problem, list, rest⟩ := spread
      have findings := place_findings hp
      have pair : Partners (line ++ [token]) opening token := by
        have own := matched.own
        rw [hg] at own
        exact partners_of_pending own.symm kind
      refine h.extend ?_ findings ?_
      · have placed := @spread_place _ _ _ _ _ _ (opening :: (inside ++ [token])) rest hp
          fun _ _ outer => outer.spill list opens problem (.partner kind pair problem)
        rwa [← List.cons_append, ← List.append_assoc, ← split] at placed
      · intro span member
        obtain ⟨_, stray, same⟩ := List.mem_map.1 member
        cases same
        have place : line = before ++ opening :: (inside ++ []) := by
          rw [split, List.append_nil]
        exact explained_list list place (Or.inl opens) stop significant stray
  · cases hp
    have found := (shown.findings ⟨.unmatchedParen, token.span⟩ rfl).1
      (List.mem_append_right _ List.mem_cons_self)
    refine @Explains.extend _ _ _ _ h [⟨.unmatchedParen, token.span⟩] ?_ rfl ?_
    · exact h.skip (Or.inr (.paren kind found))
    · intro span member
      cases List.mem_singleton.1 member

theorem Explains.closeSlot (kind : token.kind = .slotClose) (shown : Matched (line ++ [token]) next)
    (hp : grouping.closeSlot token = .ok next) : Explains (line ++ [token]) next := by
  have significant : token.isTrivia = false := by
    rw [Token.isTrivia, kind]
    rfl
  have spread := h.reads token
  obtain ⟨calls, rest, hg, hcalls, ended⟩ := closeSlot_cases hp
  rcases ended with ⟨_, rfl⟩ | ⟨opening, held, textOpening, pieces, outer, rfl, rfl⟩
  · have found := (shown.findings ⟨.unmatchedBrace, token.span⟩ rfl).1
      (List.mem_append_right _ List.mem_cons_self)
    refine @Explains.extend _ _ _ _ h [⟨.unmatchedBrace, token.span⟩] ?_ rfl ?_
    · exact h.skip (Or.inr (.brace kind found))
    · intro span member
      cases List.mem_singleton.1 member
  · rw [hg] at spread
    have problems : ∀ group ∈ calls, Found (line ++ [token]) ⟨.openParen, group.opening.span⟩ := by
      intro group member
      refine (shown.findings _ rfl).1 (List.mem_append_left _ (List.mem_append_right _ ?_))
      exact (unclosed_calls hcalls _).2 ⟨_, List.mem_map_of_mem member, rfl⟩
    obtain ⟨part, tail, split, spread, lacks⟩ := Spread.calls hcalls spread problems
    obtain ⟨before, inside, part_eq, opens, list, outside⟩ := spread
    obtain ⟨front, between, before_eq, rest⟩ := outside
    refine h.extend ?_ (List.append_assoc _ _ _) ?_
    · refine ⟨front, between ++ opening :: (inside ++ tail ++ [token]), ?_, rest⟩
      rw [split, part_eq, before_eq]
      simp
    · intro span member
      rcases List.mem_append.1 member with unclosed | stray
      · obtain ⟨_, _, same⟩ := (unclosed_calls hcalls _).1 unclosed
        cases same
      · obtain ⟨_, stray, same⟩ := List.mem_map.1 stray
        cases same
        have place : line = before ++ opening :: (inside ++ tail) := by
          rw [split, part_eq, List.append_assoc, List.cons_append]
        refine explained_list list place (Or.inr opens) ?_ significant stray
        exact lacks.append fun _ => .closing significant (Or.inr kind)

theorem Explains.step {previous : Option Token}
    (before : (∃ last ∈ previous, last.kind = .term) ↔ ∃ last ∈ line.getLast?, last.kind = .term)
    (matched : Matched line grouping) (shown : Matched (line ++ [token]) next)
    (hs : grouping.step previous token = .ok next) : Explains (line ++ [token]) next := by
  cases kind : token.kind <;> simp only [Grouping.step, kind] at hs
  case tab | badEscape | textBrace | unknown => cases hs
  case space | line =>
    cases hs
    exact h.quiet (h.skip (Or.inl (by rw [Token.isTrivia, kind]; rfl))) rfl
  case term | size | decimal | code | comma =>
    exact h.word (by rw [Token.isTrivia, kind]; rfl) hs
  case parenOpen =>
    split at hs
    · next follows =>
      obtain ⟨last, same, term⟩ := Option.any_eq_true _ _ |>.1 follows
      exact h.openCall kind (before.1 ⟨last, same, of_decide_eq_true term⟩) hs
    · cases hs
      refine h.openDetached kind ((shown.findings _ rfl).1 ?_)
      exact List.mem_append_right _ List.mem_cons_self
  case parenClose => exact h.closeParen kind matched shown hs
  case textOpen =>
    cases hs
    exact h.quiet ⟨line, [], rfl, h.reads token⟩ rfl
  case textCut =>
    unfold Grouping.addCut at hs
    split at hs
    · next groups =>
      cases hs
      have spread := h.reads token
      rw [groups] at spread
      obtain ⟨before, inside, split, rest⟩ := spread
      refine h.quiet ⟨before, inside ++ [token], ?_, rest⟩ rfl
      rw [split]
      simp
    · cases hs
  case textClose =>
    unfold Grouping.closeText at hs
    split at hs
    · next opening pieces outer groups =>
      have spread := h.reads token
      rw [groups] at spread
      obtain ⟨before, inside, split, rest⟩ := spread
      have findings := place_findings hs
      refine h.quiet ?_ findings
      have placed := @spread_place _ _ _ _ _ _ (opening :: inside ++ [token]) rest hs
        fun _ _ list => list.group rfl (by rw [kind]; decide)
      rwa [← List.append_assoc, ← split] at placed
    · cases hs
  case slotOpen =>
    unfold Grouping.openSlot at hs
    split at hs
    · cases hs
      exact h.quiet ⟨line, [], rfl, kind, .nil, h.reads token⟩ rfl
    · cases hs
  case slotClose => exact h.closeSlot kind shown hs

end

theorem Explains.start : Explains [] initial := ⟨.nil, nofun⟩

theorem Explains.trivia {tokens : List Token} (h : Explains line grouping)
    (trivia : ∀ token ∈ tokens, token.isTrivia = true) : Explains (line ++ tokens) grouping := by
  induction tokens generalizing line with
  | nil =>
    rw [List.append_nil]
    exact h
  | cons token rest ih =>
    obtain ⟨first, others⟩ := List.forall_mem_cons.1 trivia
    rw [List.append_cons]
    exact ih (h.quiet (h.skip (Or.inl first)) rfl) others

/-- The groups and the findings on brackets are what `Matched` says all along, and each step keeps
the lists and their tokens together. -/
theorem read_explains {scanner : Scanner} {previous : Option Token} {tokens : List Token}
    (h : Explains line grouping) (matched : Matched line grouping)
    (tracks : Tracks scanner grouping) (follows : Follows previous grouping)
    (before : (∃ last ∈ previous, last.kind = .term) ↔ ∃ last ∈ line.getLast?, last.kind = .term)
    (admitted : Admitted scanner tokens)
    (kinds : ∀ token ∈ tokens, token.kind.isFault = false ∧ token.kind ≠ .line)
    (hr : grouping.read previous tokens = .ok next) : Explains (line ++ tokens) next := by
  induction tokens generalizing scanner grouping previous line with
  | nil =>
    cases hr
    rw [List.append_nil]
    exact h
  | cons token rest ih =>
    obtain ⟨first, others⟩ := List.forall_mem_cons.1 kinds
    obtain ⟨middle, hs, hr⟩ := read_cons hr
    obtain ⟨next', hs', tracks', follows'⟩ := step_tracks tracks follows admitted.1 first.1 first.2
    rw [hs] at hs'
    cases hs'
    have shown := matched.step tracks before admitted.1 hs
    rw [List.append_cons]
    refine ih (h.step before matched shown hs) shown tracks' follows' ?_ admitted.2 others hr
    rw [List.getLast?_concat]

end Grouping

/-- The comma at a stretch of a line has no item before it or none behind it, as far as grouping
makes items of brackets that are out of place. -/
def LacksItem (line : List Token) (span : Span) : Prop :=
  ∃ before comma after, line = before ++ comma :: after ∧ comma.kind = .comma ∧ comma.span = span ∧
    (NoItemBefore (BracketProblem line) (Partners line) before ∨
      NoItemAfter (BracketProblem line) after)

namespace Grouping

variable {grouping : Grouping}

theorem ofTokens_stray {lead trail tokens : List Token} (unbroken : Unbroken tokens)
    (leading : ∀ token ∈ lead, token.isTrivia = true)
    (trailing : ∀ token ∈ trail, token.isTrivia = true)
    (hr : ofTokens tokens = .ok grouping) {span : Span}
    (stray : ⟨.strayComma, span⟩ ∈ grouping.findings ∨ span ∈ lineStrayCommas grouping.items) :
    LacksItem (lead ++ tokens ++ trail) span := by
  obtain ⟨last, hread, calls, rfl⟩ := ofTokens_cases hr
  have matched := read_line_matched unbroken leading trailing hread
  obtain ⟨outside, left⟩ := matched.outside calls
  have explains : Explains (lead ++ tokens ++ trail) last := by
    obtain ⟨scanner, start, admitted, closed⟩ := unbroken.closed
    have begin : Tracks scanner initial := ⟨start.symm, trivial⟩
    have fresh : Follows none initial := fun _ absent => nomatch absent
    exact (read_explains (Explains.start.trivia leading) (Matched.start.trivia leading) begin fresh
      (no_term_of_trivia leading) admitted unbroken.kinds hread).trivia trailing
  have problems := fun finding => @bracketProblem_iff _ outside finding
  have wider : ∀ finding, Found (lead ++ tokens ++ trail) finding →
      BracketProblem (lead ++ tokens ++ trail) finding :=
    fun finding found => (problems finding).2 (Or.inl found)
  rcases stray with found | stray
  · rcases List.mem_append.1 found with own | unclosed
    · obtain ⟨before, comma, after, split, kind, place, _, lacks⟩ := explains.commas span own
      refine ⟨before, comma, after, split, kind, place, ?_⟩
      rcases lacks with lacks | lacks
      · exact Or.inl (lacks.mono wider fun _ _ pair => pair)
      · exact Or.inr (lacks.mono wider)
    · obtain ⟨_, _, same⟩ := (unclosed_calls calls _).1 unclosed
      cases same
  · have spread := explains.spread.mono wider fun _ _ pair => pair
    rw [← List.append_nil last.groups] at spread
    obtain ⟨part, rest, split, list, stop⟩ := Spread.calls calls spread fun group member =>
      (problems _).2 (Or.inr ⟨_, left ▸ List.mem_map_of_mem member, rfl⟩)
    obtain ⟨before, comma, after, here, kind, place, lacks⟩ :=
      @Laid.blamed _ _ _ [] part rest list nofun stop span (lineStrayCommas_subset stray)
    refine ⟨before, comma, after ++ rest, ?_, kind, place, lacks⟩
    rw [split, ← here]
    rfl

end Grouping

theorem readLines_stray {settings : Settings} {text : Source} (faultless : Faultless text.tokens)
    (closed : Closed .initial text.tokens) {pairs : List (Line × List Finding)}
    (h : readLines settings text.tokens = .ok pairs) {span : Span}
    (stray : ⟨.strayComma, span⟩ ∈ pairs.flatMap Prod.snd) :
    ∃ line ∈ splitLines text.tokens, LacksItem line span := by
  have even : ∀ width unit, (Finding.mk .strayComma span).fault ≠ .oddIndent width unit := nofun
  obtain ⟨line, member, grouping, grouped, found⟩ := (mem_readLines h even).1 stray
  have unbroken := splitLines_unbroken faultless closed member
  obtain ⟨lead, trail, split, leading, trailing⟩ := trimTrivia_split line
  refine ⟨line, member, ?_⟩
  rw [split]
  refine Grouping.ofTokens_stray unbroken leading trailing grouped (found.imp_right ?_)
  rintro ⟨other, stray, same⟩
  cases same
  exact stray

theorem Fault.eq_strayComma {fault : Fault} (h : fault.code = "stray_comma") :
    fault = .strayComma := by
  cases fault <;> simp [code] at h ⊢

/-- Every comma that grouping reports as stray lacks an item. -/
theorem group_blames_lacking {document : Document} {tokens : List Token}
    (h : document.tokenize = .ok tokens) (settings : Settings) :
    ∃ findings, Reports document.file findings (document.group settings tokens) ∧
      ∀ finding ∈ findings, finding.fault.code = "stray_comma" →
        ∃ line ∈ splitLines tokens, LacksItem line finding.span := by
  obtain ⟨rfl, pairs, findings, read, perm, reports⟩ := group_reports h settings
  obtain ⟨faultless, closed⟩ := (tokenize_eq_ok_iff document).1 h
  refine ⟨findings, reports, ?_⟩
  rintro ⟨fault, span⟩ member code
  cases Fault.eq_strayComma code
  exact readLines_stray faultless closed read (perm.mem_iff.1 member)

/-- Here the item is missing because the call behind the comma is never closed. -/
theorem group_blames_lacking_at :
    ∃ line ∈ splitLines (Source.tokens ['a', ' ', 'b', ',', ' ', 'f', '(', 'c']),
      LacksItem line ⟨3, 4⟩ := by
  have tokenized : Document.tokenize ⟨"", ['a', ' ', 'b', ',', ' ', 'f', '(', 'c']⟩ =
      .ok (Source.tokens ['a', ' ', 'b', ',', ' ', 'f', '(', 'c']) := by
    decide +kernel
  have refused : Document.group ⟨"", ['a', ' ', 'b', ',', ' ', 'f', '(', 'c']⟩ .default
      (Source.tokens ['a', ' ', 'b', ',', ' ', 'f', '(', 'c']) =
        .error (.rejected ⟨Finding.diagnostic ⟨.strayComma, ⟨3, 4⟩⟩ "",
          [Finding.diagnostic ⟨.openParen, ⟨6, 7⟩⟩ ""]⟩) := rfl
  obtain ⟨findings, reports, lacks⟩ := group_blames_lacking tokenized .default
  rw [refused] at reports
  obtain ⟨finding, rest, rfl, same, _⟩ := List.map_eq_cons_iff.1 (Eq.symm reports)
  have code : finding.fault.code = "stray_comma" := congrArg Diagnostic.code same
  have span : finding.span = ⟨3, 4⟩ := congrArg Diagnostic.span same
  rw [← span]
  exact lacks finding List.mem_cons_self code

/-- Trivia apart, a term stands on either side of this comma. -/
theorem group_blames_between_terms : ∃ before comma after report,
    Document.tokenize ⟨"", ['a', ' ', 'b', ',', ' ', 'f', '(', 'c']⟩ =
      .ok (before ++ comma :: after) ∧
    Document.group ⟨"", ['a', ' ', 'b', ',', ' ', 'f', '(', 'c']⟩ .default
      (before ++ comma :: after) = .error (.rejected report) ∧
    splitLines (before ++ comma :: after) = [before ++ comma :: after] ∧
    (∃ diagnostic ∈ report.toList, diagnostic.code = "stray_comma" ∧ diagnostic.span = comma.span) ∧
    ¬(StartsList before ∨ EndsList after) := by
  refine ⟨[⟨.term, ['a'], 0⟩, ⟨.space, [' '], 1⟩, ⟨.term, ['b'], 2⟩], ⟨.comma, [','], 3⟩,
    [⟨.space, [' '], 4⟩, ⟨.term, ['f'], 5⟩, ⟨.parenOpen, ['('], 6⟩, ⟨.term, ['c'], 7⟩],
    ⟨Finding.diagnostic ⟨.strayComma, ⟨3, 4⟩⟩ "", [Finding.diagnostic ⟨.openParen, ⟨6, 7⟩⟩ ""]⟩,
    by decide +kernel, rfl, rfl, ⟨_, List.mem_cons_self, rfl, rfl⟩, ?_⟩
  rintro (starts | ends)
  · have comma := starts ⟨.term, ['b'], 2⟩ rfl
    simp at comma
  · have comma := ends ⟨.term, ['f'], 5⟩ rfl
    simp at comma

/-- On a line whose brackets are all in place, a comma lacks an item only at the start or at the end
of a list or beside another comma. -/
theorem LacksItem.beside {line : List Token} {span : Span} (h : LacksItem line span)
    (placed : ∀ finding, ¬BracketProblem line finding) :
    ∃ before comma after, line = before ++ comma :: after ∧ comma.kind = .comma ∧
      comma.span = span ∧ (StartsList before ∨ EndsList after) := by
  obtain ⟨before, comma, after, split, kind, place, lacks⟩ := h
  refine ⟨before, comma, after, split, kind, place, lacks.imp ?_ ?_⟩
  · intro lacks
    cases lacks with
    | lacks h => exact h
    | leftOut _ out =>
      cases out with
      | paren _ problem | brace _ problem | partner _ _ problem => exact absurd problem (placed _)
  · intro lacks
    cases lacks with
    | lacks h => exact h
    | detached _ _ problem | opened _ _ _ problem => exact absurd problem (placed _)

end TermOutline
