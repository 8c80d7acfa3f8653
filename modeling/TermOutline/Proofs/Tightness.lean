import TermOutline.Proofs.Brackets
import TermOutline.Proofs.Counting
import TermOutline.Proofs.Joining

/-! # Tight nodes

No node of a tree begins or ends with trivia: a text and a slot reach from one bracket to the other,
and the nest of a line from its head to the end of the last line below it that is deeper.
-/
namespace TermOutline

/-- The brackets that a node stands between, if it is of a kind that has any. -/
def NodeKind.brackets : NodeKind → Option (TokenKind × TokenKind)
  | .nest => none
  | .text => some (.textOpen, .textClose)
  | .slot => some (.slotOpen, .slotClose)

/-- Elements in which every nest begins with its head and ends with no trivia, and in which the
brackets of texts and slots are the first and the last child of a node and stand nowhere else. -/
inductive Element.Tight : Element → Prop where
  | token {token : Token} (opens : ¬Brackets.texts.Opens token.kind)
      (closes : ¬Brackets.texts.Closes token.kind) : Element.Tight (.token token)
  | nest {head : Element} {rest : List Element} (isHead : head.isHead = true) (own : head.Tight)
      (others : ∀ element ∈ rest, element.Tight)
      (ends : ∀ last ∈ (head :: rest).getLast?, last.isTrivia = false) :
      Element.Tight (.node .nest (head :: rest))
  | group {kind : NodeKind} {opening closing : Token} {inner : List Element}
      (brackets : kind.brackets = some (opening.kind, closing.kind))
      (inside : ∀ element ∈ inner, element.Tight) :
      Element.Tight (.node kind (.token opening :: (inner ++ [.token closing])))

theorem NodeKind.brackets_pair {kind : NodeKind} {pair : TokenKind × TokenKind}
    (h : kind.brackets = some pair) : pair ∈ Brackets.texts.pairs := by
  cases kind with
  | nest => cases h
  | text =>
    cases h
    decide
  | slot =>
    cases h
    decide

theorem tight_token {token : Token}
    (kind : token.kind ∉ [.textOpen, .textClose, .slotOpen, .slotClose]) :
    (Element.token token).Tight := by
  simp only [List.mem_cons, List.not_mem_nil, or_false, not_or] at kind
  refine .token ?_ ?_
  · simpa [Brackets.Opens, Brackets.texts] using ⟨kind.1, kind.2.2.1⟩
  · simpa [Brackets.Closes, Brackets.texts] using ⟨kind.2.1, kind.2.2.2⟩

theorem tight_trivia {token : Token} (h : token.isTrivia = true) : (Element.token token).Tight := by
  apply tight_token
  intro bracket
  rw [Token.isTrivia] at h
  cases kind : token.kind <;> simp [kind, TokenKind.isTrivia] at h bracket

theorem tight_gap {gap : List Token} (quiet : content gap = []) :
    ∀ element ∈ gap.map Element.token, element.Tight := by
  intro element member
  obtain ⟨token, inside, rfl⟩ := List.mem_map.1 member
  have skipped := List.filter_eq_nil_iff.1 quiet token inside
  exact tight_trivia (by simpa using skipped)

/-! ## What tight nodes are like -/

theorem group_tokens (kind : NodeKind) (opening closing : Token) (inner : List Element) :
    (Element.node kind (.token opening :: (inner ++ [.token closing]))).tokens =
      opening :: (elementTokens inner ++ [closing]) := by
  simp [elementTokens_cons, elementTokens_append]

theorem balanced_elements {elements : List Element}
    (h : ∀ element ∈ elements, Brackets.texts.Balanced element.tokens) :
    Brackets.texts.Balanced (elementTokens elements) := by
  induction elements with
  | nil => exact .nil
  | cons element rest ih =>
    obtain ⟨first, others⟩ := List.forall_mem_cons.1 h
    rw [elementTokens_cons]
    exact first.append (ih others)

theorem Element.Tight.balanced {element : Element} (h : element.Tight) :
    Brackets.texts.Balanced element.tokens := by
  induction h with
  | token opens closes => exact .other opens closes .nil
  | nest _ _ _ _ own others => exact balanced_elements (List.forall_mem_cons.2 ⟨own, others⟩)
  | group brackets _ inside =>
    rw [group_tokens]
    exact Brackets.balanced_group (NodeKind.brackets_pair brackets) (balanced_elements inside)

mutual

theorem Element.first?_eq : ∀ (element : Element), element.first? = element.tokens.head?
  | .token token => rfl
  | .node kind children => by rw [Element.first?, tokens_node, firstToken?_eq children]

theorem firstToken?_eq : ∀ (elements : List Element),
    firstToken? elements = (elementTokens elements).head?
  | [] => rfl
  | element :: rest => by
    rw [firstToken?, elementTokens_cons, List.head?_append, element.first?_eq, firstToken?_eq rest]
    cases element.tokens.head? <;> rfl

end

mutual

theorem Element.last?_eq : ∀ (element : Element), element.last? = element.tokens.getLast?
  | .token token => rfl
  | .node kind children => by rw [Element.last?, tokens_node, lastToken?_eq children]

theorem lastToken?_eq : ∀ (elements : List Element),
    lastToken? elements = (elementTokens elements).getLast?
  | [] => rfl
  | element :: rest => by
    rw [lastToken?, elementTokens_cons, List.getLast?_append, element.last?_eq, lastToken?_eq rest]
    cases (elementTokens rest).getLast? <;> rfl

end

/-- The tokens that an element begins and ends with. -/
def Element.Edges (element : Element) (first last : Token) : Prop :=
  element.tokens.head? = some first ∧ element.tokens.getLast? = some last

theorem group_edges (kind : NodeKind) (opening closing : Token) (inner : List Element) :
    (Element.node kind (.token opening :: (inner ++ [.token closing]))).Edges opening closing := by
  rw [Element.Edges, group_tokens]
  constructor
  · rfl
  · rw [← List.cons_append, List.getLast?_concat]

theorem isTrivia_of_isHead {element : Element} (h : element.isHead = true) :
    element.isTrivia = false := by
  cases element with
  | node kind children => rfl
  | token token =>
    rw [Element.isTrivia, Token.isTrivia]
    cases kind : token.kind <;> simp [Element.isHead, kind, TokenKind.isValue] at h <;> rfl

/-- A tight element that is not trivia itself begins and ends with what is none. -/
theorem Element.Tight.edges {element : Element} (h : element.Tight)
    (significant : element.isTrivia = false) :
    ∃ first last, element.Edges first last ∧ first.isTrivia = false ∧ last.isTrivia = false := by
  induction h with
  | @token token opens closes => exact ⟨token, token, ⟨rfl, rfl⟩, significant, significant⟩
  | @nest head rest isHead _ _ ends own others =>
    obtain ⟨first, _, ⟨begins, _⟩, early, _⟩ := own (isTrivia_of_isHead isHead)
    obtain ⟨front, final, split⟩ : ∃ front final, head :: rest = front ++ [final] :=
      ⟨_, _, (List.dropLast_concat_getLast (List.cons_ne_nil head rest)).symm⟩
    have closing : ∃ first last, final.Edges first last ∧ first.isTrivia = false ∧
        last.isTrivia = false := by
      have quiet : final.isTrivia = false := ends final (by rw [split, List.getLast?_concat]; rfl)
      have member : final ∈ head :: rest := by
        rw [split]
        exact List.mem_append_right _ List.mem_cons_self
      rcases List.mem_cons.1 member with rfl | later
      · exact own quiet
      · exact others final later quiet
    obtain ⟨_, last, ⟨_, finishes⟩, _, late⟩ := closing
    refine ⟨first, last, ⟨?_, ?_⟩, early, late⟩
    · rw [tokens_node, elementTokens_cons, List.head?_append, begins]
      rfl
    · rw [tokens_node, split, elementTokens_append, List.getLast?_append, elementTokens_cons,
        elementTokens_nil, List.append_nil, finishes]
      rfl
  | @group kind opening closing inner brackets _ _ =>
    refine ⟨opening, closing, group_edges kind opening closing inner, ?_⟩
    rw [Token.isTrivia, Token.isTrivia]
    cases kind with
    | nest => cases brackets
    | text | slot =>
      injection brackets with brackets
      injection brackets with opens closes
      rw [← opens, ← closes]
      exact ⟨rfl, rfl⟩

theorem Element.Tight.inside {kind inner : NodeKind} {children inside : List Element}
    (h : (Element.node kind children).Tight) (member : .node inner inside ∈ children) :
    (Element.node inner inside).Tight := by
  cases h with
  | nest _ own others =>
    rcases List.mem_cons.1 member with rfl | later
    · exact own
    · exact others _ later
  | group _ within =>
    rcases List.mem_cons.1 member with same | later
    · cases same
    · rcases List.mem_append.1 later with among | last
      · exact within _ among
      · cases List.mem_singleton.1 last

theorem tight_of_under {elements : List Element} {element : Element}
    (under : Under elements element)
    (h : ∀ kind children, .node kind children ∈ elements → (Element.node kind children).Tight)
    {kind : NodeKind} {children : List Element} (node : element = .node kind children) :
    element.Tight := by
  induction under with
  | here member =>
    subst node
    exact h kind children member
  | inside member _ ih => exact ih (fun _ _ within => (h _ _ member).inside within) node

theorem under_infix {elements : List Element} {element : Element} (h : Under elements element) :
    element.tokens <:+: elementTokens elements := by
  have member {elements : List Element} {element : Element} (h : element ∈ elements) :
      element.tokens <:+: elementTokens elements := by
    obtain ⟨front, back, rfl⟩ := List.append_of_mem h
    refine ⟨elementTokens front, elementTokens back, ?_⟩
    rw [elementTokens_append, elementTokens_cons, List.append_assoc]
  induction h with
  | here h => exact member h
  | inside h _ ih => exact ih.trans (member h)

/-! ## Nests told apart by where they begin -/

mutual

/-- The nests among an element and what lies under it, each before those in it. -/
def Element.nestsWithin : Element → List Element
  | .token _ => []
  | .node kind children =>
    (if kind = .nest then [.node kind children] else []) ++ elementNests children

def elementNests : List Element → List Element
  | [] => []
  | element :: rest => element.nestsWithin ++ elementNests rest

end

theorem mem_elementNests {elements : List Element} {element nest : Element}
    (member : element ∈ elements) (within : nest ∈ element.nestsWithin) :
    nest ∈ elementNests elements := by
  induction elements with
  | nil => cases member
  | cons first rest ih =>
    rcases List.mem_cons.1 member with rfl | later
    · exact List.mem_append_left _ within
    · exact List.mem_append_right _ (ih later)

theorem elementNests_of_under {elements : List Element} {nest : Element}
    (h : Under elements nest) (isNest : nest.isNest = true) : nest ∈ elementNests elements := by
  induction h with
  | @here elements nest member =>
    refine mem_elementNests member ?_
    match nest with
    | .node .nest children => exact List.mem_append_left _ List.mem_cons_self
  | inside member _ ih => exact mem_elementNests member (List.mem_append_right _ (ih isNest))

theorem nestHeads_elements {elements : List Element}
    (h : ∀ element ∈ elements, (element.nestsWithin.map fun nest => nest.tokens.head?).Sublist
      (element.tokens.map some)) :
    ((elementNests elements).map fun nest => nest.tokens.head?).Sublist
      ((elementTokens elements).map some) := by
  induction elements with
  | nil => exact .refl _
  | cons element rest ih =>
    obtain ⟨first, others⟩ := List.forall_mem_cons.1 h
    rw [elementNests, elementTokens_cons, List.map_append, List.map_append]
    exact first.append (ih others)

/-- Every nest begins with a token of its own. A nest that lies in the head of another begins behind
the bracket that the head begins with. -/
theorem Element.Tight.nestHeads {element : Element} (h : element.Tight) :
    (element.nestsWithin.map fun nest => nest.tokens.head?).Sublist (element.tokens.map some) ∧
      (element.isHead = true → (element.nestsWithin.map fun nest => nest.tokens.head?).Sublist
        (element.tokens.tail.map some)) := by
  induction h with
  | token => exact ⟨List.nil_sublist _, fun _ => List.nil_sublist _⟩
  | @nest head rest isHead own _ _ ownHeads others =>
    obtain ⟨first, _, ⟨begins, _⟩, _⟩ := own.edges (isTrivia_of_isHead isHead)
    obtain ⟨more, split⟩ := List.head?_eq_some_iff.1 begins
    have inner := ownHeads.2 isHead
    have outer := nestHeads_elements fun element member => (others element member).1
    rw [split] at inner
    refine ⟨?_, fun none => by cases none⟩
    rw [tokens_node, elementTokens_cons, split]
    simp only [Element.nestsWithin, if_true, elementNests, List.cons_append, List.nil_append,
      List.map_cons, List.map_append, tokens_node, elementTokens_cons, split, List.head?_cons]
    exact (inner.append outer).cons_cons _
  | @group kind opening closing inner brackets _ heads =>
    have none : kind ≠ .nest := by
      rintro rfl
      cases brackets
    have within := nestHeads_elements fun element member => (heads element member).1
    have same : (Element.node kind (.token opening :: (inner ++ [.token closing]))).nestsWithin =
        elementNests inner := by
      have concat : ∀ elements : List Element,
          elementNests (elements ++ [.token closing]) = elementNests elements := by
        intro elements
        induction elements with
        | nil => rfl
        | cons element rest ih => rw [List.cons_append, elementNests, elementNests, ih]
      simp only [Element.nestsWithin, if_neg none, elementNests, List.nil_append, concat]
    have behind : ((elementNests inner).map fun nest => nest.tokens.head?).Sublist
        ((elementTokens inner ++ [closing]).map some) := by
      rw [List.map_append]
      exact within.trans (List.sublist_append_left _ _)
    rw [same, group_tokens]
    exact ⟨behind.cons _, fun _ => behind⟩

theorem nest_unique {elements : List Element} (tight : ∀ element ∈ elements, element.Tight)
    (distinct : (elementTokens elements).Nodup) {nest other : Element}
    (h : Under elements nest) (h' : Under elements other) (isNest : nest.isNest = true)
    (isNest' : other.isNest = true) (same : nest.tokens.head? = other.tokens.head?) :
    nest = other := by
  have heads := nestHeads_elements fun element member => (tight element member).nestHeads.1
  have once := heads.nodup (distinct.map (Option.some_injective _))
  exact List.inj_on_of_nodup_map once (elementNests_of_under h isNest)
    (elementNests_of_under h' isNest') same

/-! ## Items and lines -/

theorem filled_isTrivia {elements : List Element} (h : elementsFilled elements) :
    ∀ element ∈ elements, element.isTrivia = false := by
  intro element member
  have filled := (elementsFilled_iff _).1 h element member
  cases element with
  | token token => exact filled
  | node kind children => rfl

theorem tight_nest {head : Element} {rest : List Element} (isHead : head.isHead = true)
    (tight : ∀ element ∈ head :: rest, element.Tight)
    (significant : ∀ element ∈ head :: rest, element.isTrivia = false) :
    (Element.node .nest (head :: rest)).Tight := by
  obtain ⟨own, others⟩ := List.forall_mem_cons.1 tight
  exact .nest isHead own others fun last final => significant last (List.mem_of_getLast? final)

theorem Item.Sound.head {item : Item} (h : item.Sound) (other : item.comma? = none) :
    ∃ head rest, item.elements = head :: rest ∧ head.isHead = true := by
  cases item with
  | token token =>
    refine ⟨_, _, rfl, ?_⟩
    rcases h with term | value | comma
    · simp [Element.isHead, term]
    · simp [Element.isHead, value]
    · simp [Item.comma?, comma] at other
  | call head opening items closing => exact ⟨_, _, rfl, by simp [Element.isHead, h.1]⟩
  | text opening pieces closing => exact ⟨_, _, rfl, rfl⟩

mutual

theorem item_tight : ∀ (item : Item), item.Sound → (∀ t ∈ item.tokens, t.isTrivia = false) →
    ∀ element ∈ item.elements, element.Tight
  | .token token, h, _, element, member => by
    rw [List.mem_singleton.1 member]
    apply tight_token
    intro bracket
    rcases h with term | value | comma
    · simp [term] at bracket
    · cases kind : token.kind <;> simp [kind, TokenKind.isValue] at value bracket
    · simp [comma] at bracket
  | .call head opening items closing, h, significant, element, member => by
    simp only [Item.tokens, List.forall_mem_cons, List.forall_mem_append] at significant
    have inner := chains_tight items h.2.2.2.2.2 significant.2.2.1
    simp only [Item.elements, List.mem_cons, List.mem_append, List.not_mem_nil, or_false] at member
    rcases member with rfl | rfl | within | rfl
    · exact tight_token (by simp [h.1])
    · exact tight_token (by simp [h.2.1])
    · exact inner element (List.mem_append.2 within)
    · exact tight_token (by simp [h.2.2.1])
  | .text opening pieces closing, h, significant, element, member => by
    simp only [Item.tokens, List.forall_mem_cons, List.forall_mem_append] at significant
    rw [List.mem_singleton.1 member]
    refine .group ?_ (pieces_tight pieces h.2.2 significant.2.1)
    rw [h.1, h.2.1]
    rfl

theorem pieces_tight : ∀ (pieces : List Piece), piecesSound pieces →
    (∀ t ∈ pieceTokens pieces, t.isTrivia = false) →
      ∀ element ∈ pieceElements pieces, element.Tight
  | [], _, _, element, member => nomatch member
  | .cut token :: rest, h, significant, element, member => by
    obtain ⟨_, later⟩ := List.forall_mem_append.1 significant
    rcases List.mem_cons.1 member with rfl | member
    · exact tight_token (by simp [show token.kind = .textCut from h.1])
    · exact pieces_tight rest h.2 later element member
  | .slot opening items closing :: rest, h, significant, element, member => by
    obtain ⟨first, later⟩ := List.forall_mem_append.1 significant
    simp only [Piece.tokens, List.forall_mem_cons, List.forall_mem_append] at first
    rcases List.mem_cons.1 member with rfl | member
    · refine .group ?_ (chains_tight items h.1.2.2.2 first.2.1)
      rw [h.1.1, h.1.2.1]
      rfl
    · exact pieces_tight rest h.2 later element member

theorem chains_tight : ∀ (items : List Item), itemsSound items →
    (∀ t ∈ itemTokens items, t.isTrivia = false) →
      ∀ element ∈ (chains items).1 ++ (chains items).2, element.Tight
  | [], _, _, element, member => nomatch member
  | item :: rest, h, significant, element, member => by
    obtain ⟨own, later⟩ := List.forall_mem_append.1 significant
    have tail := chains_tight rest h.2 later
    obtain ⟨chain, others⟩ := List.forall_mem_append.1 tail
    rw [chains] at member
    cases hc : item.comma? with
    | some comma =>
      obtain ⟨_, kind⟩ := comma?_eq_some hc
      rw [hc] at member
      rcases List.mem_cons.1 member with rfl | member
      · exact tight_token (by simp [kind])
      · exact tail element member
    | none =>
      rw [hc] at member
      rcases List.mem_cons.1 member with rfl | member
      · obtain ⟨head, more, split, isHead⟩ := h.1.head hc
        have whole := List.forall_mem_append.2 ⟨item_tight item h.1 own, chain⟩
        have filled := filled_isTrivia ((elementsFilled_append _ _).2
          ⟨item_elements_filled item own, (chains_filled rest later).1⟩)
        rw [split, List.cons_append] at whole filled ⊢
        exact tight_nest isHead whole filled
      · exact others element member

end

/-- A line begins with its head, and what follows the head is tight. -/
theorem line_tight {items : List Item} (sound : itemsSound items) (ne : items ≠ [])
    (commas : lineStrayCommas items = [])
    (significant : ∀ t ∈ itemTokens items, t.isTrivia = false) :
    (∃ head rest, lineElements items = head :: rest ∧ head.isHead = true) ∧
      ∀ element ∈ lineElements items, element.Tight := by
  obtain ⟨head, rest, rfl⟩ := List.exists_cons_of_ne_nil ne
  obtain ⟨own, later⟩ := List.forall_mem_append.1 significant
  have other : head.comma? = none := by
    rw [lineStrayCommas] at commas
    cases hc : head.comma? with
    | none => rfl
    | some comma =>
      rw [hc] at commas
      cases commas
  obtain ⟨first, more, split, isHead⟩ := sound.1.head other
  refine ⟨⟨first, more ++ listElements rest, ?_, isHead⟩, ?_⟩
  · rw [lineElements, split, List.cons_append]
  · exact List.forall_mem_append.2
      ⟨item_tight head sound.1 own, chains_tight rest sound.2 later⟩

/-- What nesting needs of a line whose nest is to be tight. -/
structure Line.Plain (line : Line) : Prop where
  nonempty : line.items ≠ []
  sound : itemsSound line.items
  commas : lineStrayCommas line.items = []
  significant : ∀ t ∈ itemTokens line.items, t.isTrivia = false

theorem Line.Reads.plain {settings : Settings} {tokens : List Token} {line : Line}
    (h : line.Reads settings tokens) : line.Plain := by
  refine ⟨h.nonempty, h.sound, h.commas, ?_⟩
  intro token member
  rw [h.made] at member
  simpa using (List.mem_filter.1 member).2

theorem nestLine_tight {lines : List ClampedLine} (h : ∀ clamped ∈ lines, clamped.line.Plain) :
    ∀ entry ∈ lines.foldr nestLine [], entry.2.Tight ∧ entry.2.isTrivia = false := by
  induction lines with
  | nil => simp
  | cons clamped rest ih =>
    obtain ⟨plain, others⟩ := List.forall_mem_cons.1 h
    have after := ih others
    refine List.forall_mem_cons.2 ⟨⟨?_, rfl⟩, ?_⟩
    · obtain ⟨⟨head, more, split, isHead⟩, own⟩ :=
        line_tight plain.sound plain.nonempty plain.commas plain.significant
      have children : ∀ element ∈ ((rest.foldr nestLine []).takeWhile fun entry =>
          decide (clamped.depth < entry.1)).map Prod.snd,
            element.Tight ∧ element.isTrivia = false := by
        intro element member
        obtain ⟨entry, inside, rfl⟩ := List.mem_map.1 member
        exact after entry ((List.takeWhile_prefix _).subset inside)
      have whole := List.forall_mem_append.2
        ⟨own, fun element member => (children element member).1⟩
      have filled := List.forall_mem_append.2
        ⟨filled_isTrivia (lineElements_filled plain.significant),
          fun element member => (children element member).2⟩
      dsimp only
      rw [split, List.cons_append] at whole filled ⊢
      exact tight_nest isHead whole filled
    · intro entry member
      exact after entry ((List.dropWhile_suffix _).subset member)

/-! ## Trivia put in -/

theorem Element.Padded.isTrivia_eq {element padded : Element} (h : element.Padded padded) :
    padded.isTrivia = element.isTrivia := by
  cases element with
  | token token => rw [show padded = .token token from h]
  | node kind children =>
    obtain ⟨inner, rfl, _⟩ := h
    rfl

theorem tight_padded {elements padded : List Element} (h : elementsPadded elements padded)
    (each : ∀ own ∈ elements, ∀ other, own.Padded other → other.Tight) :
    ∀ element ∈ padded, element.Tight := by
  induction elements generalizing padded with
  | nil =>
    rw [show padded = [] from h]
    exact List.forall_mem_nil _
  | cons element rest ih =>
    obtain ⟨trivia, first, others, rfl, quiet, own, later⟩ := h
    obtain ⟨here, behind⟩ := List.forall_mem_cons.1 each
    exact List.forall_mem_append.2
      ⟨tight_gap quiet, List.forall_mem_cons.2 ⟨here first own, ih later behind⟩⟩

theorem padded_getLast? {elements padded : List Element} (h : elementsPadded elements padded) :
    ∀ last ∈ padded.getLast?, ∃ own ∈ elements.getLast?, own.Padded last := by
  induction elements generalizing padded with
  | nil =>
    rw [show padded = [] from h]
    exact nofun
  | cons element rest ih =>
    obtain ⟨trivia, first, others, rfl, _, own, later⟩ := h
    intro last final
    rw [List.getLast?_append, List.getLast?_cons, Option.some_or, Option.mem_some_iff] at final
    cases rest with
    | nil =>
      rw [show others = [] from later] at final
      exact ⟨element, rfl, final ▸ own⟩
    | cons next more =>
      cases behind : others.getLast? with
      | none =>
        obtain ⟨_, _, _, rfl, _⟩ := later
        simp at behind
      | some other =>
        rw [behind] at final
        rw [List.getLast?_cons_cons]
        exact ih later last (behind.trans (congrArg some final))

theorem padded_split {front back padded : List Element}
    (h : elementsPadded (front ++ back) padded) : ∃ before behind, padded = before ++ behind ∧
      elementsPadded front before ∧ elementsPadded back behind := by
  induction front generalizing padded with
  | nil => exact ⟨[], padded, rfl, rfl, h⟩
  | cons element rest ih =>
    obtain ⟨trivia, first, others, rfl, quiet, own, later⟩ := h
    obtain ⟨before, behind, rfl, hf, hb⟩ := ih later
    exact ⟨trivia.map Element.token ++ first :: before, behind, by simp,
      ⟨trivia, first, before, rfl, quiet, own, hf⟩, hb⟩

theorem Element.Tight.padded {element : Element} (h : element.Tight) {padded : Element}
    (put : element.Padded padded) : padded.Tight := by
  induction h generalizing padded with
  | token opens closes =>
    rw [show padded = _ from put]
    exact .token opens closes
  | @nest head rest isHead _ _ ends own others =>
    obtain ⟨inner, rfl, bare, put⟩ := put
    have kept : ∀ last ∈ inner.getLast?, last.isTrivia = false := by
      intro last final
      obtain ⟨source, among, same⟩ := padded_getLast? put last final
      rw [same.isTrivia_eq]
      exact ends source among
    obtain ⟨trivia, first, more, rfl, quiet, begins, later⟩ := put
    obtain rfl := trivia_eq_nil quiet bare
    refine .nest ?_ (own begins) (tight_padded later fun source among _ => others source among) kept
    rw [begins.same.2.1]
    exact isHead
  | @group kind opening closing inner brackets _ inside =>
    obtain ⟨children, rfl, bare, put⟩ := put
    obtain ⟨trivia, first, more, rfl, quiet, begins, later⟩ := put
    obtain rfl := trivia_eq_nil quiet bare
    obtain rfl : first = .token opening := begins
    obtain ⟨before, behind, rfl, front, back⟩ := padded_split later
    obtain ⟨gap, last, none, rfl, blank, ends, finished⟩ := back
    obtain rfl : last = .token closing := ends
    obtain rfl : none = [] := finished
    rw [List.map_nil, List.nil_append, ← List.append_assoc]
    exact .group brackets (List.forall_mem_append.2
      ⟨tight_padded front fun source among _ => inside source among, tight_gap blank⟩)

end TermOutline
