import TermOutline.Proofs.NestingFaults
import TermOutline.Proofs.StrayCommas

/-! # Commas out of place

On lines whose brackets are all in place, the commas that grouping reports are told by the lists
alone: those that stand first or last in their list, and those that directly follow another comma.
Only a comma directly behind the head of a line is left to the faults of nesting.
-/
namespace TermOutline

/-- A comma between two parts of a list is out of place when it stands first, last, or directly
behind another comma. -/
def Misplaced (front back : List Item) : Prop :=
  front = [] ∨ back = [] ∨ ∃ last ∈ front.getLast?, last.isComma = true

theorem misplaced_cons {item : Item} {front back : List Item} :
    Misplaced (item :: front) back ↔ (front = [] ∧ item.isComma = true) ∨ back = [] ∨
      ∃ last ∈ front.getLast?, last.isComma = true := by
  cases front with
  | nil => simp [Misplaced, or_comm]
  | cons next others => simp [Misplaced]

theorem repeatedCommas_mem {comma : Token} (kind : comma.kind = .comma) (back : List Item) :
    ∀ {front : List Item} {after : Bool}, (front = [] → after = true) →
      (∀ last ∈ front.getLast?, last.isComma = true) →
        comma.span ∈ repeatedCommas after (front ++ .token comma :: back)
  | [], after, start, _ => by
    rw [start rfl, List.nil_append, repeatedCommas, comma?_of_kind kind]
    exact List.mem_cons_self
  | item :: rest, after, _, behind => by
    have later : ∀ last ∈ rest.getLast?, last.isComma = true := by
      intro last final
      refine behind last ?_
      rw [List.getLast?_cons, Option.mem_def.1 final]
      rfl
    rw [List.cons_append, repeatedCommas]
    cases own : item.comma? with
    | none =>
      refine repeatedCommas_mem kind back (fun alone => ?_) later
      -- the item would be the last before the comma, and so a comma
      have isComma := behind item (by rw [alone]; rfl)
      rw [Item.isComma, own] at isComma
      exact isComma
    | some other =>
      have member := repeatedCommas_mem kind back (fun _ => rfl) later
      dsimp only
      split
      · exact List.mem_cons_of_mem _ member
      · exact member

theorem finalComma_concat {comma : Token} (kind : comma.kind = .comma) (front : List Item)
    (before : Item) : finalComma (front ++ [before, .token comma]) =
      if before.isComma then [] else [comma.span] := by
  simp [finalComma, comma?_of_kind kind]

theorem mem_finalComma_iff {items : List Item} {span : Span} :
    span ∈ finalComma items ↔ ∃ front before comma, items = front ++ [before, .token comma] ∧
      before.isComma = false ∧ comma.kind = .comma ∧ comma.span = span := by
  constructor
  · intro member
    obtain ⟨front, comma, rfl, kind, place⟩ := mem_finalComma member
    rcases List.eq_nil_or_concat front with rfl | ⟨front, before, rfl⟩
    · cases member
    · rw [List.concat_eq_append, List.append_assoc, List.singleton_append,
        finalComma_concat kind] at member
      split at member
      · cases member
      · next other =>
        exact ⟨front, before, comma, by simp, Bool.eq_false_of_not_eq_true other, kind, place⟩
  · rintro ⟨front, before, comma, rfl, other, kind, rfl⟩
    rw [finalComma_concat kind, other]
    exact List.mem_cons_self

/-- The stray commas of a list. When the start of the list does not count as a comma, one that
stands first is none of them. -/
theorem mem_strayCommas_iff {after : Bool} {items : List Item} {span : Span} :
    span ∈ strayCommas after items ↔ ∃ front comma back, items = front ++ .token comma :: back ∧
      comma.kind = .comma ∧ comma.span = span ∧ Misplaced front back ∧
        (front = [] → after = true) := by
  rw [strayCommas, List.mem_append]
  constructor
  · rintro (repeated | final)
    · obtain ⟨front, comma, back, split, kind, place, start, behind⟩ := mem_repeatedCommas repeated
      refine ⟨front, comma, back, split, kind, place, ?_, start⟩
      rcases List.eq_nil_or_concat front with rfl | ⟨others, last, rfl⟩
      · exact Or.inl rfl
      · have final : (others.concat last).getLast? = some last := by simp
        exact Or.inr (Or.inr ⟨last, final, behind last final⟩)
    · obtain ⟨front, before, comma, split, _, kind, place⟩ := mem_finalComma_iff.1 final
      refine ⟨front ++ [before], comma, [], by simp [split], kind, place, Or.inr (Or.inl rfl), ?_⟩
      simp
  · rintro ⟨front, comma, back, rfl, kind, rfl, misplaced, start⟩
    -- a comma that does not repeat another is the last one of the list
    by_cases behind : ∀ last ∈ front.getLast?, last.isComma = true
    · exact Or.inl (repeatedCommas_mem kind back start behind)
    · obtain ⟨last, final, other⟩ : ∃ last, front.getLast? = some last ∧ last.isComma = false := by
        simpa using behind
      rcases misplaced with rfl | rfl | ⟨comma, same, isComma⟩
      · cases final
      · obtain ⟨others, rfl⟩ := List.getLast?_eq_some_iff.1 final
        exact Or.inr (mem_finalComma_iff.2 ⟨others, last, comma, by simp, other, kind, rfl⟩)
      · rw [final] at same
        cases same
        rw [other] at isComma
        cases isComma

theorem mem_lineStrayCommas_iff {items : List Item} {span : Span} :
    span ∈ lineStrayCommas items ↔ ∃ front comma back, items = front ++ .token comma :: back ∧
      comma.kind = .comma ∧ comma.span = span ∧ Misplaced front back ∧
        ∀ head, front = [head] → head.isComma = true := by
  cases items with
  | nil =>
    refine iff_of_false List.not_mem_nil ?_
    rintro ⟨front, comma, back, split, _⟩
    exact List.append_ne_nil_of_right_ne_nil _ (List.cons_ne_nil _ _) split.symm
  | cons head rest =>
    rw [lineStrayCommas]
    -- a head that is a comma is stray itself, and then the rest starts behind a comma
    cases own : head.comma? with
    | none =>
      have other : head.isComma = false := by rw [Item.isComma, own]; rfl
      rw [mem_strayCommas_iff]
      constructor
      · rintro ⟨front, comma, back, rfl, kind, place, misplaced, start⟩
        refine ⟨head :: front, comma, back, rfl, kind, place, misplaced_cons.2 ?_, ?_⟩
        · exact Or.inr (misplaced.resolve_left fun none => Bool.false_ne_true (start none))
        · rintro _ ⟨⟩
          exact absurd (start rfl) Bool.false_ne_true
      · rintro ⟨_ | ⟨first, front⟩, comma, back, split, kind, place, misplaced, behind⟩
        · cases split
          rw [comma?_of_kind kind] at own
          cases own
        · cases split
          have more : front ≠ [] := by
            rintro rfl
            rw [behind head rfl] at other
            cases other
          refine ⟨front, comma, back, rfl, kind, place, ?_, fun none => absurd none more⟩
          exact Or.inr ((misplaced_cons.1 misplaced).resolve_left fun alone => more alone.1)
    | some first =>
      obtain ⟨rfl, kind⟩ := comma?_eq_some own
      have isComma : (Item.token first).isComma = true := by rw [Item.isComma, own]; rfl
      dsimp only
      rw [List.mem_cons, mem_strayCommas_iff]
      constructor
      · rintro (rfl | ⟨front, comma, back, rfl, kind, place, misplaced, _⟩)
        · refine ⟨[], first, rest, rfl, kind, rfl, Or.inl rfl, ?_⟩
          rintro head ⟨⟩
        · refine ⟨.token first :: front, comma, back, rfl, kind, place, misplaced_cons.2 ?_, ?_⟩
          · exact misplaced.imp_left fun none => ⟨none, isComma⟩
          · rintro _ ⟨⟩
            exact isComma
      · rintro ⟨_ | ⟨_, front⟩, comma, back, split, kind, place, misplaced, _⟩
        · cases split
          exact Or.inl place.symm
        · cases split
          refine Or.inr ⟨front, comma, back, rfl, kind, place, ?_, fun _ => rfl⟩
          exact (misplaced_cons.1 misplaced).imp_left And.left

/-! ## Lines and documents -/

/-- The items of the lines of a text that say something, by their tokens alone. -/
def LaidOut (tokens : List Token) (lines : List (List Item)) : Prop :=
  List.Forall₂ (fun line items => itemsPlaced items ∧ itemTokens items = content line)
    (contentLines tokens) lines

theorem LaidOut.unique {tokens : List Token} {lines others : List (List Item)}
    (h : LaidOut tokens lines) (h' : LaidOut tokens others) : lines = others := by
  rw [LaidOut] at h h'
  generalize contentLines tokens = bodies at h h'
  induction h generalizing others with
  | nil =>
    cases h'
    rfl
  | cons line _ ih =>
    obtain _ | ⟨other, rest⟩ := h'
    have ends : GroupEnds [] := nofun
    have same := line.2.trans other.2.symm
    rw [ih rest, (itemsPlaced_unique line.1 other.1 ends ends (congrArg (· ++ []) same)).1]

/-- A comma of a line that is out of place in its list. Directly behind the head of the line it
counts only if the head is a comma as well. -/
inductive StrayComma (line : List Item) (comma : Token) : Prop where
  | line {front back : List Item} (split : line = front ++ .token comma :: back)
      (kind : comma.kind = .comma) (misplaced : Misplaced front back)
      (behind : ∀ head, front = [head] → head.isComma = true)
  | list {list front back : List Item} (member : list ∈ itemLists line)
      (split : list = front ++ .token comma :: back) (kind : comma.kind = .comma)
      (misplaced : Misplaced front back)

theorem mem_stray_iff {items : List Item} {span : Span} :
    ⟨.strayComma, span⟩ ∈ strayIn (itemLists items) ∨ span ∈ lineStrayCommas items ↔
      ∃ comma, StrayComma items comma ∧ comma.span = span := by
  have nested : ⟨.strayComma, span⟩ ∈ strayIn (itemLists items) ↔
      ∃ list ∈ itemLists items, span ∈ strayCommas true list := by
    simp [strayIn]
  rw [nested, mem_lineStrayCommas_iff]
  constructor
  · rintro (⟨list, member, stray⟩ | ⟨front, comma, back, split, kind, place, misplaced, behind⟩)
    · obtain ⟨front, comma, back, split, kind, place, misplaced, _⟩ := mem_strayCommas_iff.1 stray
      exact ⟨comma, .list member split kind misplaced, place⟩
    · exact ⟨comma, .line split kind misplaced behind, place⟩
  · rintro ⟨comma, stray, place⟩
    cases stray with
    | line split kind misplaced behind =>
      exact Or.inr ⟨_, comma, _, split, kind, place, misplaced, behind⟩
    | list member split kind misplaced =>
      refine Or.inl ⟨_, member, mem_strayCommas_iff.2 ?_⟩
      exact ⟨_, comma, _, split, kind, place, misplaced, fun _ => rfl⟩

theorem Reports.refused {α : Type} {file : String} {findings : List Finding}
    {result : Except Failure α} (h : Reports file findings result) {finding : Finding}
    (member : finding ∈ findings) : ∃ report : Report, result = .error (.rejected report) ∧
      finding.diagnostic file ∈ report.toList := by
  rcases result with (report | breach) | value
  · have listed : report.toList = findings.map fun finding => finding.diagnostic file := h
    refine ⟨report, rfl, ?_⟩
    rw [listed]
    exact List.mem_map_of_mem member
  · exact absurd h id
  · rw [show findings = [] from h] at member
    cases member

/-- How grouping lays out a line in which it finds no bracket out of place. -/
structure Grouped (body : List Token) (items : List Item) : Prop where
  grouping : ∃ groups, Grouping.ofTokens (trimTrivia body) =
    .ok ⟨items, groups, strayIn (itemLists items)⟩
  placed : itemsPlaced items
  tokens : itemTokens items = content body

theorem grouped_of_unbroken {body : List Token} (unbroken : Unbroken (trimTrivia body))
    (clean : ∀ grouping, Grouping.ofTokens (trimTrivia body) = .ok grouping →
      ∀ finding ∈ grouping.findings, finding.fault.isBracket = false) :
    ∃ items, Grouped body items := by
  obtain ⟨⟨items, groups, findings⟩, grouped⟩ := Grouping.ofTokens_of_unbroken unbroken
  obtain ⟨placed, tokens, stray⟩ := Grouping.ofTokens_lays unbroken grouped (clean _ grouped)
  dsimp only at placed tokens stray
  subst stray
  exact ⟨items, ⟨groups, grouped⟩, placed, by rw [tokens, content_trimTrivia]⟩

theorem exists_forall₂ {α β : Type} {R : α → β → Prop} {as : List α}
    (h : ∀ a ∈ as, ∃ b, R a b) : ∃ bs, List.Forall₂ R as bs := by
  induction as with
  | nil => exact ⟨[], .nil⟩
  | cons a rest ih =>
    obtain ⟨first, others⟩ := List.forall_mem_cons.1 h
    obtain ⟨b, related⟩ := first
    obtain ⟨bs, all⟩ := ih others
    exact ⟨b :: bs, .cons related all⟩

/-- Findings that name exactly the commas out of place, each of them once. -/
structure CommaReport (lines : List (List Item)) (findings : List Finding) : Prop where
  once : (findings.map Finding.mark).Nodup
  complete : ∀ finding, finding.fault.code = "stray_comma" → (finding ∈ findings ↔
    ∃ line ∈ lines, ∃ comma, StrayComma line comma ∧ finding = ⟨.strayComma, comma.span⟩)

section

variable {text : Source} {settings : Settings} {pairs : List (Line × List Finding)}
  {lines : List (List Item)} (faultless : Faultless text.tokens)
  (closed : Closed .initial text.tokens) (read : readLines settings text.tokens = .ok pairs)
  (clean : ∀ finding ∈ pairs.flatMap Prod.snd, finding.fault.isBracket = false)

include faultless closed read clean

theorem readLines_grouped : ∃ lines, List.Forall₂ Grouped (contentLines text.tokens) lines := by
  refine exists_forall₂ fun body place => ?_
  have member := List.mem_of_mem_filter place
  refine grouped_of_unbroken (splitLines_unbroken faultless closed member) ?_
  intro grouping grouped finding found
  by_contra bracket
  have isBracket : finding.fault.isBracket = true := by simpa using bracket
  have even : ∀ width unit, finding.fault ≠ .oddIndent width unit := by
    intro width unit odd
    rw [odd] at isBracket
    cases isBracket
  exact bracket (clean finding ((mem_readLines read even).2 ⟨body, member, grouping, grouped,
    Or.inl found⟩))

theorem readLines_once : ((pairs.flatMap Prod.snd).map Finding.mark).Nodup := by
  -- only a comma behind a parenthesis that follows no term comes up twice
  refine List.nodup_iff_count_le_one.2 fun mark => (readLines_counted read ?_).once
  rintro line member ⟨_, comma, ⟨before, opening, inside, closing, after, split, kind, left, _⟩, _⟩
  have problem : BracketProblem line ⟨.detachedParen, opening.span⟩ :=
    .detachedParen split kind left
  have found := (readLines_brackets faultless closed read rfl).2 ⟨line, member, problem⟩
  cases clean _ found

omit faultless closed clean in
theorem readLines_commas (grouped : List.Forall₂ Grouped (contentLines text.tokens) lines)
    {span : Span} : ⟨.strayComma, span⟩ ∈ pairs.flatMap Prod.snd ↔
      ∃ line ∈ lines, ∃ comma, StrayComma line comma ∧ comma.span = span := by
  have even : ∀ width unit, (Finding.mk .strayComma span).fault ≠ .oddIndent width unit := nofun
  rw [mem_readLines read even]
  constructor
  · rintro ⟨body, member, grouping, made, found⟩
    by_cases blank : content body = []
    · rw [trimTrivia_eq_nil blank] at made
      cases made
      rcases found with own | ⟨_, stray, _⟩
      · cases own
      · cases stray
    · have place : body ∈ contentLines text.tokens :=
        List.mem_filter.2 ⟨member, by simpa using blank⟩
      obtain ⟨line, inside, ⟨groups, same⟩, _⟩ := forall₂_mem_right grouped.flip place
      rw [same] at made
      cases made
      refine ⟨line, inside, mem_stray_iff.1 (found.imp_right ?_)⟩
      rintro ⟨other, stray, same⟩
      cases same
      exact stray
  · rintro ⟨line, inside, stray⟩
    obtain ⟨body, place, ⟨groups, made⟩, _⟩ := forall₂_mem_right grouped inside
    refine ⟨body, List.mem_of_mem_filter place, _, made, ?_⟩
    exact (mem_stray_iff.2 stray).imp_right fun stray => ⟨span, stray, rfl⟩

end

theorem headComma_found {source : Source} {lines : List Line} {line : Line} (member : line ∈ lines)
    {head : Item} {comma : Token} {rest : List Item}
    (items : line.items = head :: .token comma :: rest) (kind : comma.kind = .comma)
    (deepest : Nat) :
    ⟨.headComma (sourceText source head.span), comma.span⟩ ∈
      treeFindings source (clampDepths deepest 0 lines) := by
  rw [← clampDepths_lines deepest 0 lines] at member
  obtain ⟨clamped, inside, rfl⟩ := List.mem_map.1 member
  obtain ⟨number, place⟩ := List.mem_iff_getElem?.1 inside
  refine mem_treeFindings_iff.2 ⟨number, clamped, place, Or.inr ?_⟩
  rw [items, mem_lineFindings]
  exact Or.inr (Or.inl (mem_headCommaFindings.2 ⟨comma, rest, rfl, kind, rfl⟩))

theorem Grouped.items_eq {settings : Settings} {body : List Token} {items : List Item} {line : Line}
    (h : Grouped body items) (unbroken : Unbroken (trimTrivia body))
    (reads : line.Reads settings body) : line.items = items := by
  obtain ⟨groups, made⟩ := h.grouping
  obtain ⟨offset, contiguous⟩ := unbroken.contiguous
  have tokens : content (trimTrivia body) = itemTokens line.items := by
    rw [content_trimTrivia, reads.made]
  rw [Grouping.ofTokens_items reads.sound tokens contiguous, Except.ok.injEq] at made
  exact congrArg Grouping.items made

theorem parse_refuses_headComma {document : Document} {settings : Settings}
    {lines : List (List Item)} {findings : List Finding}
    (faultless : Faultless document.text.tokens) (closed : Closed .initial document.text.tokens)
    (grouped : List.Forall₂ Grouped (contentLines document.text.tokens) lines)
    (reports : Reports document.file findings (document.group settings document.text.tokens))
    {head : Item} {comma : Token} {rest : List Item}
    (member : head :: .token comma :: rest ∈ lines) (kind : comma.kind = .comma) :
    ∃ report, document.parse settings = .error (.rejected report) ∧
      (findings = [] → ∃ diagnostic ∈ report.toList,
        diagnostic.code = "head_comma" ∧ diagnostic.span = comma.span) := by
  cases findings with
  | cons finding others =>
    -- grouping refuses the document for something else, and nesting does not see the comma
    obtain ⟨report, refused, _⟩ := reports.refused List.mem_cons_self
    exact ⟨report, parse_of_group_error faultless closed refused, nofun⟩
  | nil =>
    rcases group_spec document settings faultless closed with
      ⟨report, refused, _⟩ | ⟨read, _, reads⟩
    · rw [refused] at reports
      exact absurd reports (List.cons_ne_nil _ _)
    · obtain ⟨body, place, made⟩ := forall₂_mem_right grouped member
      obtain ⟨line, inside, reading⟩ := forall₂_mem_right reads.flip place
      have unbroken := splitLines_unbroken faultless closed (List.mem_of_mem_filter place)
      have found := @headComma_found document.text _ _ inside _ _ _
        (made.items_eq unbroken reading) kind settings.maxDepth
      obtain ⟨tree, _, parsed⟩ := parse_of_linesRead faultless closed reads
      obtain ⟨listed, perm, _, nesting⟩ := reports_accept document _ tree
      rw [← parsed] at nesting
      obtain ⟨report, refused, diagnosed⟩ := nesting.refused (perm.mem_iff.2 found)
      exact ⟨report, refused, fun _ => ⟨_, diagnosed, rfl, rfl⟩⟩

/-- Where brackets are all in place, grouping reports exactly the commas that are not. -/
theorem group_diagnoses_commas {document : Document} {tokens : List Token}
    (h : document.tokenize = .ok tokens) {settings : Settings}
    (placed : ∀ report, document.group settings tokens = .error (.rejected report) →
      ∀ diagnostic ∈ report.toList, diagnostic.code ∉ bracketCodes) :
    ∃ lines findings, LaidOut tokens lines ∧
      (∀ others, LaidOut tokens others → others = lines) ∧
      CommaReport lines findings ∧
      Reports document.file findings (document.group settings tokens) ∧
      ∀ head comma rest, head :: .token comma :: rest ∈ lines → comma.kind = .comma →
        ∃ report, document.parse settings = .error (.rejected report) ∧
          (findings = [] → ∃ diagnostic ∈ report.toList,
            diagnostic.code = "head_comma" ∧ diagnostic.span = comma.span) := by
  obtain ⟨rfl, pairs, findings, read, perm, reports⟩ := group_reports h settings
  obtain ⟨faultless, closed⟩ := (tokenize_eq_ok_iff document).1 h
  have clean : ∀ finding ∈ pairs.flatMap Prod.snd, finding.fault.isBracket = false := by
    intro finding member
    obtain ⟨report, refused, listed⟩ := reports.refused (perm.mem_iff.2 member)
    have other := placed report refused _ listed
    by_contra bracket
    exact other ((Fault.isBracket_iff _).1 (by simpa using bracket))
  obtain ⟨lines, grouped⟩ := readLines_grouped faultless closed read clean
  have laid : LaidOut document.text.tokens lines :=
    grouped.imp fun _ _ made => ⟨made.placed, made.tokens⟩
  refine ⟨lines, findings, laid, fun others other => other.unique laid, ⟨?_, ?_⟩, reports, ?_⟩
  · exact (perm.map _).nodup_iff.2 (readLines_once faultless closed read clean)
  · rintro ⟨fault, span⟩ code
    cases Fault.eq_strayComma code
    rw [perm.mem_iff, readLines_commas read grouped]
    simp only [Finding.mk.injEq, true_and, eq_comm]
  · intro head comma rest member kind
    exact parse_refuses_headComma faultless closed grouped reports member kind

/-- The comma behind the head is not among the stray ones, the one that the call begins with is. -/
theorem group_diagnoses_commas_at : ∃ lines findings,
    CommaReport lines findings ∧ ⟨.strayComma, ⟨5, 6⟩⟩ ∈ findings ∧
      Reports "" findings (Document.group ⟨"", ['a', ',', ' ', 'f', '(', ',', 'b', ')']⟩ .default
        (Source.tokens ['a', ',', ' ', 'f', '(', ',', 'b', ')'])) ∧
      ∃ report, Document.parse ⟨"", ['a', ',', ' ', 'f', '(', ',', 'b', ')']⟩ .default =
        .error (.rejected report) := by
  have tokenized : Document.tokenize ⟨"", ['a', ',', ' ', 'f', '(', ',', 'b', ')']⟩ =
      .ok (Source.tokens ['a', ',', ' ', 'f', '(', ',', 'b', ')']) := by
    decide +kernel
  have refused : Document.group ⟨"", ['a', ',', ' ', 'f', '(', ',', 'b', ')']⟩ .default
      (Source.tokens ['a', ',', ' ', 'f', '(', ',', 'b', ')']) =
        .error (.rejected ⟨Finding.diagnostic ⟨.strayComma, ⟨5, 6⟩⟩ "", []⟩) := rfl
  obtain ⟨lines, findings, _, unique, commas, reports, heads⟩ :=
    @group_diagnoses_commas _ _ tokenized .default (by
      intro report rejected diagnostic member
      rw [refused] at rejected
      cases rejected
      rw [List.mem_singleton.1 member]
      decide)
  have laid : LaidOut (Source.tokens ['a', ',', ' ', 'f', '(', ',', 'b', ')'])
      [[.token ⟨.term, ['a'], 0⟩, .token ⟨.comma, [','], 1⟩, .call ⟨.term, ['f'], 3⟩
        ⟨.parenOpen, ['('], 4⟩ [.token ⟨.comma, [','], 5⟩, .token ⟨.term, ['b'], 6⟩]
        ⟨.parenClose, [')'], 7⟩]] := by
    have call : Item.Placed (.call ⟨.term, ['f'], 3⟩ ⟨.parenOpen, ['('], 4⟩
        [.token ⟨.comma, [','], 5⟩, .token ⟨.term, ['b'], 6⟩] ⟨.parenClose, [')'], 7⟩) :=
      ⟨rfl, rfl, rfl, by decide, Or.inr (Or.inr rfl), Or.inl rfl, trivial⟩
    exact .cons ⟨⟨Or.inl rfl, Or.inr (Or.inr rfl), call, trivial⟩, rfl⟩ .nil
  obtain rfl := unique _ laid
  refine ⟨_, findings, commas, (commas.complete _ rfl).2 ⟨_, List.mem_cons_self,
    ⟨.comma, [','], 5⟩, ?_, rfl⟩, reports, ?_⟩
  · exact .list List.mem_cons_self rfl rfl (Or.inl rfl)
  · exact (heads _ _ _ List.mem_cons_self rfl).imp fun _ refusal => refusal.1

end TermOutline
