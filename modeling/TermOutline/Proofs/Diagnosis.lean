import TermOutline.Proofs.Counting

/-! # The lexical report

The lexical stage reports every run of unknown characters once, every token that is a fault or a
malformed number, and every text that is left open, and nothing else. Its findings lie side by side
in the order of the text: no two of them overlap.
-/
namespace TermOutline

/-- Unknown tokens, with nothing unknown directly before them or behind them. -/
structure MaximalRun (tokens before run after : List Token) : Prop where
  split : tokens = before ++ run ++ after
  kinds : ∀ token ∈ run, token.kind = .unknown
  left : ∀ last ∈ before.getLast?, last.kind ≠ .unknown
  right : ∀ next ∈ after.head?, next.kind ≠ .unknown

/-- What is wrong with a token by itself. -/
inductive TokenProblem (token : Token) : Fault → Prop where
  | tab (kind : token.kind = .tab) : TokenProblem token .tab
  | textBrace (kind : token.kind = .textBrace) : TokenProblem token .textBrace
  | badEscape {c : Char} (kind : token.kind = .badEscape) (text : token.text = ['\\', c]) :
      TokenProblem token (.badEscape c)
  | codeBaseMissing (kind : token.kind = .code) (text : token.text = ['#']) :
      TokenProblem token .codeBaseMissing
  | codeBaseUnknown {letter : Char} {digits : Source} (kind : token.kind = .code)
      (text : token.text = '#' :: letter :: digits) (unknown : CodeBase.ofLetter? letter = none) :
      TokenProblem token (.codeBaseUnknown letter)
  | codeEmpty {letter : Char} {base : CodeBase} (kind : token.kind = .code)
      (text : token.text = ['#', letter]) (known : CodeBase.ofLetter? letter = some base) :
      TokenProblem token (.codeEmpty token.text)
  | codeDigit {letter digit : Char} {base : CodeBase} {good rest : Source}
      (kind : token.kind = .code) (text : token.text = '#' :: letter :: (good ++ digit :: rest))
      (known : CodeBase.ofLetter? letter = some base) (first : ∀ c ∈ good, base.hasDigit c = true)
      (bad : base.hasDigit digit = false) : TokenProblem token (.codeDigit digit base)
  | decimalFraction (kind : token.kind = .decimal) (point : token.text.getLast? = some '.') :
      TokenProblem token (.decimalFraction token.text)

/-- What is wrong with a text before its tokens are grouped. -/
inductive LexicalProblem (text : Source) : Finding → Prop where
  | unknownText {before rest after : List Token} {first : Token} {quoted : Source}
      (run : MaximalRun text.tokens before (first :: rest) after)
      (found : text.slice? (tokenSpan first rest).start (tokenSpan first rest).stop = some quoted) :
      LexicalProblem text ⟨.unknownText quoted, tokenSpan first rest⟩
  | token {token : Token} {fault : Fault} (member : token ∈ text.tokens)
      (problem : TokenProblem token fault) : LexicalProblem text ⟨fault, token.span⟩
  | openText {token : Token} (member : token ∈ text.tokens) (kind : token.kind = .textOpen)
      (unclosed : token.span ∈ unclosedTexts text.tokens) :
      LexicalProblem text ⟨.openText, token.span⟩

/-! ## Single tokens -/

theorem codeFault?_problem {token : Token} (kind : token.kind = .code) {rest : Source}
    (text : token.text = '#' :: rest) {fault : Fault} (h : codeFault? token.text = some fault) :
    TokenProblem token fault := by
  rw [text] at h
  cases rest with
  | nil =>
    cases h
    exact .codeBaseMissing kind text
  | cons letter digits =>
    simp only [codeFault?, List.drop_succ_cons, List.drop_zero] at h
    cases base : CodeBase.ofLetter? letter with
    | none =>
      rw [base] at h
      cases h
      exact .codeBaseUnknown kind text base
    | some base' =>
      rw [base] at h
      cases digits with
      | nil =>
        cases h
        rw [← text]
        exact .codeEmpty kind text base
      | cons d ds =>
        obtain ⟨digit, found, rfl⟩ := Option.map_eq_some_iff.1 h
        obtain ⟨bad, good, more, split, first⟩ := List.find?_eq_some_iff_append.1 found
        rw [split] at text
        refine .codeDigit kind text base (fun c member => ?_) (by simpa using bad)
        simpa using first c member

theorem TokenProblem.codeFault? {token : Token} {fault : Fault} (h : TokenProblem token fault)
    (kind : token.kind = .code) : codeFault? token.text = some fault := by
  cases h with
  | tab other | textBrace other | badEscape other _ | decimalFraction other _ =>
    rw [kind] at other
    cases other
  | codeBaseMissing _ text =>
    rw [text]
    rfl
  | codeBaseUnknown _ text unknown =>
    rw [text]
    simp [TermOutline.codeFault?, unknown]
  | codeEmpty _ text known =>
    rw [text]
    simp [TermOutline.codeFault?, known]
  | @codeDigit letter digit base good rest _ text known first bad =>
    have found : (good ++ digit :: rest).find? (fun c => !base.hasDigit c) = some digit := by
      refine List.find?_eq_some_iff_append.2 ⟨by simp [bad], good, rest, rfl, ?_⟩
      intro c member
      simp [first c member]
    rw [text]
    simp [TermOutline.codeFault?, known, found]

theorem tokenProblem_of_fault? {token : Token} {fault : Fault} (known : token.kind ≠ .unknown)
    (spelled : Spelled token.kind token.text) (h : token.fault? = some fault) :
    TokenProblem token fault := by
  cases kind : token.kind <;> simp only [Token.fault?, kind] at h <;> rw [kind] at spelled <;>
    try cases h
  case unknown => exact absurd kind known
  case tab => exact .tab kind
  case textBrace => exact .textBrace kind
  case badEscape =>
    obtain ⟨c, text⟩ := spelled
    rw [text] at h
    cases h
    exact .badEscape kind text
  case code =>
    obtain ⟨rest, text⟩ := spelled
    exact codeFault?_problem kind text h
  case decimal =>
    by_cases point : token.text.getLast? = some '.'
    · rw [if_pos point] at h
      cases h
      exact .decimalFraction kind point
    · rw [if_neg point] at h
      cases h

theorem TokenProblem.fault? {token : Token} {fault : Fault} (h : TokenProblem token fault) :
    token.fault? = some fault ∧ token.kind ≠ .unknown := by
  by_cases code : token.kind = .code
  · rw [Token.fault?, code]
    exact ⟨h.codeFault? code, by decide⟩
  cases h with
  | tab kind | textBrace kind =>
    rw [Token.fault?, kind]
    exact ⟨rfl, by decide⟩
  | badEscape kind text =>
    rw [Token.fault?, kind, text]
    exact ⟨rfl, by decide⟩
  | decimalFraction kind point =>
    rw [Token.fault?, kind]
    exact ⟨if_pos point, by decide⟩
  | codeBaseMissing kind | codeBaseUnknown kind | codeEmpty kind | codeDigit kind =>
    exact absurd kind code

/-! ## Runs of unknown tokens -/

theorem joinUnknown_known {token : Token} (h : token.kind ≠ .unknown) (more : List Token) :
    joinUnknown token more = token :: more := by
  cases more <;> simp [joinUnknown, h]

theorem foldr_joinUnknown_head {tokens : List Token} {next : Token}
    (h : (tokens.foldr joinUnknown []).head? = some next) :
    ∃ first ∈ tokens.head?, first.kind = next.kind := by
  cases tokens with
  | nil => cases h
  | cons first rest =>
    refine ⟨first, rfl, ?_⟩
    rw [List.foldr_cons] at h
    generalize rest.foldr joinUnknown [] = joined at h
    cases joined with
    | nil =>
      cases h
      rfl
    | cons other others =>
      rw [joinUnknown] at h
      split at h
      all_goals
        cases h
        rfl

theorem foldr_joinUnknown_append {front back : List Token}
    (apart : ∀ last ∈ front.getLast?, ∀ next ∈ back.head?,
      ¬(last.kind = .unknown ∧ next.kind = .unknown)) :
    (front ++ back).foldr joinUnknown [] =
      front.foldr joinUnknown [] ++ back.foldr joinUnknown [] := by
  induction front with
  | nil => rfl
  | cons token rest ih =>
    rw [List.cons_append, List.foldr_cons, List.foldr_cons]
    cases rest with
    | nil =>
      rw [List.nil_append, List.foldr_nil]
      cases joined : back.foldr joinUnknown [] with
      | nil => rfl
      | cons next others =>
        obtain ⟨first, head, same⟩ := foldr_joinUnknown_head (by rw [joined]; rfl)
        have known := apart token rfl first head
        rw [same] at known
        exact if_neg known
    | cons other others =>
      rw [ih fun last final => apart last (by rw [List.getLast?_cons_cons]; exact final)]
      exact joinUnknown_append token (joinUnknown_ne_nil _ _) _

theorem foldr_joinUnknown_run {first : Token} {rest : List Token}
    (h : ∀ token ∈ first :: rest, token.kind = .unknown) :
    (first :: rest).foldr joinUnknown [] =
      [⟨.unknown, (first :: rest).flatMap Token.text, first.start⟩] := by
  induction rest generalizing first with
  | nil =>
    have kind := h first List.mem_cons_self
    simp [joinUnknown, ← kind]
  | cons next rest ih =>
    obtain ⟨kind, others⟩ := List.forall_mem_cons.1 h
    rw [List.foldr_cons, ih others, joinUnknown, if_pos ⟨kind, rfl⟩, kind]
    rfl

theorem MaximalRun.joined {tokens before rest after : List Token} {first : Token}
    (h : MaximalRun tokens before (first :: rest) after) :
    ⟨.unknown, (first :: rest).flatMap Token.text, first.start⟩ ∈ tokens.foldr joinUnknown [] := by
  rw [h.split, foldr_joinUnknown_append, foldr_joinUnknown_append, foldr_joinUnknown_run h.kinds]
  · simp
  · intro last final next _
    exact fun both => h.left last final both.1
  · intro last _ next head
    exact fun both => h.right next head both.2

theorem mem_joined_of_known {tokens : List Token} {token : Token} (member : token ∈ tokens)
    (known : token.kind ≠ .unknown) : token ∈ tokens.foldr joinUnknown [] := by
  obtain ⟨front, back, rfl⟩ := List.append_of_mem member
  rw [foldr_joinUnknown_append, List.foldr_cons, joinUnknown_known known]
  · simp
  · rintro last _ next ⟨⟩ both
    exact known both.2

/-- What a joined token stands for: a known token, or a maximal run of unknown ones. -/
def StandsFor (tokens : List Token) (token : Token) : Prop :=
  (token ∈ tokens ∧ token.kind ≠ .unknown) ∨
    ∃ before first rest after, MaximalRun tokens before (first :: rest) after ∧
      token = ⟨.unknown, (first :: rest).flatMap Token.text, first.start⟩

theorem StandsFor.append {front back : List Token} {token : Token} (h : StandsFor back token)
    (apart : ∀ last ∈ front.getLast?, ∀ next ∈ back.head?,
      ¬(last.kind = .unknown ∧ next.kind = .unknown)) : StandsFor (front ++ back) token := by
  rcases h with ⟨member, known⟩ | ⟨before, first, rest, after, run, same⟩
  · exact Or.inl ⟨List.mem_append_right _ member, known⟩
  refine Or.inr ⟨front ++ before, first, rest, after, ⟨?_, run.kinds, ?_, run.right⟩, same⟩
  · rw [run.split]
    simp
  · intro last final unknown
    rcases List.eq_nil_or_concat before with rfl | ⟨before, token, rfl⟩
    · rw [List.append_nil] at final
      have next : first ∈ back.head? := by
        rw [run.split]
        rfl
      exact apart last final first next ⟨unknown, run.kinds first List.mem_cons_self⟩
    · refine run.left last ?_ unknown
      rw [List.concat_eq_append] at final ⊢
      rw [← List.append_assoc, List.getLast?_concat] at final
      rw [List.getLast?_concat]
      exact final

/-- The run of unknown tokens, or the known token, that comes first is joined by itself. -/
theorem joined_first (head : Token) (tail : List Token) :
    ∃ front back joined, head :: tail = head :: front ++ back ∧
      (∀ last ∈ (head :: front).getLast?, ∀ next ∈ back.head?,
        ¬(last.kind = .unknown ∧ next.kind = .unknown)) ∧
      (head :: front).foldr joinUnknown [] = [joined] ∧
      StandsFor (head :: front ++ back) joined := by
  by_cases known : head.kind = .unknown
  · let unknown (token : Token) : Bool := decide (token.kind = .unknown)
    have kinds : ∀ token ∈ head :: tail.takeWhile unknown, token.kind = .unknown := by
      refine List.forall_mem_cons.2 ⟨known, fun token member => ?_⟩
      simpa [unknown] using List.mem_takeWhile_imp member
    have right : ∀ next ∈ (tail.dropWhile unknown).head?, next.kind ≠ .unknown := by
      intro next first
      have stops := List.head?_dropWhile_not unknown tail
      rw [first] at stops
      simpa [unknown] using stops
    refine ⟨tail.takeWhile unknown, tail.dropWhile unknown, _, ?_, ?_,
      foldr_joinUnknown_run kinds, ?_⟩
    · rw [List.cons_append, List.takeWhile_append_dropWhile]
    · exact fun last _ next first both => right next first both.2
    · exact Or.inr ⟨[], head, _, _, ⟨rfl, kinds, by simp, right⟩, rfl⟩
  · refine ⟨[], tail, head, rfl, ?_, joinUnknown_known known [], Or.inl ⟨List.mem_cons_self, known⟩⟩
    rintro last ⟨⟩ next _ both
    exact known both.1

theorem standsFor_of_mem_joined {tokens : List Token} {token : Token}
    (h : token ∈ tokens.foldr joinUnknown []) : StandsFor tokens token := by
  induction size : tokens.length using Nat.strong_induction_on generalizing tokens with
  | h n ih =>
    cases tokens with
    | nil => cases h
    | cons head tail =>
      obtain ⟨front, back, joined, split, apart, alone, stands⟩ := joined_first head tail
      have shorter : back.length < n := by
        rw [← size, split, List.length_append, List.length_cons]
        omega
      rw [split, foldr_joinUnknown_append apart, alone] at h
      rw [split]
      rcases List.mem_append.1 h with own | later
      · rw [List.mem_singleton.1 own]
        exact stands
      · exact (ih _ shorter later rfl).append apart

theorem mem_joined_iff {tokens : List Token} {token : Token} :
    token ∈ tokens.foldr joinUnknown [] ↔ StandsFor tokens token := by
  constructor
  · exact standsFor_of_mem_joined
  · rintro (⟨member, known⟩ | ⟨before, first, rest, after, run, rfl⟩)
    · exact mem_joined_of_known member known
    · exact run.joined

/-! ## What is found -/

theorem contiguous_joinUnknown {offset : Nat} {token : Token} {tokens : List Token}
    (h : Contiguous offset (token :: tokens)) : Contiguous offset (joinUnknown token tokens) := by
  cases tokens with
  | nil => exact h
  | cons next rest =>
    rw [joinUnknown]
    split
    · obtain ⟨start, text, after, _, others⟩ := h
      refine ⟨start, List.append_ne_nil_of_left_ne_nil text _, ?_⟩
      have stop : next.span.stop = token.start + (token.text ++ next.text).byteLength := by
        rw [Token.span, after, Token.span, Source.byteLength_append, Nat.add_assoc]
      rw [stop] at others
      exact others
    · exact h

theorem contiguous_joined {offset : Nat} {tokens : List Token} (h : Contiguous offset tokens) :
    Contiguous offset (tokens.foldr joinUnknown []) := by
  induction tokens generalizing offset with
  | nil => trivial
  | cons token rest ih => exact contiguous_joinUnknown ⟨h.1, h.2.1, ih h.2.2⟩

theorem contiguous_pairwise {offset : Nat} {tokens : List Token} (h : Contiguous offset tokens) :
    tokens.Pairwise fun one next => one.start < one.span.stop ∧ one.span.stop ≤ next.start := by
  induction tokens generalizing offset with
  | nil => exact .nil
  | cons token rest ih =>
    obtain ⟨_, text, others⟩ := h
    have size := byteLength_pos text
    refine List.pairwise_cons.2 ⟨fun next member => ⟨?_, ?_⟩, ih others⟩
    · exact Nat.lt_add_of_pos_right size
    · exact (contiguous_starts others).2 _ (List.mem_map_of_mem member)

theorem contiguous_ends {offset : Nat} {tokens : List Token} (h : Contiguous offset tokens)
    {one next : Token} (member : one ∈ tokens) (member' : next ∈ tokens)
    (earlier : one.start < next.start) : one.span.stop ≤ next.start := by
  obtain ⟨front, back, rfl⟩ := List.append_of_mem member
  have order := contiguous_pairwise h
  rcases List.mem_append.1 member' with before | behind
  · have below := (List.pairwise_append.1 order).2.2 next before one List.mem_cons_self
    omega
  · rcases List.mem_cons.1 behind with rfl | after
    · exact absurd earlier (Nat.lt_irrefl _)
    · have above := (List.pairwise_append.1 order).2.1
      exact ((List.pairwise_cons.1 above).1 next after).2

theorem MaximalRun.place {text : Source} {before rest after : List Token} {first : Token}
    (h : MaximalRun text.tokens before (first :: rest) after) :
    Token.span ⟨.unknown, (first :: rest).flatMap Token.text, first.start⟩ = tokenSpan first rest ∧
      text.slice? (tokenSpan first rest).start (tokenSpan first rest).stop =
        some ((first :: rest).flatMap Token.text) := by
  have whole := scans_text (scans_tokens text)
  have contiguous := scans_contiguous (scans_tokens text)
  rw [h.split, List.append_assoc, contiguous_append_iff, contiguous_append_iff, Nat.zero_add]
    at contiguous
  have run := contiguous.2.1
  rw [contiguous_tokenSpan run, ← run.1]
  refine ⟨rfl, ?_⟩
  rw [run.1, ← whole, h.split, List.flatMap_append, List.flatMap_append]
  exact Source.slice?_append _ _ _

theorem mem_lexicalFindings_iff {text : Source} {finding : Finding} :
    finding ∈ lexicalFindings text.tokens ↔ LexicalProblem text finding := by
  have spelled := scans_spelled (scans_tokens text)
  rw [lexicalFindings, List.mem_append]
  constructor
  · rintro (member | member)
    · obtain ⟨token, joined, found⟩ := List.mem_filterMap.1 member
      obtain ⟨fault, faulty, rfl⟩ := Option.map_eq_some_iff.1 found
      rcases mem_joined_iff.1 joined with ⟨inside, known⟩ | ⟨before, first, rest, after, run, rfl⟩
      · exact .token inside (tokenProblem_of_fault? known (spelled token inside) faulty)
      · cases faulty
        rw [run.place.1]
        exact .unknownText run run.place.2
    · obtain ⟨span, unclosed, rfl⟩ := List.mem_map.1 member
      obtain ⟨token, inside, rfl⟩ := unclosedTexts_atTokens span unclosed
      obtain ⟨inside, kind⟩ := List.mem_filter.1 inside
      exact .openText inside (by simpa using kind) unclosed
  · intro problem
    cases problem with
    | unknownText run found =>
      rw [run.place.2] at found
      cases found
      refine Or.inl (List.mem_filterMap.2 ⟨_, run.joined, ?_⟩)
      rw [Token.finding?, run.place.1]
      rfl
    | token member problem =>
      obtain ⟨faulty, known⟩ := problem.fault?
      refine Or.inl (List.mem_filterMap.2 ⟨_, mem_joined_of_known member known, ?_⟩)
      rw [Token.finding?, faulty]
      rfl
    | openText _ _ unclosed => exact Or.inr (List.mem_map_of_mem unclosed)

theorem LexicalProblem.charged {text : Source} {finding : Finding}
    (h : LexicalProblem text finding) :
    ∃ token ∈ text.tokens.foldr joinUnknown [], finding.span = token.span ∧
      (token.fault? = some finding.fault ∨ token.kind = .textOpen ∧ finding.fault = .openText) := by
  cases h with
  | unknownText run found =>
    rw [run.place.2] at found
    cases found
    exact ⟨_, run.joined, run.place.1.symm, Or.inl rfl⟩
  | token member problem =>
    obtain ⟨faulty, known⟩ := problem.fault?
    exact ⟨_, mem_joined_of_known member known, rfl, Or.inl faulty⟩
  | openText member kind _ =>
    exact ⟨_, mem_joined_of_known member (by rw [kind]; decide), rfl, Or.inr ⟨kind, rfl⟩⟩

theorem LexicalProblem.unique {text : Source} {one other : Finding} (h : LexicalProblem text one)
    (h' : LexicalProblem text other) (same : one.span.start = other.span.start) : one = other := by
  obtain ⟨token, member, span, fault⟩ := h.charged
  obtain ⟨token', member', span', fault'⟩ := h'.charged
  have distinct := (contiguous_starts (contiguous_joined (scans_contiguous (scans_tokens text)))).1
  rw [span, span'] at same
  obtain rfl := List.inj_on_of_nodup_map distinct member member' same
  have faults : one.fault = other.fault := by
    rcases fault with found | ⟨kind, opened⟩ <;> rcases fault' with found' | ⟨kind', opened'⟩
    · exact Option.some.inj (found.symm.trans found')
    · rw [Token.fault?, kind'] at found
      cases found
    · rw [Token.fault?, kind] at found'
      cases found'
    · exact opened.trans opened'.symm
  cases one
  cases other
  simp only at span span' faults
  rw [span, span', faults]

theorem LexicalProblem.apart {text : Source} {one next : Finding} (h : LexicalProblem text one)
    (h' : LexicalProblem text next) (earlier : one.span.start < next.span.start) :
    one.span.stop ≤ next.span.start := by
  obtain ⟨token, member, span, _⟩ := h.charged
  obtain ⟨token', member', span', _⟩ := h'.charged
  rw [span, span'] at earlier ⊢
  have joined := contiguous_joined (scans_contiguous (scans_tokens text))
  exact contiguous_ends joined member member' earlier

theorem LexicalProblem.nonempty {text : Source} {finding : Finding}
    (h : LexicalProblem text finding) : finding.span.start < finding.span.stop := by
  obtain ⟨token, member, span, _⟩ := h.charged
  have contiguous := contiguous_joined (scans_contiguous (scans_tokens text))
  obtain ⟨front, back, split⟩ := List.append_of_mem member
  rw [split] at contiguous
  rw [span]
  exact Nat.lt_add_of_pos_right (byteLength_pos (contiguous_append_iff.1 contiguous).2.2.1)

theorem Ordered.filter {α : Type} {start : α → Nat} {pushed listed : List α}
    (h : Ordered start pushed listed) (p : α → Bool) :
    Ordered start (pushed.filter p) (listed.filter p) := by
  refine ⟨h.perm.filter p, h.sorted.filter p, fun offset => ?_⟩
  rw [List.filter_comm, h.stable, List.filter_comm]

theorem openFindings_ordered (text : Source) : Ordered (fun finding : Finding => finding.span.start)
    (openFindings text.tokens) (openFindings text.tokens) := by
  refine ⟨.refl _, ?_, fun _ => rfl⟩
  have order := contiguous_pairwise (scans_contiguous (scans_tokens text))
  have starts : (text.tokens.map Token.start).Pairwise (· ≤ ·) :=
    List.pairwise_map.2 (order.imp fun apart => Nat.le_of_lt (Nat.lt_of_lt_of_le apart.1 apart.2))
  have spans := List.pairwise_map.1 (starts.sublist (unclosedTexts_starts text.tokens))
  exact List.pairwise_map.2 spans

theorem lexicalFindings_filter (tokens : List Token) :
    (lexicalFindings tokens).filter (fun finding => finding.fault = .openText) =
      openFindings tokens := by
  have none : (tokenFindings tokens).filter (fun finding => finding.fault = .openText) = [] := by
    refine List.filter_eq_nil_iff.2 ?_
    intro finding member opened
    obtain ⟨token, _, found⟩ := List.mem_filterMap.1 member
    obtain ⟨fault, faulty, rfl⟩ := Option.map_eq_some_iff.1 found
    have same : fault = .openText := of_decide_eq_true opened
    exact fault?_code faulty (congrArg Fault.code same)
  rw [lexicalFindings_eq, List.filter_append, none, List.nil_append, List.filter_eq_self]
  intro finding member
  obtain ⟨span, _, rfl⟩ := List.mem_map.1 member
  rfl

theorem lexicalFindings_nodup (text : Source) : (lexicalFindings text.tokens).Nodup := by
  refine List.Nodup.of_map Finding.mark (List.nodup_iff_count_le_one.2 fun mark => ?_)
  exact (lexicalFindings_counted text.tokens mark).once

/-- Exactly the problems of a text, one behind the other. -/
structure LexicalReport (text : Source) (findings : List Finding) : Prop where
  nonempty : ∀ finding ∈ findings, finding.span.start < finding.span.stop
  apart : findings.Pairwise fun one next => one.span.stop ≤ next.span.start
  complete : ∀ finding, finding ∈ findings ↔ LexicalProblem text finding
  unclosed : (findings.filter fun finding => finding.fault = .openText).map Finding.span =
    unclosedTexts text.tokens
  codes : ∀ token ∈ text.tokens, token.kind = .code →
    ((∃ finding ∈ findings, finding.span = token.span) ↔ ¬IsCode token.text)

theorem code_problem_iff {text : Source} {token : Token} (member : token ∈ text.tokens)
    (kind : token.kind = .code) :
    (∃ finding, LexicalProblem text finding ∧ finding.span = token.span) ↔ ¬IsCode token.text := by
  have spelled := scans_spelled (scans_tokens text) token member
  have sound := fault?_eq_none_iff spelled
  have known : token.kind ≠ .unknown := by
    rw [kind]
    decide
  constructor
  · rintro ⟨finding, problem, place⟩ well
    obtain ⟨other, member', span, fault⟩ := problem.charged
    have contiguous := contiguous_joined (scans_contiguous (scans_tokens text))
    rw [place] at span
    obtain rfl := List.inj_on_of_nodup_map (contiguous_starts contiguous).1
      (mem_joined_of_known member known) member' (congrArg Span.start span)
    rw [sound.2 ⟨by rw [kind]; rfl, fun _ => well, by simp [kind]⟩] at fault
    simp [kind] at fault
  · intro malformed
    cases faulty : token.fault? with
    | none => exact absurd ((sound.1 faulty).2.1 kind) malformed
    | some fault =>
      exact ⟨_, .token member (tokenProblem_of_fault? known spelled faulty), rfl⟩

theorem lexicalReport_of_ordered {text : Source} {findings : List Finding}
    (h : Ordered (fun finding => finding.span.start) (lexicalFindings text.tokens) findings) :
    LexicalReport text findings := by
  have complete : ∀ finding, finding ∈ findings ↔ LexicalProblem text finding :=
    fun finding => h.perm.mem_iff.trans mem_lexicalFindings_iff
  have distinct : findings.Nodup := h.perm.nodup_iff.2 (lexicalFindings_nodup text)
  refine ⟨fun finding member => ((complete finding).1 member).nonempty, ?_, complete, ?_, ?_⟩
  · refine (h.sorted.and distinct).imp_of_mem ?_
    intro one next member member' order
    have problem := (complete one).1 member
    have problem' := (complete next).1 member'
    refine problem.apart problem' (Nat.lt_of_le_of_ne order.1 fun same => ?_)
    exact order.2 (problem.unique problem' same)
  · have opened := h.filter fun finding => finding.fault = .openText
    rw [lexicalFindings_filter] at opened
    rw [opened.unique (openFindings_ordered text), openFindings, List.map_map]
    exact List.map_id _
  · intro token member kind
    rw [← code_problem_iff member kind]
    exact exists_congr fun finding => and_congr_left fun _ => complete finding

/-- The lexical stage reports the problems of the text, in order, and passes on the tokens of a text
that has none. -/
theorem tokenize_diagnoses (document : Document) :
    ∃ findings, LexicalReport document.text findings ∧
      match document.tokenize with
      | .ok tokens => findings = [] ∧ tokens = document.text.tokens
      | .error report =>
        report.toList = findings.map fun finding => finding.diagnostic document.file := by
  have order := ordered_insertionSort (fun finding : Finding => finding.span.start)
    (lexicalFindings document.text.tokens)
  have reports := reported_tokenize document.file document.text
  rw [(sortByStart_ordered _).unique (Ordered.map _ order)] at reports
  refine ⟨_, lexicalReport_of_ordered order, ?_⟩
  split
  · next tokens accepted =>
    obtain ⟨quiet, rfl⟩ := accept_eq_ok accepted
    rw [quiet]
    exact ⟨rfl, rfl⟩
  · next report refused =>
    rw [← reports, refused]
    rfl

end TermOutline
